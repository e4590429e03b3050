import YangConstraint.Expr.Cursor
import YangConstraint.Proofs.Expr.Scan

/-!
Where the tokens of a text stand. They make up the text, with nothing but spaces between them, and a
cursor goes over them one at a time, whatever else it is asked.
-/
namespace YangConstraint

namespace Text

variable {cs : List Char}

theorem utf8ByteSize_ofList (cs : List Char) : (String.ofList cs).utf8ByteSize = byteSize cs := by
  induction cs with
  | nil => rfl
  | cons c cs ih =>
    rw [String.ofList_cons, String.utf8ByteSize_append, String.utf8ByteSize_singleton, ih,
      byteSize_cons]

theorem byteSize_toList (text : String) : byteSize text.toList = text.utf8ByteSize := by
  rw [← utf8ByteSize_ofList, String.ofList_toList]

/-- Every byte belongs to a character. -/
theorem exists_at {q : Nat} (h : q < byteSize cs) :
    ∃ before c rest, cs = before ++ c :: rest ∧ byteSize before ≤ q ∧
      q < byteSize before + c.utf8Size := by
  induction cs generalizing q with
  | nil => simp at h
  | cons c cs ih =>
    by_cases hq : q < c.utf8Size
    · exact ⟨[], c, cs, rfl, by simp, by simpa using hq⟩
    · rw [byteSize_cons] at h
      obtain ⟨before, d, rest, rfl, hl, hh⟩ := ih (q := q - c.utf8Size) (by omega)
      exact ⟨c :: before, d, rest, rfl, by rw [byteSize_cons]; omega, by rw [byteSize_cons]; omega⟩

/-- The byte of a space. -/
theorem byte_space {text : String} {before rest : List Char}
    (h : text.toList = before ++ ' ' :: rest) (hq : byteSize before < text.toByteArray.size) :
    text.toByteArray[byteSize before] = ' '.toUInt8 := by
  have ht : text = String.ofList before ++ String.ofList (' ' :: rest) := by
    rw [← String.toList_inj, h]
    simp
  have hbytes : text.toByteArray =
      (String.ofList before).toByteArray ++ ([' '].utf8Encode ++ rest.utf8Encode) := by
    rw [ht, String.toByteArray_append, String.toByteArray_ofList, String.toByteArray_ofList,
      ← List.utf8Encode_cons]
  have hsize : (String.ofList before).toByteArray.size = byteSize before := by
    rw [String.size_toByteArray, utf8ByteSize_ofList]
  simp only [hbytes]
  rw [ByteArray.getElem_append_right (Nat.le_of_eq hsize)]
  simp only [hsize, Nat.sub_self]
  rw [ByteArray.getElem_append_left (by decide)]
  rfl

end Text

namespace Token

/-- The offset of the byte behind the token. -/
def stop (t : Token) : Nat := t.start + t.text.utf8ByteSize

/-- The tokens of a text that starts at a byte, with spaces before, between and behind them. What
stands behind a token is scanned from there on. -/
inductive Layout : Nat → List Char → List Token → Prop where
  | done (start : Nat) : Layout start [] []
  | space {start : Nat} {cs : List Char} {ts : List Token} (h : Layout (start + 1) cs ts) :
    Layout start (' ' :: cs) ts
  | token {t : Token} {cs : List Char} (hk : t.kind ≠ .eof) (ht : t.text ≠ "")
    (h : Layout t.stop cs (scanFrom t.kind t.stop cs)) :
    Layout t.start (t.text.toList ++ cs) (t :: scanFrom t.kind t.stop cs)

theorem scanFrom_layout (prior : TokenKind) (start : Nat) (cs : List Char) :
    Layout start cs (scanFrom prior start cs) := by
  fun_induction scanFrom prior start cs with
  | case1 => exact .done _
  | case2 prior start cs ih => exact .space ih
  | case3 prior start c cs hc lexeme spelled ih =>
    have htext : c :: cs = (String.ofList spelled).toList ++ cs.drop lexeme.2 := by
      rw [String.toList_ofList, List.cons_append, List.take_append_drop]
    have hstop : start + Text.byteSize spelled = stop ⟨lexeme.1, start, String.ofList spelled⟩ := by
      rw [stop, Text.utf8ByteSize_ofList]
    rw [htext, hstop]
    rw [hstop] at ih
    refine .token (t := ⟨lexeme.1, start, String.ofList spelled⟩) Lexeme.read_kind ?_ ih
    rw [ne_eq, ← String.toList_inj, String.toList_ofList]
    exact List.cons_ne_nil _ _

namespace Layout

variable {start : Nat} {cs before rest : List Char} {ts : List Token} {t : Token} {c : Char}

/-- A token has a text of its own, which is that of its place, and the tokens behind it are those of
the text behind it. -/
theorem spelled {us : List Token} (h : Layout start cs (us ++ t :: ts)) :
    t.kind ≠ .eof ∧ t.text ≠ "" ∧ ∃ before rest, cs = before ++ (t.text.toList ++ rest) ∧
      t.start = start + Text.byteSize before ∧ ts = scanFrom t.kind t.stop rest := by
  generalize hts : us ++ t :: ts = all at h
  induction h generalizing us with
  | done => simp at hts
  | space h ih =>
    obtain ⟨hk, hn, before, rest, rfl, hs, he⟩ := ih hts
    refine ⟨hk, hn, ' ' :: before, rest, rfl, ?_, he⟩
    rw [hs, Text.byteSize_cons, ← Nat.add_assoc]
    rfl
  | @token u cs hk hn h ih =>
    cases us with
    | nil =>
      obtain ⟨rfl, rfl⟩ := List.cons.inj hts
      exact ⟨hk, hn, [], cs, rfl, rfl, rfl⟩
    | cons v us =>
      obtain ⟨rfl, hts⟩ := List.cons.inj hts
      obtain ⟨hk, hn, before, rest, rfl, hs, he⟩ := ih hts
      refine ⟨hk, hn, v.text.toList ++ before, rest, by rw [List.append_assoc], ?_, he⟩
      rw [hs, stop, Text.byteSize_append, Text.byteSize_toList, Nat.add_assoc]

theorem pairwise (h : Layout start cs ts) : ts.Pairwise fun t u => t.stop ≤ u.start := by
  induction h with
  | done => exact .nil
  | space h ih => exact ih
  | token hk hn h ih =>
    refine .cons (fun u hu => ?_) ih
    obtain ⟨us, vs, hts⟩ := List.append_of_mem hu
    rw [hts] at h
    obtain ⟨-, -, before, rest, -, hs, -⟩ := h.spelled
    omega

theorem length_le (h : Layout start cs ts) : ts.length ≤ Text.byteSize cs := by
  induction h with
  | done => exact Nat.le_refl _
  | space h ih =>
    rw [Text.byteSize_cons]
    omega
  | @token t cs hk hn h ih =>
    have hpos : t.text.utf8ByteSize ≠ 0 := fun h => hn (String.utf8ByteSize_eq_zero_iff.1 h)
    rw [List.length_cons, Text.byteSize_append, Text.byteSize_toList]
    omega

/-- What is no space belongs to a token. -/
theorem covered (h : Layout start cs ts) (hcs : cs = before ++ c :: rest) (hc : c ≠ ' ') :
    ∃ t ∈ ts, t.start ≤ start + Text.byteSize before ∧
      start + Text.byteSize before + c.utf8Size ≤ t.stop := by
  induction h generalizing before with
  | done => simp at hcs
  | space h ih =>
    cases before with
    | nil =>
      cases hcs
      exact absurd rfl hc
    | cons d before =>
      obtain ⟨rfl, rfl⟩ := List.cons.inj hcs
      obtain ⟨t, ht, hl, hh⟩ := ih rfl
      have : ' '.utf8Size = 1 := rfl
      rw [Text.byteSize_cons]
      exact ⟨t, ht, by omega, by omega⟩
  | @token u cs hk hn h ih =>
    -- the character stands behind the token or in it
    rcases List.append_eq_append_iff.1 hcs with ⟨as, rfl, hrest⟩ | ⟨as, htext, hrest⟩
    · obtain ⟨t, ht, hl, hh⟩ := ih hrest
      rw [Text.byteSize_append, Text.byteSize_toList, ← Nat.add_assoc]
      exact ⟨t, List.mem_cons_of_mem _ ht, hl, hh⟩
    · cases as with
      | nil =>
        have hbehind : cs = [] ++ c :: rest := hrest.symm
        obtain ⟨t, ht, hl, hh⟩ := ih hbehind
        rw [List.append_nil] at htext
        rw [← htext, Text.byteSize_toList]
        rw [Text.byteSize_nil, stop] at hl hh
        exact ⟨t, List.mem_cons_of_mem _ ht, hl, hh⟩
      | cons d as =>
        obtain ⟨rfl, -⟩ := List.cons.inj hrest
        have hsize :
            u.text.utf8ByteSize = Text.byteSize before + (c.utf8Size + Text.byteSize as) := by
          rw [← Text.byteSize_toList, htext, Text.byteSize_append, Text.byteSize_cons]
        refine ⟨u, List.mem_cons_self, Nat.le_add_right .., ?_⟩
        rw [stop, hsize]
        omega

end Layout

end Token

namespace Cursor

/-- What a cursor may be asked. -/
inductive Call where
  | advance
  | check (expected : TokenKind)
  | pass (expected : TokenKind)
  | takeName
  | takeQualifier
  | takeLiteral
  | takeIssues

/-- Whether the cursor goes to the next token. -/
def Call.moves : Call → Bool
  | advance => true
  | pass _ => true
  | _ => false

def after (c : Cursor) : Call → Cursor
  | .advance => c.advance
  | .check expected => c.check expected
  | .pass expected => c.pass expected
  | .takeName => c.takeName.2
  | .takeQualifier => c.takeQualifier.2
  | .takeLiteral => c.takeLiteral.2
  | .takeIssues => c.takeIssues.2

def run (c : Cursor) (calls : List Call) : Cursor := calls.foldl after c

/-- The token at which a cursor stands that has been asked `calls`. -/
def reached (text : String) (calls : List Call) : Token := ((start text).run calls).reader.current

/-- The token at which a cursor stands that has only gone to the next token, `i` times. -/
def token (text : String) (i : Nat) : Token := reached text (List.replicate i .advance)

variable {c : Cursor} {text : String}

theorem after_rest (call : Call) :
    (c.after call).reader.rest = c.reader.rest.drop (if call.moves then 1 else 0) ∧
      (c.after call).reader.finish = c.reader.finish := by
  cases call <;>
    simp [after, advance, check, pass, takeName, takeQualifier, takeLiteral, takeIssues,
      ofReader, Call.moves]

theorem run_rest (calls : List Call) :
    (c.run calls).reader.rest = c.reader.rest.drop (calls.countP Call.moves) ∧
      (c.run calls).reader.finish = c.reader.finish := by
  induction calls generalizing c with
  | nil => exact ⟨rfl, rfl⟩
  | cons call calls ih =>
    obtain ⟨hrest, hfinish⟩ := c.after_rest call
    obtain ⟨hr, hf⟩ := ih (c := c.after call)
    refine ⟨?_, hf.trans hfinish⟩
    rw [List.countP_cons, Nat.add_comm, ← List.drop_drop, ← hrest]
    exact hr

/-- The cursor stands at a token by the number of times that it has moved, and at the
end behind the last. -/
theorem reached_eq (calls : List Call) :
    reached text calls = ((Token.scan text)[calls.countP Call.moves]?).getD
      (.eof text.utf8ByteSize) := by
  obtain ⟨hrest, hfinish⟩ := (start text).run_rest calls
  rw [reached, Reader.current, hrest, hfinish, List.headD_eq_head?_getD, List.head?_drop]
  simp only [start, ofReader, Reader.rest_start, Reader.finish_start, Text.byteSize_toList]

theorem token_eq (i : Nat) :
    token text i = ((Token.scan text)[i]?).getD (.eof text.utf8ByteSize) := by
  rw [token, reached_eq, List.countP_replicate]
  rfl

theorem token_of_lt {i : Nat} (h : i < (Token.scan text).length) :
    token text i = (Token.scan text)[i] := by
  rw [token_eq, List.getElem?_eq_getElem h]
  rfl

theorem token_of_le {i : Nat} (h : (Token.scan text).length ≤ i) :
    token text i = .eof text.utf8ByteSize := by
  rw [token_eq, List.getElem?_eq_none h]
  rfl

theorem layout_scan (text : String) : Token.Layout 0 text.toList (Token.scan text) :=
  Token.scanFrom_layout .unknown 0 text.toList

/-- A token of a text is the part of it between two ends of characters, and the scan
goes on behind it. -/
theorem scan_spelled {i : Nat} (h : i < (Token.scan text).length) : let t := (Token.scan text)[i]
    t.kind ≠ .eof ∧ t.start < t.stop ∧
      (⟨t.start⟩ : String.Pos.Raw).IsValid text ∧ (⟨t.stop⟩ : String.Pos.Raw).IsValid text ∧
      ∃ before rest, text = before ++ t.text ++ rest ∧ t.start = before.utf8ByteSize ∧
        (Token.scan text).drop (i + 1) = Token.scanFrom t.kind t.stop rest.toList := by
  intro t
  have hscan :
      Token.scan text = (Token.scan text).take i ++ t :: (Token.scan text).drop (i + 1) := by
    rw [← List.drop_eq_getElem_cons h, List.take_append_drop]
  have hlayout := layout_scan text
  rw [hscan] at hlayout
  obtain ⟨hk, hn, before, rest, ht, hs, he⟩ := hlayout.spelled
  have htext : text = String.ofList before ++ t.text ++ String.ofList rest := by
    rw [← String.toList_inj, ht]
    simp
  have hstart : t.start = (String.ofList before).utf8ByteSize := by
    rw [Text.utf8ByteSize_ofList, hs, Nat.zero_add]
  have hstop : t.stop = (String.ofList before ++ t.text).utf8ByteSize := by
    rw [String.utf8ByteSize_append, Token.stop, hstart]
  have hpos : t.text.utf8ByteSize ≠ 0 := fun h => hn (String.utf8ByteSize_eq_zero_iff.1 h)
  refine ⟨hk, by rw [Token.stop]; omega, ?_, ?_, _, _, htext, hstart, ?_⟩
  · refine String.Pos.Raw.isValid_iff_exists_append.2
      ⟨String.ofList before, t.text ++ String.ofList rest, ?_, ?_⟩
    · rw [← String.append_assoc]
      exact htext
    · exact String.Pos.Raw.ext hstart
  · exact String.Pos.Raw.isValid_iff_exists_append.2 ⟨_, _, htext, String.Pos.Raw.ext hstop⟩
  · rw [String.toList_ofList]
    exact he

theorem stop_le {i : Nat} (h : i < (Token.scan text).length) :
    (Token.scan text)[i].stop ≤ text.utf8ByteSize := by
  obtain ⟨-, -, -, hvalid, -⟩ := scan_spelled h
  exact hvalid.le_utf8ByteSize

theorem token_stop_le {i j : Nat} (h : i < j) : (token text i).stop ≤ (token text j).start := by
  by_cases hj : j < (Token.scan text).length
  · have hi := Nat.lt_trans h hj
    rw [token_of_lt hj, token_of_lt hi]
    exact List.pairwise_iff_getElem.1 (layout_scan text).pairwise i j hi hj h
  · rw [token_of_le (i := j) (by omega)]
    by_cases hi : i < (Token.scan text).length
    · rw [token_of_lt hi]
      exact stop_le hi
    · rw [token_of_le (i := i) (by omega)]
      exact Nat.le_refl _

/-- A byte that no token covers is a space. -/
theorem byte_covered {q : Nat} (hq : q < text.toByteArray.size) :
    text.toByteArray[q] = ' '.toUInt8 ∨
    ∃ i < (Token.scan text).length, (token text i).start ≤ q ∧ q < (token text i).stop := by
  have hsize : q < Text.byteSize text.toList := by
    rw [Text.byteSize_toList]
    exact hq
  obtain ⟨before, c, rest, ht, hl, hh⟩ := Text.exists_at hsize
  by_cases hc : c = ' '
  · subst hc
    have : ' '.utf8Size = 1 := rfl
    obtain rfl : q = Text.byteSize before := by omega
    exact .inl (Text.byte_space ht hq)
  · obtain ⟨t, hmem, hstart, hstop⟩ := (layout_scan text).covered ht hc
    obtain ⟨i, hi, rfl⟩ := List.mem_iff_getElem.1 hmem
    refine .inr ⟨i, hi, ?_⟩
    rw [token_of_lt hi]
    omega

/-- A cursor goes over the tokens of a text, whatever else it is asked. They are parts of the text
that end where characters end, each scanned from the end of the one before it on, and the rest of
the text is spaces. -/
theorem tokens_lossless (text : String) :
    (∀ calls, reached text calls = token text (calls.countP Call.moves)) ∧
    (∀ i < (Token.scan text).length, let t := token text i
      t.kind ≠ .eof ∧ t.start < t.stop ∧
      (⟨t.start⟩ : String.Pos.Raw).IsValid text ∧ (⟨t.stop⟩ : String.Pos.Raw).IsValid text ∧
      ∃ before rest, text = before ++ t.text ++ rest ∧ t.start = before.utf8ByteSize ∧
        (Token.scan text).drop (i + 1) = Token.scanFrom t.kind t.stop rest.toList) ∧
    (∀ i j, i < j → (token text i).stop ≤ (token text j).start) ∧
    (∀ q (hq : q < text.toByteArray.size), text.toByteArray[q] = ' '.toUInt8 ∨
      ∃ i < (Token.scan text).length, (token text i).start ≤ q ∧ q < (token text i).stop) ∧
    (Token.scan text).length ≤ text.utf8ByteSize ∧
    ∀ i, (Token.scan text).length ≤ i →
      (token text i).kind = .eof ∧ (token text i).start = text.utf8ByteSize ∧
        (token text i).stop = text.utf8ByteSize := by
  refine ⟨fun calls => ?_,
    fun i hi => ?_, fun i j h => token_stop_le h, fun q hq => byte_covered hq, ?_, fun i hi => ?_⟩
  · rw [reached_eq, token_eq]
  · simp only [token_of_lt hi]
    exact scan_spelled hi
  · rw [← Text.byteSize_toList]
    exact (layout_scan text).length_le
  · rw [token_of_le hi]
    exact ⟨rfl, rfl, rfl⟩

/-- An unknown character of two bytes, and a literal without its second quote. -/
theorem tokens_lossless_unterminated :
    let text := "é 'b"
    let calls : List Call := [.takeName, .check .eof, .pass .name, .takeIssues]
    reached text calls = ⟨.string "b" false, 3, "'b"⟩ ∧ (⟨3⟩ : String.Pos.Raw).IsValid text ∧
      (token text 0).stop ≤ 3 ∧ (token text 2).kind = .eof := by
  intro text calls
  obtain ⟨hcalls, htokens, hbehind, -, -, hend⟩ := tokens_lossless text
  have htoken : token text 1 = ⟨.string "b" false, 3, "'b"⟩ := by decide +kernel
  obtain ⟨-, -, hvalid, -⟩ := htokens 1 (by decide +kernel)
  have hstop := hbehind 0 1 (by decide)
  rw [htoken] at hvalid hstop
  exact ⟨(hcalls calls).trans htoken, hvalid, hstop, (hend 2 (by decide +kernel)).1⟩

end Cursor

end YangConstraint
