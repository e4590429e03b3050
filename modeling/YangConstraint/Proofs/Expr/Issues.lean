import YangConstraint.Proofs.Expr.Assembly
import YangConstraint.Proofs.Expr.Language
import YangConstraint.Proofs.Expr.Layout

/-!
Where the issues of an expression stand: each at a token and in the order of the text, because a
reader only goes on and only records issues of the token it stands at. What is left behind an
expression is the last of them.
-/
namespace YangConstraint

namespace Cursor

variable {text : String} {i j : Nat}

theorem token_start_le (h : i ≤ j) : (token text i).start ≤ (token text j).start := by
  rcases Nat.eq_or_lt_of_le h with rfl | h
  · exact Nat.le_refl _
  · exact Nat.le_trans (Nat.le_add_right ..) (token_stop_le h)

/-- A token, and the end of a text, is where the text can be cut. -/
theorem token_cut (text : String) (i : Nat) :
    ∃ before rest, text = before ++ rest ∧ (token text i).start = before.utf8ByteSize := by
  by_cases hi : i < (Token.scan text).length
  · obtain ⟨-, -, -, -, before, rest, ht, hs, -⟩ := scan_spelled hi
    rw [token_of_lt hi]
    exact ⟨before, (Token.scan text)[i].text ++ rest, by rwa [← String.append_assoc], hs⟩
  · rw [token_of_le (by omega)]
    exact ⟨text, "", by simp, rfl⟩

end Cursor

namespace Reader

/-- A reader at the `i`-th token of a text whose issues are about the tokens up to
there, in their order. -/
structure Marked (text : String) (i : Nat) (r : Reader) : Prop where
  rest : r.rest = (Token.scan text).drop i
  finish : r.finish = text.utf8ByteSize
  marks : ∀ issue ∈ r.issues, ∃ j ≤ i, issue.Marks (Cursor.token text j)
  inOrder : r.issues.toList.Pairwise fun earlier later => earlier.offset ≤ later.offset

variable {r s : Reader} {text : String} {i : Nat} {issue : Diagnostic}

namespace Marked

theorem current (h : r.Marked text i) : r.current = Cursor.token text i := by
  rw [Reader.current, h.rest, h.finish, Cursor.token_eq, List.headD_eq_head?_getD, List.head?_drop]

theorem offset_le (h : r.Marked text i) (hi : issue ∈ r.issues) :
    issue.offset ≤ r.current.start := by
  obtain ⟨j, hj, ho, -⟩ := h.marks issue hi
  rw [ho, h.current]
  exact Cursor.token_start_le hj

/-- An issue at the current token does not stand before those recorded so far. -/
theorem inOrder_push (h : r.Marked text i) (ho : issue.offset = r.current.start) :
    (r.issues.push issue).toList.Pairwise fun earlier later => earlier.offset ≤ later.offset := by
  rw [Array.toList_push, List.pairwise_append]
  refine ⟨h.inOrder, List.pairwise_singleton _ _, ?_⟩
  intro earlier he later hl
  obtain rfl := List.mem_singleton.1 hl
  rw [ho]
  exact h.offset_le (Array.mem_toList_iff.1 he)

theorem record (h : r.Marked text i) (hm : issue.Marks r.current) :
    (r.record issue).Marked text i where
  rest := h.rest
  finish := h.finish
  marks other ho := by
    rcases Array.mem_push.1 ho with ho | rfl
    · exact h.marks other ho
    · rw [h.current] at hm
      exact ⟨i, Nat.le_refl i, hm⟩
  inOrder := h.inOrder_push hm.1

theorem inspect (h : r.Marked text i) : r.inspect.Marked text i := by
  rw [Reader.inspect]
  split
  · rename_i issue hi
    exact h.record (Token.marks_issue? hi)
  · exact h

theorem advance (h : r.Marked text i) : r.advance.Marked text (i + 1) := by
  apply inspect
  refine ⟨?_, h.finish, ?_, h.inOrder⟩
  · rw [h.rest, List.tail_drop]
  · intro issue hi
    obtain ⟨j, hj, hm⟩ := h.marks issue hi
    exact ⟨j, by omega, hm⟩

end Marked

theorem marked_start (text : String) : (start text).Marked text 0 := by
  apply Marked.inspect
  exact ⟨rfl, Text.byteSize_toList text, by simp, .nil⟩

theorem marked_step (h : Moves r s) (hr : r.Marked text i) : ∃ j, s.Marked text j := by
  cases h with
  | advance => exact ⟨i + 1, hr.advance⟩
  | record issue hm => exact ⟨i, hr.record hm⟩

theorem marked_run (h : r.Reaches s) (hr : r.Marked text i) : ∃ j, s.Marked text j := by
  induction h with
  | refl => exact ⟨i, hr⟩
  | tail _ hm ih =>
    obtain ⟨j, hj⟩ := ih
    exact marked_step hm hj

/-- At its end a reader has no more issues, or one of all that stands from its token on. -/
theorem close_issues (h : r.Marked text i) : (r.close text).issues = r.issues ∨
    ∃ before rest, text = before ++ rest ∧ r.current.start = before.utf8ByteSize ∧
      (r.close text).issues = r.issues.push (.trailingInput r.current.start rest) := by
  rw [close]
  split
  · exact .inl rfl
  · obtain ⟨before, rest, ht, hs⟩ := Cursor.token_cut text i
    rw [← h.current] at hs
    refine .inr ⟨before, rest, ht, hs, ?_⟩
    have hdrop : Text.dropBytes r.current.start text.toList = rest.toList := by
      rw [hs, ← Text.byteSize_toList, ht, String.toList_append]
      exact Text.dropBytes_append ..
    dsimp only
    rw [hdrop, String.ofList_toList]
    rfl

theorem close_inOrder (h : r.Marked text i) :
    (r.close text).issues.toList.Pairwise fun earlier later => earlier.offset ≤ later.offset := by
  rcases close_issues h with he | ⟨before, rest, -, -, he⟩
  · rw [he]
    exact h.inOrder
  · rw [he]
    exact h.inOrder_push rfl

theorem close_offset (h : r.Marked text i) (hi : issue ∈ (r.close text).issues) :
    ∃ j, issue.offset = (Cursor.token text j).start := by
  have hmarks : issue ∈ r.issues → ∃ j, issue.offset = (Cursor.token text j).start := by
    intro hi
    obtain ⟨j, -, ho, -⟩ := h.marks issue hi
    exact ⟨j, ho⟩
  rcases close_issues h with he | ⟨before, rest, -, -, he⟩
  · rw [he] at hi
    exact hmarks hi
  · rw [he] at hi
    rcases Array.mem_push.1 hi with hi | rfl
    · exact hmarks hi
    · exact ⟨i, congrArg Token.start h.current⟩

theorem close_trailing (h : r.Marked text i) :
    (∀ issue ∈ (r.close text).issues.toList.dropLast, issue.isTrailingInput = false) ∧
      ∀ offset rest, .trailingInput offset rest ∈ (r.close text).issues →
        ∃ before, text = before ++ rest ∧ offset = before.utf8ByteSize := by
  have hmarks : ∀ issue ∈ r.issues, issue.isTrailingInput = false := by
    intro issue hi
    obtain ⟨j, -, -, hm⟩ := h.marks issue hi
    exact hm
  have hnone : ∀ offset rest, .trailingInput offset rest ∉ r.issues :=
    fun offset rest hi => nomatch hmarks _ hi
  rcases close_issues h with he | ⟨before, rest, ht, hs, he⟩
  · rw [he]
    refine ⟨fun issue hi => ?_, fun offset rest hi => (hnone offset rest hi).elim⟩
    exact hmarks issue (Array.mem_toList_iff.1 (List.dropLast_subset _ hi))
  · rw [he, Array.toList_push, List.dropLast_concat]
    refine ⟨fun issue hi => hmarks issue (Array.mem_toList_iff.1 hi), fun offset tail hi => ?_⟩
    rcases Array.mem_push.1 hi with hi | hi
    · exact (hnone offset tail hi).elim
    · cases hi
      exact ⟨before, ht, hs⟩

end Reader

section

variable {m : Type → Type} [Monad m] [LawfulMonad m] {α : Type}

/-- Each builder makes a node where there is a tree. -/
theorem Assembly.exists_run_eq (b : Builder m α) {t : Assembly} (h : t.tree ≠ none) :
    ∃ made : m α, t.run b = some <$> made := by
  cases t with
  | missing => exact absurd rfl h
  | dropped => exact absurd rfl h
  | leaf node => exact ⟨node.make b, by simp [run]⟩
  | joint node left right =>
    refine ⟨do node.make b (← left.run b) (← right.run b), ?_⟩
    simp [run]
  | call qualifier name args =>
    refine ⟨do b.call qualifier name (← runAll b args), ?_⟩
    simp [run]

end

namespace Expr

open Reader

variable {text : String}

theorem result_ne_none (h : (parse text).issues = #[]) : (parse text).result ≠ none := by
  obtain ⟨-, e, he, -⟩ := phrase_of_parse h
  simp [he]

/-- Each builder is given a node to finish unless there is an issue. -/
theorem parse_finish {m : Type → Type} [Monad m] [LawfulMonad m] {α : Type} (b : Builder m α)
    (text : String) :
    ∃ node : m (Option α),
      (b.parse text = do
        b.start
        let result ← b.finish (← node)
        return ⟨result, (parse text).issues⟩) ∧
      ((parse text).issues = #[] → ∃ made : m α, node = some <$> made) := by
  obtain ⟨t, hparse, htree, -⟩ := b.parse_assembly text
  refine ⟨t.run b, hparse, fun h => ?_⟩
  have hresult := result_ne_none h
  rw [htree] at hresult
  exact t.exists_run_eq b hresult

/-- Whatever builder an expression is parsed through, its issues come in the order of the text. Each
stands at a token or at the end, only the last can be about what is left of the text, and without
any there is a tree. -/
theorem parse_issues_inOrder (text : String) : let issues := (parse text).issues.toList
    issues.Pairwise (fun earlier later => earlier.offset ≤ later.offset) ∧
    (∀ issue ∈ issues, (∃ i, issue.offset = (Cursor.token text i).start) ∧
      (⟨issue.offset⟩ : String.Pos.Raw).IsValid text ∧ issue.offset ≤ text.utf8ByteSize) ∧
    (∀ issue ∈ issues.dropLast, issue.isTrailingInput = false) ∧
    (∀ offset rest, .trailingInput offset rest ∈ issues →
      ∃ before, text = before ++ rest ∧ offset = before.utf8ByteSize) ∧
    ((parse text).result = none → issues ≠ []) ∧
    ∀ (m : Type → Type) [Monad m] [LawfulMonad m] (α : Type) (b : Builder m α),
    ∃ node : m (Option α),
      (b.parse text = do
        b.start
        let result ← b.finish (← node)
        return ⟨result, (parse text).issues⟩) ∧
      (issues = [] → ∃ made : m α, node = some <$> made) := by
  intro issues
  obtain ⟨i, hi⟩ : ∃ i, ((Level.ofRoom builder maxDepth).expr 0 (start text)).2.Marked text i := by
    apply marked_run _ (marked_start text)
    exact ((Level.refines_ofRoom_succ maxDepth).expr 0).reaches (start text)
  obtain ⟨hlast, htrailing⟩ := close_trailing hi
  refine ⟨close_inOrder hi, fun issue hissue => ?_, hlast, ?_, ?_, ?_⟩
  · obtain ⟨j, hj⟩ := close_offset hi (Array.mem_toList_iff.1 hissue)
    obtain ⟨before, rest, ht, hs⟩ := Cursor.token_cut text j
    have hvalid : (⟨issue.offset⟩ : String.Pos.Raw).IsValid text :=
      String.Pos.Raw.isValid_iff_exists_append.2 ⟨before, rest, ht,
        String.Pos.Raw.ext (hj.trans hs)⟩
    exact ⟨⟨j, hj⟩, hvalid, hvalid.le_utf8ByteSize⟩
  · intro offset rest ho
    exact htrailing offset rest (Array.mem_toList_iff.1 ho)
  · intro hresult he
    exact result_ne_none (Array.toList_eq_nil_iff.1 he) hresult
  · intro m _ _ α b
    obtain ⟨node, hparse, hmade⟩ := parse_finish b text
    exact ⟨node, hparse, fun he => hmade (Array.toList_eq_nil_iff.1 he)⟩

/-- A parenthesis that is not closed, with nothing in it that begins an operand. -/
theorem parse_issues_inOrder_unclosed :
    (parse "( ! é").result = none ∧ (parse "( ! é").issues ≠ #[] ∧
      (parse "( ! é").issues.toList.map Diagnostic.offset = [2, 2, 2, 4, 4] ∧
      .trailingInput 4 "é" ∈ (parse "( ! é").issues ∧ (⟨4⟩ : String.Pos.Raw).IsValid "( ! é" ∧
      ∃ before, "( ! é" = before ++ "é" ∧ 4 = before.utf8ByteSize := by
  have hresult : (parse "( ! é").result = none := by decide +kernel
  have hlast : .trailingInput 4 "é" ∈ (parse "( ! é").issues := by decide +kernel
  obtain ⟨-, hstarts, -, htrailing, hsome, -⟩ := parse_issues_inOrder "( ! é"
  obtain ⟨-, hvalid, -⟩ := hstarts _ (Array.mem_toList_iff.2 hlast)
  refine ⟨hresult, ?_, by decide +kernel, hlast, hvalid,
    htrailing 4 "é" (Array.mem_toList_iff.2 hlast)⟩
  intro he
  exact hsome hresult (Array.toList_eq_nil_iff.2 he)

end Expr

end YangConstraint
