import YangConstraint.Proofs.Expr.Extent
import YangConstraint.Proofs.Expr.Layout
import YangConstraint.Proofs.Expr.Placeless

/-!
Spaces between tokens. More of them do not change how a text is scanned, because behind a lexeme the
scanner looks for the next token or for a character that a space is not; and so they do not change
how it is parsed.
-/
namespace YangConstraint

namespace Token

/-- Whether the token is a literal without its second quote, which only the end of the text ends. -/
def isOpen (token : Token) : Bool :=
  match token.symbol with
  | .string _ closed => !closed
  | _ => false

/-- The second text is the first one, of which these are the tokens, with more spaces before,
between and behind them. Behind an open literal there is no place for spaces. -/
inductive Spaced : List Token → List Char → List Char → Prop where
  | done : Spaced [] [] []
  | kept {ts : List Token} {cs ds : List Char} (h : Spaced ts cs ds) :
    Spaced ts (' ' :: cs) (' ' :: ds)
  | added {ts : List Token} {cs ds : List Char} (h : Spaced ts cs ds) : Spaced ts cs (' ' :: ds)
  | token {t : Token} {ts : List Token} {cs ds : List Char} (ho : t.isOpen = true → ds = [])
    (h : Spaced ts cs ds) : Spaced (t :: ts) (t.text.toList ++ cs) (t.text.toList ++ ds)

open Lexeme

variable {prior prior' : TokenKind} {start start' : Nat} {cs ds : List Char} {ts us : List Token}
  {t : Token} {s : Symbol}

theorem isOpen_iff : t.isOpen = true ↔ ∃ value, t.symbol = .string value false := by
  rw [isOpen]
  cases t.symbol <;> simp

theorem Spaced.gapped (h : Spaced ts cs ds) : Gapped cs ds := by
  induction h with
  | done => exact .nil _
  | kept => exact .gap _ _ (.inl rfl)
  | added => exact .gap _ _ (.inl rfl)
  | token ho h ih => exact ih.append _

theorem scanFrom_head (h : t ∈ scanFrom prior start cs) :
    ∃ c w, t.text.toList = c :: w ∧ c ≠ ' ' := by
  fun_induction scanFrom prior start cs with
  | case1 => cases h
  | case2 prior start cs ih => exact ih h
  | case3 prior start c cs hc lexeme spelled ih =>
    rcases List.mem_cons.1 h with rfl | h
    · exact ⟨c, _, String.toList_ofList, hc⟩
    · exact ih h

/-- The first token of a text that begins with it is the lexeme read there, and the others are
scanned behind it. -/
theorem scanFrom_cons (h : scanFrom prior start (t.text.toList ++ cs) = t :: ts) :
    ∃ c w, t.text.toList = c :: w ∧ c ≠ ' ' ∧ read prior c (w ++ cs) = (t.symbol, w.length) ∧
      scanFrom t.kind t.stop cs = ts := by
  have hmem : t ∈ scanFrom prior start (t.text.toList ++ cs) := by
    rw [h]
    exact List.mem_cons_self
  obtain ⟨c, w, htext, hc⟩ := scanFrom_head hmem
  rw [htext, List.cons_append, scanFrom_lexeme hc] at h
  obtain ⟨rfl, hrest⟩ := List.cons.inj h
  rw [String.toList_ofList] at htext
  have hw : (w ++ cs).take (read prior c (w ++ cs)).2 = w := (List.cons.inj htext).2
  have hn : (read prior c (w ++ cs)).2 = w.length := by
    rw [← List.length_take_of_le read_le, hw]
  refine ⟨c, w, ?_, hc, Prod.ext rfl hn, ?_⟩
  · rw [String.toList_ofList, hw]
  · rw [← hrest, hn, List.drop_left, stop, Text.utf8ByteSize_ofList]
    rfl

theorem next_unplaced : (∃ next, ts.head? = some next ∧ next.symbol = s) ↔
    ((ts.map unplaced).head?.map Token.symbol) = some s := by
  cases ts <;> simp [unplaced]

theorem opensCall_congr
    (h : (scanFrom prior' start' ds).map unplaced = (scanFrom prior start cs).map unplaced) :
    opensCall ds = opensCall cs := by
  rw [Bool.eq_iff_iff, opensCall_iff prior' start', opensCall_iff prior start, next_unplaced,
    next_unplaced, h]

theorem opensAxis_congr
    (h : (scanFrom prior' start' ds).map unplaced = (scanFrom prior start cs).map unplaced) :
    opensAxis ds = opensAxis cs := by
  rw [Bool.eq_iff_iff, opensAxis_iff prior' start', opensAxis_iff prior start, next_unplaced,
    next_unplaced, h]

/-- More spaces leave the tokens as they are, apart from their places. -/
theorem scanFrom_spaced (h : Spaced ts cs ds) (hts : scanFrom prior start cs = ts)
    (hp : prior'.endsOperand = prior.endsOperand) (start' : Nat) :
    (scanFrom prior' start' ds).map unplaced = ts.map unplaced := by
  induction h generalizing prior prior' start start' with
  | done =>
    rw [scanFrom]
  | kept h ih =>
    rw [scanFrom_space] at hts ⊢
    exact ih hts hp _
  | added h ih =>
    rw [scanFrom_space]
    exact ih hts hp _
  | @token t ts cs ds ho h ih =>
    obtain ⟨c, w, htext, hc, hread, hrest⟩ := scanFrom_cons hts
    have htail := ih hrest rfl
    have hsame :
        (scanFrom t.kind 0 ds).map unplaced = (scanFrom t.kind t.stop cs).map unplaced := by
      rw [htail, hrest]
    have hopen : ∀ value, (read prior c (w ++ cs)).1 = .string value false → ds = [] := by
      intro value hv
      rw [hread] at hv
      exact ho (isOpen_iff.2 ⟨value, hv⟩)
    have hread' : read prior' c (w ++ ds) = (t.symbol, w.length) := by
      rw [read_gapped hp h.gapped (opensCall_congr hsame) (opensAxis_congr hsame)
        (by rw [hread]) hopen, hread]
    have hfirst : unplaced ⟨t.symbol, start', String.ofList (c :: w)⟩ = t.unplaced := by
      rw [← htext, String.ofList_toList]
      rfl
    rw [htext, List.cons_append, scanFrom_lexeme hc, hread', List.take_left, List.drop_left,
      List.map_cons, List.map_cons, hfirst]
    exact congrArg _ (htail _)

end Token

open Token

theorem Cursor.token_unplaced (text : String) (i : Nat) :
    (Cursor.token text i).unplaced = (((scan text).map unplaced)[i]?).getD (.eof 0) := by
  rw [Cursor.token_eq, List.getElem?_map]
  cases (scan text)[i]? <;> rfl

/-- Spaces between tokens make no difference. With more of them a text has the same
tokens, and it is parsed to the same tree with the same issues, through whatever builder;
only the places are others. -/
theorem parse_spaced {text wide : String} (h : Spaced (scan text) text.toList wide.toList) :
    (scan wide).length = (scan text).length ∧
    (∀ i, let t := Cursor.token text i
      let u := Cursor.token wide i
      u.kind = t.kind ∧ u.text = t.text ∧ u.name? = t.name? ∧ u.qualifier? = t.qualifier? ∧
        u.literal? = t.literal? ∧ u.axis? = t.axis? ∧ u.isCallable = t.isCallable) ∧
    (Expr.parse wide).result = (Expr.parse text).result ∧
    (Expr.parse wide).issues.map Diagnostic.unplaced =
      (Expr.parse text).issues.map Diagnostic.unplaced ∧
    ∀ (m : Type → Type) [Monad m] [LawfulMonad m] (α : Type) (b : Builder m α),
      Parsed.unplaced <$> b.parse wide = Parsed.unplaced <$> b.parse text := by
  have hscan : (scan wide).map unplaced = (scan text).map unplaced := scanFrom_spaced h rfl rfl 0
  have hparse : Parsed.unplaced (Expr.parse wide) = Parsed.unplaced (Expr.parse text) :=
    Expr.builder.parse_congr hscan
  refine ⟨?_, fun i => ?_, (congrArg Parsed.result hparse :),
    (congrArg Parsed.issues hparse :), ?_⟩
  · rw [← List.length_map unplaced, hscan, List.length_map]
  · intro t u
    have hu : u.unplaced = t.unplaced := by
      rw [Cursor.token_unplaced, Cursor.token_unplaced, hscan]
    have hsymbol : u.symbol = t.symbol := (congrArg symbol hu :)
    have htext : u.text = t.text := (congrArg Token.text hu :)
    simp only [kind, name?, qualifier?, literal?, axis?, isCallable, hsymbol, htext, and_self]
  · intro m _ _ α b
    exact b.parse_congr hscan

/-- A call and an axis whose marks move away, a colon that qualifies nothing, two numbers in a row
and an open literal. -/
theorem parse_spaced_unfinished :
    let text := "f(child::a:,1..2)'x"
    let wide := " f (child  ::a : ,1. .2 )  'x"
    Spaced (scan text) text.toList wide.toList ∧ (scan wide).length = 11 ∧
      (Cursor.token wide 0).isCallable = true ∧ (Cursor.token wide 2).axis? = some .child ∧
      (Cursor.token wide 10).literal? = some "x" ∧
      (Expr.parse wide).result = some (.call none "f" [.axis .child .element none (some "a")]) ∧
      (Expr.parse wide).issues.map Diagnostic.unplaced = #[.unknownCharacter 0 ":",
        .unexpectedToken 0 (.mark .rightParen) .unknown ":", .trailingInput 0 ""] := by
  intro text wide
  have hscan : scan text =
      [⟨.name none "f" true, 0, "f"⟩, ⟨.mark .leftParen, 1, "("⟩, ⟨.axis .child, 2, "child"⟩,
        ⟨.mark .colonColon, 7, "::"⟩, ⟨.name none "a" false, 9, "a"⟩, ⟨.unknown, 10, ":"⟩,
        ⟨.mark .comma, 11, ","⟩, ⟨.number, 12, "1."⟩, ⟨.number, 14, ".2"⟩,
        ⟨.mark .rightParen, 16, ")"⟩, ⟨.string "x" false, 17, "'x"⟩] := by
    decide +kernel
  have h : Spaced (scan text) text.toList wide.toList := by
    rw [hscan]
    show Spaced _ "f(child::a:,1..2)'x".toList " f (child  ::a : ,1. .2 )  'x".toList
    exact .added (.token nofun (.added (.token nofun (.token nofun (.added (.added
      (.token nofun (.token nofun (.added (.token nofun (.added (.token nofun (.token nofun
        (.added (.token nofun (.added (.token nofun (.added (.added
          (.token (fun _ => rfl) .done))))))))))))))))))))
  obtain ⟨hlength, htokens, hresult, hissues, -⟩ := parse_spaced h
  obtain ⟨-, -, -, -, -, -, hcallable⟩ := htokens 0
  obtain ⟨-, -, -, -, -, haxis, -⟩ := htokens 2
  obtain ⟨-, -, -, -, hliteral, -⟩ := htokens 10
  refine ⟨h, hlength.trans ?_, hcallable.trans ?_, haxis.trans ?_, hliteral.trans ?_,
    hresult.trans ?_, hissues.trans ?_⟩ <;> decide +kernel

end YangConstraint
