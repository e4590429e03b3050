import YangConstraint.Expr.Canonical
import YangConstraint.Proofs.Expr.Spelling

/-! What is spelled as a token is scanned as that token, where a character stands behind
it that ends it. -/
namespace YangConstraint

namespace Lexeme

/-- What may stand behind an operand in a canonical text. -/
inductive Ends : List Char → Prop where
  | none : Ends []
  | mark {c : Char} (h : c ∈ [')', ']', '[', '/', ',']) (rest : List Char) : Ends (c :: rest)
  | operator (op : BinaryOp) (rest : List Char) : Ends (' ' :: (op.symbol.toList ++ ' ' :: rest))

variable {rest : List Char}

theorem Ends.stops (h : Ends rest) : Stops rest := by
  intro c hc
  cases h with
  | none => cases hc
  | mark h =>
    obtain rfl : _ = c := by simpa using hc
    exact List.mem_append_left [' ', '('] h
  | operator =>
    obtain rfl : _ = c := by simpa using hc
    decide

theorem Stops.local? (h : Stops rest) : local? rest = none := by
  rw [local?.eq_def]
  split
  · simpa [stops] using h ':' rfl
  · rfl

theorem Ends.opensAxis (h : Ends rest) : opensAxis rest = false := by
  cases h with
  | none => rfl
  | mark h =>
    simp only [List.mem_cons, List.not_mem_nil, or_false] at h
    rcases h with rfl | rfl | rfl | rfl | rfl <;> rfl
  | operator op => cases op <;> rfl

theorem local?_label {label : String} (h : IsLabel label ∨ label = "*")
    (hr : ∀ d ∈ rest.head?, isNameChar d = false) :
    local? (':' :: (label.toList ++ rest)) = some label.toList := by
  rcases h with ⟨d, ds, hl, hs, hds⟩ | rfl
  · have hname : nameChars (ds ++ rest) = ds.length := by rw [nameChars, takeWhile_all hds hr]
    rw [hl, List.cons_append, local?, if_pos hs, hname, List.take_left]
  · rfl

theorem IsWord.head_ne {word : String} {c : Char} (h : IsWord word) (hc : isNameStart c = false)
    (rest : List Char) : (word.toList ++ rest).head? ≠ some c := by
  obtain ⟨first, cs, hcs, -, hs, -⟩ := h
  rw [hcs, List.cons_append, List.head?_cons]
  intro he
  exact isNameStart_ne hs hc (Option.some.inj he)

theorem isWord_name {axis : Axis} (h : axis ≠ .root) : IsWord axis.name := by
  cases axis with
  | root => exact absurd rfl h
  | _ => exact isWord_of rfl (by decide)

theorem isWord_keyword {type : NodeType} {keyword : String} (h : type.keyword? = some keyword) :
    IsWord keyword := by
  cases type with
  | element | «attribute» | nameSpace => cases h
  | _ =>
    cases h
    exact isWord_of rfl (by decide)

theorem wordOperator?_name {axis : Axis} : wordOperator? axis.name = none := by
  cases axis <;> rfl

end Lexeme

namespace Token

open Lexeme

/-- Behind a token of the kind `prior`, the text up to `rest` is scanned into tokens that satisfy
`P` and have nothing wrong with them, and `rest` as behind a token of the kind `last`. -/
def Scans (prior : TokenKind) (cs : List Char) (last : TokenKind) (rest : List Char)
    (P : List Token → Prop) : Prop :=
  ∀ start, ∃ w finish, scanFrom prior start cs = w ++ scanFrom last finish rest ∧
    (∀ t ∈ w, t.issue? = none) ∧ P w

/-- A token of the symbol alone. -/
def Single (s : Symbol) (w : List Token) : Prop := ∃ t, w = [t] ∧ t.symbol = s

variable {prior last kind : TokenKind} {more rest : List Char} {P Q : List Token → Prop}
  {s : Symbol} {c : Char} {cs : List Char} {n : String}

theorem Scans.imp (h : Scans prior cs last rest P) (hpq : ∀ w, P w → Q w) :
    Scans prior cs last rest Q := by
  intro start
  obtain ⟨w, finish, hw, hc, hp⟩ := h start
  exact ⟨w, finish, hw, hc, hpq w hp⟩

theorem Scans.trans (h : Scans prior cs kind more P) (h' : Scans kind more last rest Q) :
    Scans prior cs last rest fun w => ∃ u v, w = u ++ v ∧ P u ∧ Q v := by
  intro start
  obtain ⟨u, middle, hu, hcu, hp⟩ := h start
  obtain ⟨v, finish, hv, hcv, hq⟩ := h' middle
  refine ⟨u ++ v, finish, ?_, ?_, u, v, rfl, hp, hq⟩
  · rw [hu, hv, List.append_assoc]
  · intro t ht
    exact (List.mem_append.1 ht).elim (hcu t) (hcv t)

/-- The tokens of a text that is scanned to its end. -/
theorem Scans.scan {text : String} (h : Scans .unknown text.toList last [] P) :
    (∀ t ∈ Token.scan text, t.issue? = none) ∧ P (Token.scan text) := by
  obtain ⟨w, finish, hw, hc, hp⟩ := h 0
  have hscan : Token.scan text = w := by rw [Token.scan, hw, scanFrom, List.append_nil]
  rw [hscan]
  exact ⟨hc, hp⟩

theorem Scans.space (h : Scans prior cs last rest P) : Scans prior (' ' :: cs) last rest P := by
  intro start
  rw [scanFrom_space]
  exact h (start + 1)

theorem scans_read (s : Symbol) (hc : c ≠ ' ') (h : read prior c (cs ++ rest) = (s, cs.length))
    (hs : ∀ start text, (Token.mk s start text).issue? = none) :
    Scans prior (c :: (cs ++ rest)) s.kind rest fun w =>
      ∃ t, w = [t] ∧ t.symbol = s ∧ t.text = .ofList (c :: cs) := by
  intro start
  rw [scanFrom_lexeme hc, h, List.take_left, List.drop_left]
  refine ⟨[_], _, rfl, ?_, _, rfl, rfl, rfl⟩
  intro t ht
  rw [List.mem_singleton.1 ht]
  exact hs ..

theorem scans_symbol (s : Symbol) (hc : c ≠ ' ') (h : read prior c (cs ++ rest) = (s, cs.length))
    (hs : ∀ start text, (Token.mk s start text).issue? = none) :
    Scans prior (c :: (cs ++ rest)) s.kind rest (Single s) := by
  refine (scans_read s hc h hs).imp ?_
  rintro w ⟨t, hw, ht, -⟩
  exact ⟨t, hw, ht⟩

theorem scans_char (s : Symbol) (hc : c ≠ ' ') (h : read prior c rest = (s, 0))
    (hs : ∀ start text, (Token.mk s start text).issue? = none) :
    Scans prior (c :: rest) s.kind rest (Single s) := @scans_symbol prior rest c [] s hc h hs

theorem scans_word (h : IsWord n) (hr : ∀ d ∈ rest.head?, isNameChar d = false)
    (hl : local? rest = none) :
    Scans prior (n.toList ++ rest) (word prior n rest).kind rest (Single (word prior n rest)) := by
  obtain ⟨c, cs, hn, hd, hs, hcs⟩ := h
  rw [hn]
  have hname : nameChars (cs ++ rest) = cs.length := by rw [nameChars, takeWhile_all hcs hr]
  have hof : String.ofList (c :: cs) = n := by rw [← hn, String.ofList_toList]
  refine scans_symbol _ (isNameStart_ne hs (by decide)) ?_ ?_
  · rw [read_eq_named hd hs, named, hname]
    simp only [List.drop_left, hl, List.take_left, hof]
  · intro start text
    rcases word_cases prior n rest with ⟨op, h⟩ | ⟨axis, h, -⟩ | h <;> rw [h] <;> rfl

/-- A name is read as one where it is no operator and where no axis comes. -/
theorem scans_name {qualifier : Option String} {label : String} (h : IsName qualifier label)
    (hp : prior.endsOperand = false) (hr : Stops rest) (ha : opensAxis rest = false) :
    Scans prior ((qualify qualifier label).toList ++ rest) .name rest fun w =>
      ∃ t callable, w = [t] ∧ t.symbol = .name qualifier label callable := by
  have hname : ∀ d ∈ rest.head?, isNameChar d = false := hr.false_of (by decide)
  cases qualifier with
  | none =>
    have hw : word prior label rest = .name none label (opensCall rest) := by
      simp [word, hp, ha]
    have hs : Scans prior (label.toList ++ rest) _ rest _ := scans_word h hname hr.local?
    rw [hw] at hs
    refine hs.imp ?_
    rintro w ⟨t, hw, ht⟩
    exact ⟨t, _, hw, ht⟩
  | some qualifier =>
    obtain ⟨⟨c, cs, hq, hd, hs, hcs⟩, hlabel⟩ := h
    have htext : (qualify (some qualifier) label).toList = c :: (cs ++ ':' :: label.toList) := by
      simp [qualify, hq]
    have hof : String.ofList (c :: cs) = qualifier := by rw [← hq, String.ofList_toList]
    have hchars : nameChars (cs ++ ':' :: (label.toList ++ rest)) = cs.length := by
      rw [nameChars, takeWhile_all hcs (by simp; decide)]
    have hread : read prior c (cs ++ ':' :: label.toList ++ rest) =
        (.name (some qualifier) label (label.toList ≠ ['*'] && opensCall rest),
          (cs ++ ':' :: label.toList).length) := by
      have hlen : cs.length + 1 + label.toList.length = (cs ++ ':' :: label.toList).length := by
        simp
        omega
      rw [read_eq_named hd hs, named, List.append_assoc, List.cons_append, hchars]
      simp only [List.drop_left, List.take_left, local?_label hlabel hname, hof,
        String.ofList_toList, hlen]
      rw [← List.cons_append, ← List.append_assoc, List.drop_left]
    rw [htext]
    refine (scans_symbol (.name ..) (isNameStart_ne hs (by decide)) hread fun _ _ => rfl).imp ?_
    rintro w ⟨t, hw, ht⟩
    exact ⟨t, _, hw, ht⟩

theorem scans_axis {axis : Axis} (h : axis ≠ .root) :
    Scans prior (axis.name.toList ++ ':' :: ':' :: rest) .axis (':' :: ':' :: rest)
      (Single (.axis axis)) := by
  have hw : word prior axis.name (':' :: ':' :: rest) = .axis axis := by
    have ha : opensAxis (':' :: ':' :: rest) = true := rfl
    simp only [word, Axis.ofName?_name h, wordOperator?_name, ha, Option.filter]
    rfl
  have hs : Scans prior (axis.name.toList ++ ':' :: ':' :: rest) _ (':' :: ':' :: rest) _ :=
    scans_word (isWord_name h) (by simp; decide) rfl
  rwa [hw] at hs

theorem scans_number {text : List Char} (h : IsNumeral text) (hr : Stops rest) :
    Scans prior (text ++ rest) .number rest fun w => ∃ t, w = [t] ∧ t.symbol = .number ∧
      t.text = .ofList text := by
  have hn := numeral_append h hr
  obtain ⟨-, c, cs, rfl, hc⟩ := h
  have hne : c ≠ ' ' := by
    rintro rfl
    simp at hc
  refine scans_read .number hne ?_ fun _ _ => rfl
  rw [List.cons_append] at hn
  rw [read_eq_number, hn]
  · rfl
  · rcases hc with hc | ⟨rfl, hc⟩
    · exact .inl hc
    · cases cs <;> simp at hc ⊢
      exact hc

theorem scans_string {value : String} (h : '\'' ∈ value.toList → '"' ∉ value.toList) :
    Scans prior ((quoteLiteral value).toList ++ rest) .string rest
      (Single (.string value true)) := by
  have hread : ∀ {q : Char}, q ∉ value.toList →
      quoted q (value.toList ++ [q] ++ rest) = (.string value true,
        (value.toList ++ [q]).length) := by
    intro q hq
    have htake : (value.toList ++ [q] ++ rest).takeWhile (· ≠ q) = value.toList := by
      rw [List.append_assoc, takeWhile_all]
      · intro c hc
        simpa using fun he : c = q => hq (he ▸ hc)
      · simp
    rw [quoted, htake]
    simp
  rw [quoteLiteral]
  split
  · rename_i hq
    have htext : ("\"" ++ value ++ "\"").toList = '"' :: (value.toList ++ ['"']) := by simp
    rw [htext]
    exact scans_symbol (.string value true) (by decide) (hread (h hq)) fun _ _ => rfl
  · rename_i hq
    have htext : ("'" ++ value ++ "'").toList = '\'' :: (value.toList ++ ['\'']) := by simp
    rw [htext]
    exact scans_symbol (.string value true) (by decide) (hread hq) fun _ _ => rfl

theorem scans_mark {m : Mark}
    (h : (c, m) ∈ [('(', Mark.leftParen), (')', .rightParen), ('[', .leftBracket),
      (']', .rightBracket), (',', .comma), ('$', .dollar)]) :
    Scans prior (c :: rest) (.mark m) rest (Single (.mark m)) := by
  simp only [List.mem_cons, Prod.mk.injEq, List.not_mem_nil, or_false] at h
  rcases h with ⟨rfl, rfl⟩ | ⟨rfl, rfl⟩ | ⟨rfl, rfl⟩ | ⟨rfl, rfl⟩ | ⟨rfl, rfl⟩ | ⟨rfl, rfl⟩ <;>
    exact scans_char (.mark _) (by decide) rfl fun _ _ => rfl

theorem scans_colonColon :
    Scans prior (':' :: ':' :: rest) (.mark .colonColon) rest (Single (.mark .colonColon)) :=
  @scans_symbol prior rest ':' [':'] (.mark .colonColon) (by decide) rfl fun _ _ => rfl

theorem scans_star (h : prior.endsOperand = false) :
    Scans prior ('*' :: rest) (.mark .star) rest (Single (.mark .star)) := by
  have hread : read prior '*' rest = (.mark .star, 0) := by simp [Lexeme.read, h]
  exact scans_char (.mark .star) (by decide) hread fun _ _ => rfl

theorem scans_slash (h : rest.head? ≠ some '/') :
    Scans prior ('/' :: rest) (.mark .slash) rest (Single (.mark .slash)) := by
  have hread : read prior '/' rest = (.mark .slash, 0) := by simp [Lexeme.read, h]
  exact scans_char (.mark .slash) (by decide) hread fun _ _ => rfl

theorem scans_minus :
    Scans prior ('-' :: rest) (.operator .minus) rest (Single (.operator .minus)) :=
  scans_char (.operator .minus) (by decide) rfl fun _ _ => rfl

/-- An operator between spaces is read as one behind an operand. -/
theorem scans_operator {op : BinaryOp}
    (h : prior.endsOperand = true ∨ op ∉ [BinaryOp.or, .and, .times, .div, .mod]) :
    Scans prior (op.symbol.toList ++ ' ' :: rest) (.operator op) (' ' :: rest)
      (Single (.operator op)) := by
  have hword : ∀ {n : String} {op : BinaryOp}, IsWord n → wordOperator? n = some op →
      prior.endsOperand = true →
        Scans prior (n.toList ++ ' ' :: rest) (.operator op) (' ' :: rest)
          (Single (.operator op)) := by
    intro n op hn ho hp
    have hw : word prior n (' ' :: rest) = .operator op := by
      simp only [word, ho, hp, Option.filter]
      rfl
    have hs : Scans prior (n.toList ++ ' ' :: rest) _ (' ' :: rest) _ :=
      scans_word hn (by simp; decide) rfl
    rwa [hw] at hs
  cases op with
  | or | and | div | mod =>
    have hp : prior.endsOperand = true := h.resolve_right (by decide)
    exact hword (isWord_of rfl (by decide)) rfl hp
  | times =>
    have hp : prior.endsOperand = true := h.resolve_right (by decide)
    have hread : read prior '*' (' ' :: rest) = (.operator .times, 0) := by simp [Lexeme.read, hp]
    exact scans_char (.operator .times) (by decide) hread fun _ _ => rfl
  | ne | le | ge => exact @scans_symbol prior _ _ ['='] (.operator _) (by decide) rfl fun _ _ => rfl
  | _ => exact scans_char (.operator _) (by decide) rfl fun _ _ => rfl

end Token

end YangConstraint
