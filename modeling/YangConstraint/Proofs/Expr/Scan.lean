import YangConstraint.Proofs.Expr.Derivation

/-!
What the scanner looks ahead for is the next token: a parenthesis that makes a name callable, or the
mark that makes it an axis.
-/
namespace YangConstraint

namespace Lexeme

variable {prior : TokenKind} {c : Char} {cs : List Char} {n : String} {rest : List Char}

/-- What is read at a character, by the part of the scanner that reads it. -/
inductive Reads (prior : TokenKind) (c : Char) (cs : List Char) : Symbol × Nat → Prop where
  | name (hd : c.isDigit = false) (hs : isNameStart c = true) : Reads prior c cs (named prior c cs)
  | number (h : c.isDigit = true ∨ c = '.' ∧ cs.head?.any Char.isDigit = true) :
    Reads prior c cs (.number, numeral (c :: cs) - 1)
  | quoted (h : c = '"' ∨ c = '\'') : Reads prior c cs (quoted c cs)
  | opening (h : c = '(') : Reads prior c cs (.mark .leftParen, 0)
  | mark {m : Mark} {size : Nat} (hc : c ≠ '(') (hm : m ≠ .leftParen) :
    Reads prior c cs (.mark m, size)
  | operator {op : BinaryOp} {size : Nat} (hc : c ≠ '(') : Reads prior c cs (.operator op, size)
  | unknown (hc : c ≠ '(') : Reads prior c cs (.unknown, 0)

theorem read_reads (prior : TokenKind) (c : Char) (cs : List Char) :
    Reads prior c cs (read prior c cs) := by
  rw [read.eq_def]
  split
  case h_1 => exact .opening rfl
  case h_19 =>
    split
    · exact .mark (by decide) (by decide)
    · split
      · rename_i hd
        exact .number (.inr ⟨rfl, hd⟩)
      · exact .mark (by decide) (by decide)
  case h_20 => exact .quoted (.inl rfl)
  case h_21 => exact .quoted (.inr rfl)
  case h_22 =>
    split
    · rename_i hd
      exact .number (.inl hd)
    · split
      · rename_i hd hs
        exact .name (by simpa using hd) hs
      · exact .unknown (by assumption)
  all_goals first
    | exact .mark (by decide) (by decide)
    | exact .operator (by decide)
    | split <;> first
      | exact .mark (by decide) (by decide)
      | exact .operator (by decide)
      | exact .unknown (by decide)

theorem word_cases (prior : TokenKind) (n : String) (rest : List Char) :
    (∃ op, word prior n rest = .operator op) ∨
      (∃ axis, word prior n rest = .axis axis ∧ Axis.ofName? n = some axis) ∨
        word prior n rest = .name none n (opensCall rest) := by
  rw [word]
  split
  · exact .inl ⟨_, rfl⟩
  · split
    · rename_i axis h
      exact .inr (.inl ⟨axis, rfl, (Option.filter_eq_some_iff.1 h).1⟩)
    · exact .inr (.inr rfl)

theorem isNameStart_ne {d : Char} (h : isNameStart c = true) (hd : isNameStart d = false) :
    c ≠ d := by
  rintro rfl
  rw [h] at hd
  cases hd

/-- The name behind a qualifier, which is a star alone. -/
theorem local?_cases {label : List Char} (h : local? cs = some label) :
    ∃ rest, cs = ':' :: rest ∧ (label = ['*'] ∧ rest.head? = some '*' ∨
      ∃ c ds, label = c :: ds.take (nameChars ds) ∧ isNameStart c = true ∧ rest = c :: ds) := by
  rw [local?.eq_def] at h
  split at h
  · split at h
    · rename_i c ds hs
      cases h
      exact ⟨_, rfl, .inr ⟨c, ds, rfl, hs, rfl⟩⟩
    · split at h
      · rename_i hc
        cases h
        exact ⟨_, rfl, .inl ⟨rfl, by rw [hc]; rfl⟩⟩
      · cases h
  · cases h

/-- A name is callable unless it is a wildcard or something else than a parenthesis follows. -/
theorem named_name {qualifier : Option String} {label : String} {callable : Bool} {size : Nat}
    (hs : isNameStart c = true)
    (h : named prior c cs = (.name qualifier label callable, size)) :
    callable = true ↔ label ≠ "*" ∧ opensCall (cs.drop size) = true := by
  rw [named] at h
  dsimp only at h
  split at h
  · rename_i name hl
    simp only [Prod.mk.injEq, Symbol.name.injEq] at h
    obtain ⟨⟨-, rfl, rfl⟩, rfl⟩ := h
    rw [Bool.and_eq_true, decide_eq_true_eq, ne_eq, ne_eq, ← String.toList_inj]
    simp
  · rw [Prod.mk.injEq] at h
    obtain ⟨hw, rfl⟩ := h
    rcases word_cases prior (String.ofList (c :: cs.take (nameChars cs)))
        (cs.drop (nameChars cs)) with
      ⟨op, ho⟩ | ⟨axis, ha, -⟩ | hn
    · rw [ho] at hw
      cases hw
    · rw [ha] at hw
      cases hw
    · rw [hn, Symbol.name.injEq] at hw
      obtain ⟨-, rfl, rfl⟩ := hw
      have hc : c ≠ '*' := isNameStart_ne hs (by decide)
      have hw : String.ofList (c :: cs.take (nameChars cs)) ≠ "*" := by
        rw [ne_eq, ← String.toList_inj]
        simp [hc]
      exact (and_iff_right hw).symm

theorem named_cases (prior : TokenKind) (c : Char) (cs : List Char) :
    (∃ op, (named prior c cs).1 = .operator op) ∨
      (∃ axis, (named prior c cs).1 = .axis axis ∧ axis ≠ .root) ∨
        ∃ qualifier label callable, (named prior c cs).1 = .name qualifier label callable := by
  rw [named]
  dsimp only
  split
  · exact .inr (.inr ⟨_, _, _, rfl⟩)
  · rcases word_cases prior (String.ofList (c :: cs.take (nameChars cs)))
        (cs.drop (nameChars cs)) with
      ho | ⟨axis, ha, hn⟩ | hn
    · exact .inl ho
    · exact .inr (.inl ⟨axis, ha, (Axis.name_of_ofName? hn).2⟩)
    · exact .inr (.inr ⟨_, _, _, hn⟩)

theorem read_kind : (read prior c cs).1.kind ≠ .eof := by
  have hr := read_reads prior c cs
  generalize read prior c cs = lexeme at *
  cases hr with
  | name =>
    rcases named_cases prior c cs with ⟨op, h⟩ | ⟨axis, h, -⟩ | ⟨qualifier, label, callable, h⟩ <;>
      simp [h, Symbol.kind]
  | _ => simp [Symbol.kind, Lexeme.quoted]

theorem read_leftParen_iff : (read prior c cs).1 = .mark .leftParen ↔ c = '(' := by
  constructor
  · intro h
    have hr := read_reads prior c cs
    generalize read prior c cs = lexeme at *
    cases hr with
    | name =>
      rcases named_cases prior c cs with ⟨op, hs⟩ | ⟨axis, hs, -⟩ |
        ⟨qualifier, label, callable, hs⟩ <;>
        simp [h] at hs
    | opening hc => exact hc
    | mark hc hm =>
      cases h
      contradiction
    | _ => cases h
  · rintro rfl
    rfl

theorem read_colonColon_iff :
    (read prior c cs).1 = .mark .colonColon ↔ c = ':' ∧ cs.head? = some ':' := by
  constructor
  · intro h
    rw [read.eq_def] at h
    split at h
    case h_18 =>
      split at h
      · exact ⟨rfl, by assumption⟩
      · cases h
    case h_22 =>
      split at h
      · cases h
      · split at h
        · rcases named_cases prior c cs with ⟨op, hs⟩ | ⟨axis, hs, -⟩ |
            ⟨qualifier, label, callable, hs⟩ <;>
            simp [h] at hs
        · cases h
    all_goals first
      | cases h
      | split at h <;> first
        | cases h
        | split at h <;> cases h
  · rintro ⟨rfl, hc⟩
    rw [read, if_pos hc]

theorem read_name {qualifier : Option String} {label : String} {callable : Bool}
    (h : (read prior c cs).1 = .name qualifier label callable) :
    isNameStart c = true ∧ c.isDigit = false ∧ read prior c cs = named prior c cs := by
  have hr := read_reads prior c cs
  generalize read prior c cs = lexeme at *
  cases hr with
  | name hd hs => exact ⟨hs, hd, rfl⟩
  | _ => cases h

end Lexeme

namespace Token

open Lexeme

theorem scanFrom_space {prior : TokenKind} {start : Nat} {cs : List Char} :
    scanFrom prior start (' ' :: cs) = scanFrom prior (start + 1) cs := by
  rw [scanFrom, if_pos rfl]

theorem scanFrom_lexeme {prior : TokenKind} {start : Nat} {c : Char} {cs : List Char}
    (hc : c ≠ ' ') :
    scanFrom prior start (c :: cs) =
      ⟨(read prior c cs).1, start, String.ofList (c :: cs.take (read prior c cs).2)⟩ ::
        scanFrom (read prior c cs).1.kind
          (start + Text.byteSize (c :: cs.take (read prior c cs).2))
            (cs.drop (read prior c cs).2) := by
  rw [scanFrom, if_neg hc]

/-- The next token is an opening parenthesis where one comes next in the text. -/
theorem opensCall_iff (prior : TokenKind) (start : Nat) (cs : List Char) :
    opensCall cs = true ↔ ∃ next, (scanFrom prior start cs).head? = some next ∧
      next.symbol = .mark .leftParen := by
  induction cs generalizing start with
  | nil => simp [scanFrom, opensCall, skipSpaces]
  | cons c cs ih =>
    by_cases hc : c = ' '
    · subst hc
      rw [scanFrom_space, ← ih (start + 1)]
      rfl
    · rw [scanFrom_lexeme hc]
      simp [opensCall, skipSpaces, hc, read_leftParen_iff]

/-- The next token is `::` where that comes next in the text. -/
theorem opensAxis_iff (prior : TokenKind) (start : Nat) (cs : List Char) :
    opensAxis cs = true ↔ ∃ next, (scanFrom prior start cs).head? = some next ∧
      next.symbol = .mark .colonColon := by
  induction cs generalizing start with
  | nil => simp [scanFrom, opensAxis, skipSpaces]
  | cons c cs ih =>
    by_cases hc : c = ' '
    · subst hc
      rw [scanFrom_space, ← ih (start + 1)]
      rfl
    · have hopens : opensAxis (c :: cs) = true ↔ c = ':' ∧ cs.head? = some ':' := by
        rw [opensAxis, skipSpaces, List.dropWhile_cons_of_neg (by simpa using hc),
          List.isPrefixOf_iff_prefix, List.cons_prefix_cons, eq_comm]
        cases cs <;> simp [List.cons_prefix_cons, eq_comm]
      rw [scanFrom_lexeme hc, hopens]
      simp [read_colonColon_iff]

/-- The names in a text are marked by what follows them. -/
theorem lookahead_scanFrom (prior : TokenKind) (start : Nat) (cs : List Char) :
    Lookahead (scanFrom prior start cs) := by
  fun_induction scanFrom prior start cs with
  | case1 =>
    intro t rest h
    cases List.suffix_nil.1 h
  | case2 prior start cs ih => exact ih
  | case3 prior start c cs hc lexeme spelled ih =>
    intro t rest h qualifier label callable ht
    rcases List.suffix_cons_iff.1 h with h | h
    · cases h
      obtain ⟨hs, -, hr⟩ := read_name ht
      have hn : named prior c cs = (.name qualifier label callable, lexeme.2) := by
        rw [← hr, ← show lexeme.1 = _ from ht]
      rw [named_name hs hn, opensCall_iff]
    · exact ih t rest h qualifier label callable ht

theorem lookahead_scan (text : String) : Lookahead (scan text) :=
  lookahead_scanFrom .unknown 0 text.toList

end Token

end YangConstraint
