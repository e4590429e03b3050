import YangConstraint.Proofs.Expr.Scan

/-! How names, numbers and literals are spelled, and that each is read back where
a token may end. -/
namespace YangConstraint

namespace Lexeme

/-- What may stand behind a colon as the name that is qualified. -/
def IsLabel (label : String) : Prop :=
  ∃ c cs, label.toList = c :: cs ∧ isNameStart c = true ∧ ∀ d ∈ cs, isNameChar d = true

/-- What may stand alone as a name. -/
def IsWord (word : String) : Prop :=
  ∃ c cs, word.toList = c :: cs ∧ c.isDigit = false ∧ isNameStart c = true ∧
    ∀ d ∈ cs, isNameChar d = true

/-- Names with and without a qualifier. Only with a qualifier there is a wildcard. -/
def IsName (qualifier : Option String) (label : String) : Prop :=
  match qualifier with
  | some qualifier => IsWord qualifier ∧ (IsLabel label ∨ label = "*")
  | none => IsWord label

def AllDigits (cs : List Char) : Prop := ∀ c ∈ cs, c.isDigit = true

inductive IsFraction : List Char → Prop where
  | none : IsFraction []
  | some {ds : List Char} (h : AllDigits ds) : IsFraction ('.' :: ds)

inductive IsExponent : List Char → Prop where
  | none : IsExponent []
  | plain {c : Char} {ds : List Char} (hc : c = 'e' ∨ c = 'E') (h : AllDigits ds) :
    IsExponent (c :: ds)
  | signed {c sign : Char} {ds : List Char} (hc : c = 'e' ∨ c = 'E') (hs : sign = '+' ∨ sign = '-')
    (h : AllDigits ds) : IsExponent (c :: sign :: ds)

/-- Digits with a fraction and an exponent, which may be missing. The first character tells that it
is a number, if need be with the second one. -/
def IsNumeral (cs : List Char) : Prop :=
  (∃ ds f e, cs = ds ++ (f ++ e) ∧ AllDigits ds ∧ IsFraction f ∧ IsExponent e) ∧
    ∃ c rest, cs = c :: rest ∧ (c.isDigit = true ∨ c = '.' ∧ rest.head?.any Char.isDigit = true)

/-- The characters before which a token ends, whatever it is. -/
def stops : List Char := [')', ']', '[', '/', ',', ' ', '(']

/-- What comes next, if anything, is a character before which a token ends. -/
def Stops (rest : List Char) : Prop := ∀ c ∈ rest.head?, c ∈ stops

variable {p : Char → Bool} {c : Char} {cs ds rest : List Char} {prior : TokenKind}
  {n label : String}

theorem isWord_of {word : String} (hw : word.toList = c :: cs)
    (h : (!c.isDigit && isNameStart c && cs.all isNameChar) = true) : IsWord word := by
  simp only [Bool.and_eq_true, Bool.not_eq_true'] at h
  exact ⟨c, cs, hw, h.1.1, h.1.2, List.all_eq_true.1 h.2⟩

theorem takeWhile_all (h : ∀ c ∈ cs, p c = true) (hr : ∀ c ∈ rest.head?, p c = false) :
    (cs ++ rest).takeWhile p = cs := by
  rw [List.takeWhile_append_of_pos h]
  cases rest with
  | nil => simp
  | cons c rest => simp [hr c rfl]

theorem Stops.false_of (h : Stops rest) (hp : stops.any p = false) :
    ∀ c ∈ rest.head?, p c = false := by
  intro c hc
  exact Bool.eq_false_iff.2 (List.any_eq_false.1 hp c (h c hc))

theorem digits_append (h : AllDigits ds) (hr : ∀ c ∈ rest.head?, c.isDigit = false) :
    digits (ds ++ rest) = ds.length := by rw [digits, takeWhile_all h hr]

theorem allDigits_take (cs : List Char) : AllDigits (cs.take (digits cs)) := by
  intro c hc
  rw [digits, ← List.prefix_iff_eq_take.1 (List.takeWhile_prefix _)] at hc
  exact List.all_eq_true.1 List.all_takeWhile c hc

theorem isFraction_take (cs : List Char) : IsFraction (cs.take (fraction cs)) := by
  rw [fraction.eq_def]
  split
  · rw [Nat.add_comm]
    exact .some (allDigits_take _)
  · exact .none

theorem isExponent_take (cs : List Char) : IsExponent (cs.take (exponent cs)) := by
  have hplain : ∀ {c : Char} {ds : List Char}, c = 'e' ∨ c = 'E' →
      IsExponent ((c :: ds).take (1 + digits ds)) := by
    intro c ds hc
    rw [Nat.add_comm]
    exact .plain hc (allDigits_take ds)
  have hsigned : ∀ {c sign : Char} {ds : List Char}, c = 'e' ∨ c = 'E' → sign = '+' ∨ sign = '-' →
      IsExponent ((c :: sign :: ds).take (2 + digits ds)) := by
    intro c sign ds hc hs
    rw [Nat.add_comm]
    exact .signed hc hs (allDigits_take ds)
  rw [exponent.eq_def]
  split
  · split
    · exact hsigned (.inl rfl) (.inl rfl)
    · exact hsigned (.inl rfl) (.inr rfl)
    · exact hplain (.inl rfl)
  · split
    · exact hsigned (.inr rfl) (.inl rfl)
    · exact hsigned (.inr rfl) (.inr rfl)
    · exact hplain (.inr rfl)
  · exact .none

theorem fraction_append {f : List Char} (h : IsFraction f)
    (hr : ∀ c ∈ rest.head?, c.isDigit = false ∧ c ≠ '.') : fraction (f ++ rest) = f.length := by
  cases h with
  | some h =>
    simp only [List.cons_append, fraction, digits_append h fun c hc => (hr c hc).1,
      List.length_cons]
    omega
  | none =>
    cases rest with
    | nil => rfl
    | cons c rest =>
      have hc := (hr c rfl).2
      simp [fraction, hc]

theorem exponent_append {e : List Char} (h : IsExponent e) (hr : Stops rest) :
    exponent (e ++ rest) = e.length := by
  have hd : ∀ c ∈ rest.head?, c.isDigit = false := hr.false_of (by decide)
  cases h with
  | none =>
    cases rest with
    | nil => rfl
    | cons c rest =>
      have hc : c ∈ stops := hr c rfl
      rw [List.nil_append, exponent.eq_def]
      split
      · simp_all [stops]
      · simp_all [stops]
      · rfl
  | signed hc hs h =>
    have hlen := digits_append h hd
    rcases hc with rfl | rfl <;> rcases hs with rfl | rfl <;>
      simp only [List.cons_append, exponent, hlen, List.length_cons] <;> omega
  | @plain c ds hc h =>
    have hlen := digits_append h hd
    have hsign : ∀ sign tail, (sign = '+' ∨ sign = '-') → ds ++ rest ≠ sign :: tail := by
      rintro sign tail hs he
      have hmem : sign ∈ (ds ++ rest).head? := by rw [he]; rfl
      cases ds with
      | nil =>
        have := hr sign hmem
        rcases hs with rfl | rfl <;> simp [stops] at this
      | cons d ds =>
        obtain rfl : d = sign := by simpa using hmem
        have := h d (.head _)
        rcases hs with rfl | rfl <;> simp at this
    have he : exponent (c :: (ds ++ rest)) = 1 + digits (ds ++ rest) := by
      rcases hc with rfl | rfl <;> rw [exponent] <;> first
        | exact fun tail => hsign _ tail (.inl rfl)
        | exact fun tail => hsign _ tail (.inr rfl)
    rw [List.cons_append, he, hlen, List.length_cons]
    omega

/-- A number ends before whatever may follow it. -/
theorem numeral_append (h : IsNumeral cs) (hr : Stops rest) : numeral (cs ++ rest) = cs.length := by
  obtain ⟨⟨ds, f, e, rfl, hds, hf, he⟩, -⟩ := h
  have hexp : ∀ c ∈ (e ++ rest).head?, c.isDigit = false ∧ c ≠ '.' := by
    intro c hc
    cases he with
    | none => exact ⟨hr.false_of (by decide) c hc, fun h => by simpa [h, stops] using hr c hc⟩
    | plain h | signed h =>
      obtain rfl : _ = c := by simpa using hc
      rcases h with rfl | rfl <;> decide
  have hfrac : ∀ c ∈ (f ++ (e ++ rest)).head?, c.isDigit = false := by
    intro c hc
    cases hf with
    | none => exact (hexp c hc).1
    | some =>
      obtain rfl : _ = c := by simpa using hc
      decide
  have hwhole : digits (ds ++ (f ++ (e ++ rest))) = ds.length := digits_append hds hfrac
  have hdecimal : ds ++ (f ++ (e ++ rest)) = (ds ++ f) ++ (e ++ rest) := by simp
  rw [List.append_assoc, List.append_assoc, numeral]
  simp only [hwhole, List.drop_left', fraction_append hf hexp]
  rw [hdecimal, List.drop_left' (by simp), exponent_append he hr]
  simp only [List.length_append]
  omega

theorem le_numeral (cs : List Char) : digits cs + fraction (cs.drop (digits cs)) ≤ numeral cs := by
  rw [numeral]
  omega

theorem numeral_parts (cs : List Char) : ∃ ds f e, cs.take (numeral cs) = ds ++ (f ++ e) ∧
    AllDigits ds ∧ IsFraction f ∧ IsExponent e := by
  have hf := isFraction_take (cs.drop (digits cs))
  have he := isExponent_take (cs.drop (digits cs + fraction (cs.drop (digits cs))))
  refine ⟨_, _, _, ?_, allDigits_take cs, hf, he⟩
  rw [numeral, List.take_add, List.take_add, List.append_assoc]

/-- A number that is read is spelled as one. -/
theorem isNumeral_take (h : c.isDigit = true ∨ c = '.' ∧ cs.head?.any Char.isDigit = true) :
    IsNumeral ((c :: cs).take (numeral (c :: cs))) := by
  refine ⟨numeral_parts (c :: cs), ?_⟩
  have hle := le_numeral (c :: cs)
  rcases h with h | ⟨rfl, h⟩
  · obtain ⟨n, hn⟩ : ∃ n, numeral (c :: cs) = n + 1 := by
      have : digits (c :: cs) = digits cs + 1 := by simp [digits, h]
      exact ⟨numeral (c :: cs) - 1, by omega⟩
    rw [hn]
    exact ⟨c, _, rfl, .inl h⟩
  · obtain ⟨d, ds, rfl⟩ : ∃ d ds, cs = d :: ds := by cases cs <;> simp at h ⊢
    have hd : d.isDigit = true := by simpa using h
    obtain ⟨n, hn⟩ : ∃ n, numeral ('.' :: d :: ds) = n + 2 := by
      have hzero : digits ('.' :: d :: ds) = 0 := by simp [digits]
      have hone : digits (d :: ds) = digits ds + 1 := by simp [digits, hd]
      rw [hzero, List.drop_zero, fraction, hone] at hle
      exact ⟨numeral ('.' :: d :: ds) - 2, by omega⟩
    rw [hn]
    exact ⟨'.', _, rfl, .inr ⟨rfl, by simpa using hd⟩⟩

theorem isNameChar_take (cs : List Char) : ∀ d ∈ cs.take (nameChars cs), isNameChar d = true := by
  intro d hd
  rw [nameChars, ← List.prefix_iff_eq_take.1 (List.takeWhile_prefix _)] at hd
  exact List.all_eq_true.1 List.all_takeWhile d hd

theorem read_eq_named (hd : c.isDigit = false) (hs : isNameStart c = true) :
    read prior c cs = named prior c cs := by
  rw [read.eq_def]
  split
  case h_22 => rw [if_neg (by simp [hd]), if_pos hs]
  all_goals exact absurd hs (by decide)

theorem read_eq_number (h : c.isDigit = true ∨ c = '.' ∧ cs.head?.any Char.isDigit = true) :
    read prior c cs = (.number, numeral (c :: cs) - 1) := by
  rw [read.eq_def]
  split
  case h_19 =>
    obtain ⟨-, h⟩ := h.resolve_left (by decide)
    have hdot : cs.head? ≠ some '.' := by
      intro hd
      simp [hd] at h
    rw [if_neg hdot, if_pos h]
  case h_22 hne _ =>
    have hd : c.isDigit = true := h.resolve_right fun hc => by simp_all
    rw [if_pos hd]
  all_goals simp at h

/-- A name that is read is spelled as one. -/
theorem named_isName {qualifier : Option String} {callable : Bool} {size : Nat}
    (hd : c.isDigit = false) (hs : isNameStart c = true)
    (h : named prior c cs = (.name qualifier label callable, size)) : IsName qualifier label := by
  have hw : IsWord (String.ofList (c :: cs.take (nameChars cs))) :=
    ⟨c, _, String.toList_ofList, hd, hs, isNameChar_take cs⟩
  rw [named] at h
  dsimp only at h
  split at h
  · rename_i name hl
    simp only [Prod.mk.injEq, Symbol.name.injEq] at h
    obtain ⟨⟨rfl, rfl, -⟩, -⟩ := h
    refine ⟨hw, ?_⟩
    obtain ⟨tail, -, ⟨rfl, -⟩ | ⟨d, ds, rfl, hstart, -⟩⟩ := local?_cases hl
    · exact .inr rfl
    · exact .inl ⟨d, _, String.toList_ofList, hstart, isNameChar_take ds⟩
  · rw [Prod.mk.injEq] at h
    rcases word_cases prior (String.ofList (c :: cs.take (nameChars cs)))
        (cs.drop (nameChars cs)) with
      ⟨op, ho⟩ | ⟨axis, ha, -⟩ | hn
    · rw [ho] at h
      cases h.1
    · rw [ha] at h
      cases h.1
    · rw [hn, Symbol.name.injEq] at h
      obtain ⟨⟨rfl, rfl, -⟩, -⟩ := h
      exact hw

end Lexeme

namespace Token

open Lexeme

/-- How the text of a token is spelled. No literal holds quotes of both kinds. -/
def Spelled (t : Token) : Prop :=
  match t.symbol with
  | .number => IsNumeral t.text.toList
  | .axis axis => axis ≠ .root
  | .name qualifier label _ => IsName qualifier label
  | .string value true => '\'' ∈ value.toList → '"' ∉ value.toList
  | _ => True

theorem spelled_read (prior : TokenKind) (c : Char) (cs : List Char) (start : Nat) :
    Spelled ⟨(read prior c cs).1, start, String.ofList (c :: cs.take (read prior c cs).2)⟩ := by
  have hr := read_reads prior c cs
  generalize read prior c cs = lexeme at *
  cases hr with
  | name hd hs =>
    rcases named_cases prior c cs with ⟨op, h⟩ | ⟨axis, h, ha⟩ | ⟨qualifier, label, callable, h⟩
    · simp [Spelled, h]
    · simpa [Spelled, h] using ha
    · simp only [Spelled, h]
      exact named_isName hd hs (Prod.ext h rfl)
  | number h =>
    have hn := isNumeral_take h
    cases hm : numeral (c :: cs) with
    | zero =>
      obtain ⟨-, d, rest, he, -⟩ := hn
      simp [hm] at he
    | succ n =>
      rw [hm] at hn
      simpa [Spelled, hm] using hn
  | quoted h =>
    have hv : ∀ d ∈ cs.takeWhile (· ≠ c), d ≠ c := by
      intro d hd
      simpa using List.all_eq_true.1 List.all_takeWhile d hd
    simp only [Spelled, quoted]
    split
    all_goals try trivial
    rename_i value hs
    simp only [Symbol.string.injEq] at hs
    obtain ⟨rfl, -⟩ := hs
    rw [String.toList_ofList]
    rcases h with rfl | rfl
    · exact fun _ h => hv _ h rfl
    · exact fun h => absurd rfl (hv _ h)
  | _ => trivial

theorem spelled_scanFrom {prior : TokenKind} {start : Nat} {cs : List Char} {t : Token}
    (h : t ∈ scanFrom prior start cs) : t.Spelled := by
  fun_induction scanFrom prior start cs with
  | case1 => cases h
  | case2 prior start cs ih => exact ih h
  | case3 prior start c cs hc lexeme spelled ih =>
    rcases List.mem_cons.1 h with rfl | h
    · exact spelled_read ..
    · exact ih h

end Token

end YangConstraint
