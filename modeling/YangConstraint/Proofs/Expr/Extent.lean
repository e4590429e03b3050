import Mathlib.Data.List.TakeWhile
import YangConstraint.Proofs.Expr.Scan

/-!
How far the scanner looks. What it reads at a character is settled by the lexeme, by the character
behind it, which may as well be a space or a closing parenthesis, and by the next token.
-/
namespace YangConstraint

theorem takeWhile_append_cons {α : Type} {p : α → Bool} {c : α} {cs rest : List α}
    (h : p c = false) :
    (cs ++ c :: rest).takeWhile p = cs.takeWhile p := by
  induction cs with
  | nil => simp [h]
  | cons d cs ih => cases hd : p d <;> simp [hd, ih]

theorem all_ne {α : Type} [DecidableEq α] {c : α} {cs : List α} (h : c ∉ cs) :
    ∀ d ∈ cs, decide (d ≠ c) = true := by
  intro d hd
  exact decide_eq_true fun he => h (he ▸ hd)

namespace Lexeme

variable {prior prior' : TokenKind} {p : Char → Bool} {c : Char} {cs ds w label : List Char}

/-! ### What is read is part of the text -/

theorem digits_le (cs : List Char) : digits cs ≤ cs.length := (List.takeWhile_prefix _).length_le

theorem nameChars_le : nameChars cs ≤ cs.length := (List.takeWhile_prefix _).length_le

theorem fraction_le (cs : List Char) : fraction cs ≤ cs.length := by
  rw [fraction.eq_def]
  split
  · rename_i ds
    have := digits_le ds
    simp
    omega
  · exact Nat.zero_le _

def isSign (c : Char) : Bool := c = '+' || c = '-'

theorem exponent_cons (hc : c = 'e' ∨ c = 'E') :
    exponent (c :: cs) = if cs.head?.any isSign then 2 + digits cs.tail else 1 + digits cs := by
  cases cs with
  | nil => rcases hc with rfl | rfl <;> rfl
  | cons d ds =>
    by_cases hd : d = '+' ∨ d = '-'
    · rcases hc with rfl | rfl <;> rcases hd with rfl | rfl <;> rfl
    · push Not at hd
      rcases hc with rfl | rfl <;> simp [exponent, isSign, hd]

theorem exponent_le (cs : List Char) : exponent cs ≤ cs.length := by
  have hplain : ∀ {d : Char} {ds : List Char}, 1 + digits ds ≤ (d :: ds).length := by
    intro d ds
    have := digits_le ds
    rw [List.length_cons]
    omega
  have hsigned : ∀ {d sign : Char} {ds : List Char}, 2 + digits ds ≤ (d :: sign :: ds).length := by
    intro d sign ds
    have := digits_le ds
    rw [List.length_cons, List.length_cons]
    omega
  rw [exponent.eq_def]
  split
  case h_1 | h_2 =>
    split
    · exact hsigned
    · exact hsigned
    · exact hplain
  case h_3 => exact Nat.zero_le _

theorem numeral_le (cs : List Char) : numeral cs ≤ cs.length := by
  have hwhole := digits_le cs
  have hfraction := fraction_le (cs.drop (digits cs))
  have hexponent := exponent_le (cs.drop (digits cs + fraction (cs.drop (digits cs))))
  rw [List.length_drop] at hfraction hexponent
  rw [numeral]
  omega

theorem local?_length (h : local? cs = some label) : 1 + label.length ≤ cs.length := by
  obtain ⟨tail, rfl, ⟨rfl, htail⟩ | ⟨c, ds, rfl, -, rfl⟩⟩ := local?_cases h
  · cases tail with
    | nil => cases htail
    | cons d tail => simp
  · simp
    omega

theorem named_le : (named prior c cs).2 ≤ cs.length := by
  rw [named]
  dsimp only
  split
  · rename_i label hl
    have hlength := local?_length hl
    rw [List.length_drop] at hlength
    show nameChars cs + 1 + label.length ≤ cs.length
    omega
  · exact nameChars_le

theorem quoted_le : (quoted c cs).2 ≤ cs.length := by
  rw [quoted]
  dsimp only
  by_cases hc : c ∈ cs
  · obtain ⟨before, after, rfl⟩ := List.append_of_mem hc
    have hle : (before.takeWhile (· ≠ c)).length ≤ before.length :=
      (List.takeWhile_prefix _).length_le
    rw [takeWhile_append_cons (by simp)]
    simp only [hc, if_true, List.length_append, List.length_cons]
    omega
  · have hle : (cs.takeWhile (· ≠ c)).length ≤ cs.length := (List.takeWhile_prefix _).length_le
    simpa [hc] using hle

theorem read_le : (read prior c cs).2 ≤ cs.length := by
  have hnumeral : numeral (c :: cs) - 1 ≤ cs.length := by
    have := numeral_le (c :: cs)
    rw [List.length_cons] at this
    omega
  have hhead : ∀ d, cs.head? = some d → 1 ≤ cs.length := by
    intro d hd
    cases cs with
    | nil => cases hd
    | cons => exact Nat.le_add_left ..
  rw [read.eq_def]
  split
  case h_14 | h_15 | h_16 | h_17 | h_18 =>
    split
    · exact hhead _ (by assumption)
    · exact Nat.zero_le _
  case h_19 =>
    split
    · exact hhead _ (by assumption)
    · split
      · exact hnumeral
      · exact Nat.zero_le _
  case h_20 | h_21 => exact quoted_le
  case h_22 =>
    split
    · exact hnumeral
    · split
      · exact named_le
      · exact Nat.zero_le _
  case h_13 => split <;> exact Nat.zero_le _
  all_goals exact Nat.zero_le _

/-! ### What is read is the same before a gap -/

/-- The second text goes on as the first one does, if only up to a space, a closing
parenthesis or its end. -/
inductive Gapped : List Char → List Char → Prop where
  | nil (cs : List Char) : Gapped cs []
  | gap {g : Char} (cs ds : List Char) (hg : g = ' ' ∨ g = ')') : Gapped cs (g :: ds)
  | cons (c : Char) {cs ds : List Char} (h : Gapped cs ds) : Gapped (c :: cs) (c :: ds)

theorem Gapped.append (h : Gapped cs ds) (w : List Char) : Gapped (w ++ cs) (w ++ ds) := by
  induction w with
  | nil => exact h
  | cons c w ih => exact .cons c ih

theorem gapped_closed (cs rest : List Char) : Gapped cs (cs ++ ')' :: rest) := by
  have h : Gapped [] (')' :: rest) := .gap _ _ (.inr rfl)
  simpa using h.append cs

theorem Gapped.head? (hg : Gapped cs ds) :
    ds.head? = cs.head? ∨ ∀ d ∈ ds.head?, d = ' ' ∨ d = ')' := by
  cases hg with
  | nil => exact .inr nofun
  | gap cs ds hg =>
    right
    rintro _ ⟨rfl⟩
    exact hg
  | cons => exact .inl rfl

theorem takeWhile_gapped (hg : Gapped cs ds) (hs : p ' ' = false) (hp : p ')' = false)
    (h : ((w ++ cs).takeWhile p).length ≤ w.length) :
    ((w ++ ds).takeWhile p).length = ((w ++ cs).takeWhile p).length := by
  induction w with
  | nil =>
    have hcs : cs.takeWhile p = [] := List.length_eq_zero_iff.1 (Nat.le_zero.1 h)
    rw [List.nil_append, List.nil_append, hcs]
    cases hg with
    | nil => rfl
    | gap cs ds hg => rcases hg with rfl | rfl <;> simp [hs, hp]
    | cons c hg => cases hc : p c <;> simp_all
  | cons c w ih => cases hc : p c <;> simp_all

theorem head?_gapped {d : Char} (hg : Gapped cs ds) (hs : d ≠ ' ') (hp : d ≠ ')')
    (h : w = [] → cs.head? ≠ some d) : (w ++ ds).head? = some d ↔ (w ++ cs).head? = some d := by
  cases w with
  | cons c w => rfl
  | nil =>
    rcases hg.head? with he | hd
    · rw [List.nil_append, List.nil_append, he]
    · refine iff_of_false (fun hds => ?_) (h rfl)
      rcases hd d hds with rfl | rfl
      · exact hs rfl
      · exact hp rfl

theorem any_head?_gapped (hg : Gapped cs ds) (hs : p ' ' = false) (hp : p ')' = false)
    (h : w = [] → cs.head?.any p = false) : (w ++ ds).head?.any p = (w ++ cs).head?.any p := by
  cases w with
  | cons c w => rfl
  | nil =>
    rcases hg.head? with he | hd
    · rw [List.nil_append, List.nil_append, he]
    · rw [List.nil_append, List.nil_append, h rfl]
      cases ds with
      | nil => rfl
      | cons d ds =>
        rcases hd d rfl with rfl | rfl
        · exact hs
        · exact hp

theorem digits_gapped (hg : Gapped cs ds) (h : digits (w ++ cs) ≤ w.length) :
    digits (w ++ ds) = digits (w ++ cs) := takeWhile_gapped hg (by decide) (by decide) h

theorem nameChars_gapped (hg : Gapped cs ds) (h : nameChars (w ++ cs) ≤ w.length) :
    nameChars (w ++ ds) = nameChars (w ++ cs) := takeWhile_gapped hg (by decide) (by decide) h

theorem fraction_gapped (hg : Gapped cs ds) (h : fraction (w ++ cs) ≤ w.length) :
    fraction (w ++ ds) = fraction (w ++ cs) := by
  cases w with
  | nil =>
    cases hg with
    | nil => exact (Nat.le_zero.1 h).symm
    | gap cs ds hg =>
      rw [Nat.le_zero.1 h]
      rcases hg with rfl | rfl <;> rfl
    | cons c hg =>
      by_cases hc : c = '.'
      · subst hc
        simp [fraction] at h
      · simp [fraction, hc]
  | cons c w =>
    by_cases hc : c = '.'
    · subst hc
      rw [List.cons_append, fraction, List.length_cons] at h
      rw [List.cons_append, List.cons_append, fraction, fraction, digits_gapped hg (by omega)]
    · simp [fraction, hc]

theorem exponent_gapped (hg : Gapped cs ds) (h : exponent (w ++ cs) ≤ w.length) :
    exponent (w ++ ds) = exponent (w ++ cs) := by
  cases w with
  | nil =>
    cases hg with
    | nil => exact (Nat.le_zero.1 h).symm
    | gap cs ds hg =>
      rw [Nat.le_zero.1 h]
      rcases hg with rfl | rfl <;> rfl
    | @cons c cs ds hg =>
      by_cases hc : c = 'e' ∨ c = 'E'
      · rw [List.nil_append, exponent_cons hc] at h
        split at h <;> simp at h
      · push Not at hc
        simp [exponent, hc]
  | cons c w =>
    by_cases hc : c = 'e' ∨ c = 'E'
    · rw [List.cons_append, exponent_cons hc, List.length_cons] at h
      -- a sign behind the letter would belong to the exponent
      have hsign : w = [] → cs.head?.any isSign = false := by
        rintro rfl
        by_contra hs
        rw [List.nil_append, if_pos (by simpa using hs), List.length_nil] at h
        omega
      rw [List.cons_append, List.cons_append, exponent_cons hc, exponent_cons hc,
        any_head?_gapped hg (by decide) (by decide) hsign]
      split at h
      · rename_i hs
        rw [if_pos hs, if_pos hs]
        cases w with
        | nil => simp [hsign rfl] at hs
        | cons d w =>
          rw [List.cons_append, List.tail_cons, List.length_cons] at h
          rw [List.cons_append, List.cons_append, List.tail_cons, List.tail_cons,
            digits_gapped hg (by omega)]
      · rename_i hs
        rw [if_neg hs, if_neg hs, digits_gapped hg (by omega)]
    · push Not at hc
      simp [exponent, hc]

theorem numeral_gapped (hg : Gapped cs ds) (h : numeral (w ++ cs) ≤ w.length) :
    numeral (w ++ ds) = numeral (w ++ cs) := by
  simp only [numeral] at h ⊢
  have hwhole : digits (w ++ ds) = digits (w ++ cs) := digits_gapped hg (by omega)
  have hdrop : ∀ n ≤ w.length, (w ++ ds).drop n = w.drop n ++ ds ∧
      (w ++ cs).drop n = w.drop n ++ cs :=
    fun n hn => ⟨List.drop_append_of_le_length hn, List.drop_append_of_le_length hn⟩
  have hfraction : fraction ((w ++ ds).drop (digits (w ++ cs))) =
      fraction ((w ++ cs).drop (digits (w ++ cs))) := by
    obtain ⟨hds, hcs⟩ := hdrop (digits (w ++ cs)) (by omega)
    rw [hcs] at h
    rw [hds, hcs]
    apply fraction_gapped hg
    rw [List.length_drop]
    omega
  rw [hwhole, hfraction]
  obtain ⟨hds, hcs⟩ := hdrop _ (Nat.le_trans (Nat.le_add_right _ _) h)
  rw [hcs] at h
  rw [hds, hcs, exponent_gapped hg]
  rw [List.length_drop]
  omega

theorem local?_eq_none (hg : Gapped cs ds) (h : local? cs = none) : local? ds = none := by
  cases hg with
  | nil => rfl
  | gap cs ds hg => rcases hg with rfl | rfl <;> rfl
  | @cons c cs ds hg =>
    by_cases hc : c = ':'
    · subst hc
      cases hg with
      | nil => rfl
      | gap cs ds hg => rcases hg with rfl | rfl <;> rfl
      | cons d hg =>
        rw [local?] at h ⊢
        split at h
        · cases h
        · rename_i hd
          rw [if_neg hd]
          split at h
          · cases h
          · rename_i hd
            rw [if_neg hd]
    · simp [local?, hc]

theorem local?_ne_nil : local? cs ≠ some [] := by
  intro h
  obtain ⟨rest, -, ⟨hl, -⟩ | ⟨c, ds, hl, -⟩⟩ := local?_cases h <;> cases hl

theorem local?_gapped (hg : Gapped cs ds)
    (h : ∀ label, local? (w ++ cs) = some label → 1 + label.length ≤ w.length) :
    local? (w ++ ds) = local? (w ++ cs) := by
  cases hl : local? (w ++ cs) with
  | none => exact local?_eq_none (hg.append w) hl
  | some label =>
    have hlength := h label hl
    have hpos : label.length ≠ 0 := fun h => local?_ne_nil (List.length_eq_zero_iff.1 h ▸ hl)
    rcases w with _ | ⟨d, _ | ⟨c, w⟩⟩
    · simp at hlength
    · rw [List.length_singleton] at hlength
      omega
    · by_cases hd : d = ':'
      · subst hd
        rw [List.cons_append, List.cons_append, local?] at hl ⊢
        by_cases hc : isNameStart c = true
        · rw [if_pos hc] at hl ⊢
          cases hl
          have hn : nameChars (w ++ cs) ≤ w.length := by
            rw [List.length_cons, List.length_cons, List.length_cons, List.length_take,
              Nat.min_eq_left nameChars_le] at hlength
            omega
          rw [nameChars_gapped hg hn, List.take_append_of_le_length hn,
            List.take_append_of_le_length hn]
        · rwa [if_neg hc] at hl ⊢
      · simp [local?, hd] at hl

theorem word_gapped (hp : prior'.endsOperand = prior.endsOperand)
    (hcall : opensCall ds = opensCall cs) (haxis : opensAxis ds = opensAxis cs) (name : String) :
    word prior' name ds = word prior name cs := by
  rw [word, word, hp, hcall, haxis]

theorem named_word (h : local? (cs.drop (nameChars cs)) = none) : named prior c cs =
    (word prior (String.ofList (c :: cs.take (nameChars cs))) (cs.drop (nameChars cs)),
      nameChars cs) := by
  simp only [named, h]

theorem named_local (h : local? (cs.drop (nameChars cs)) = some label) : named prior c cs =
    (.name (some (String.ofList (c :: cs.take (nameChars cs)))) (String.ofList label)
      (label ≠ ['*'] && opensCall (cs.drop (nameChars cs + 1 + label.length))),
      nameChars cs + 1 + label.length) := by
  simp only [named, h]

theorem named_gapped (hp : prior'.endsOperand = prior.endsOperand) (hg : Gapped cs ds)
    (hcall : opensCall ds = opensCall cs) (haxis : opensAxis ds = opensAxis cs)
    (hn : (named prior c (w ++ cs)).2 = w.length) :
    named prior' c (w ++ ds) = named prior c (w ++ cs) := by
  cases hl : local? ((w ++ cs).drop (nameChars (w ++ cs))) with
  | none =>
    rw [named_word hl] at hn ⊢
    have hsize : nameChars (w ++ ds) = nameChars (w ++ cs) := nameChars_gapped hg (Nat.le_of_eq hn)
    dsimp only at hn
    rw [hn] at hl hsize ⊢
    rw [List.drop_left] at hl
    have hl' : local? ((w ++ ds).drop (nameChars (w ++ ds))) = none := by
      rw [hsize, List.drop_left]
      exact local?_eq_none hg hl
    rw [named_word hl', hsize, List.drop_left, List.drop_left, List.take_left, List.take_left,
      word_gapped hp hcall haxis]
  | some label =>
    rw [named_local hl] at hn ⊢
    dsimp only at hn ⊢
    have hle : nameChars (w ++ cs) ≤ w.length := by omega
    have hsize : nameChars (w ++ ds) = nameChars (w ++ cs) := nameChars_gapped hg hle
    have hl' : local? ((w ++ ds).drop (nameChars (w ++ ds))) = some label := by
      rw [← hl, hsize, List.drop_append_of_le_length hle, List.drop_append_of_le_length hle]
      apply local?_gapped hg
      intro other ho
      rw [List.drop_append_of_le_length hle, ho] at hl
      cases hl
      rw [List.length_drop]
      omega
    rw [named_local hl', hsize, hn, List.drop_left, List.drop_left, hcall,
      List.take_append_of_le_length hle, List.take_append_of_le_length hle]

theorem quoted_gapped (hn : (quoted c (w ++ cs)).2 = w.length) (h : c ∉ w ++ cs → ds = []) :
    quoted c (w ++ ds) = quoted c (w ++ cs) := by
  by_cases hc : c ∈ w ++ cs
  · have hw : c ∈ w := by
      by_contra hw
      rw [quoted, List.takeWhile_append_of_pos (all_ne hw), List.length_append] at hn
      simp only [hc, if_true] at hn
      omega
    obtain ⟨before, after, rfl⟩ := List.append_of_mem hw
    rw [quoted, quoted, List.append_assoc, List.append_assoc, List.cons_append, List.cons_append,
      takeWhile_append_cons (by simp), takeWhile_append_cons (by simp)]
    simp
  · have hcs : cs = [] := by
      rw [quoted, List.takeWhile_eq_self_iff.2 (all_ne hc)] at hn
      simpa [hc] using hn
    rw [h hc, hcs]

theorem numeral_dot (h : cs.head?.any Char.isDigit = true) : 2 ≤ numeral ('.' :: cs) := by
  cases cs with
  | nil => cases h
  | cons d ds =>
    have hd : d.isDigit = true := h
    have hwhole : digits ('.' :: d :: ds) = 0 := rfl
    have hfraction : fraction ('.' :: d :: ds) = digits ds + 2 := by
      simp [fraction, digits, hd]
      omega
    rw [numeral, hwhole, Nat.zero_add, List.drop_zero, hfraction]
    omega

theorem numeral_cons_gapped (hg : Gapped cs ds) (hn : numeral (c :: (w ++ cs)) - 1 = w.length) :
    numeral (c :: (w ++ ds)) = numeral (c :: (w ++ cs)) := by
  have hle : numeral ((c :: w) ++ cs) ≤ (c :: w).length := by
    rw [List.cons_append, List.length_cons]
    omega
  exact numeral_gapped hg hle

theorem pair_gapped {d : Char} {s s' : Symbol} (hg : Gapped cs ds) (hs : d ≠ ' ') (hp : d ≠ ')')
    (hn : (if (w ++ cs).head? = some d then (s, 1) else (s', 0)).2 = w.length) :
    (if (w ++ ds).head? = some d then (s, 1) else (s', 0)) =
      if (w ++ cs).head? = some d then (s, 1) else (s', 0) := by
  have hd : w = [] → cs.head? ≠ some d := by
    rintro rfl hd
    rw [List.nil_append, if_pos hd] at hn
    cases hn
  simp only [head?_gapped hg hs hp hd]

/-- Where its lexeme ends the text may as well go on with a gap, unless that adds to an open literal
or changes which token is next. -/
theorem read_gapped (hp : prior'.endsOperand = prior.endsOperand) (hg : Gapped cs ds)
    (hcall : opensCall ds = opensCall cs) (haxis : opensAxis ds = opensAxis cs)
    (hn : (read prior c (w ++ cs)).2 = w.length)
    (ho : ∀ value, (read prior c (w ++ cs)).1 = .string value false → ds = []) :
    read prior' c (w ++ ds) = read prior c (w ++ cs) := by
  revert hn ho
  rw [read.eq_def prior', read.eq_def prior]
  split
  all_goals intro hn ho
  case h_13 => rw [hp]
  case h_14 | h_15 | h_16 | h_17 | h_18 => exact pair_gapped hg (by decide) (by decide) hn
  case h_19 =>
    -- a dot that is read alone stands before no other dot and no digit
    have hdot : w = [] → cs.head? ≠ some '.' ∧ cs.head?.any Char.isDigit = false := by
      rintro rfl
      rw [List.nil_append] at hn
      split at hn
      · cases hn
      · split at hn
        · rename_i hd
          have := numeral_dot hd
          simp only [List.length_nil] at hn
          omega
        · rename_i hd hdigit
          exact ⟨hd, by simpa using hdigit⟩
    simp only [head?_gapped hg (by decide) (by decide) fun h => (hdot h).1,
      any_head?_gapped hg (by decide) (by decide) fun h => (hdot h).2]
    split at hn
    · rename_i hd
      rw [if_pos hd, if_pos hd]
    · split at hn
      · rw [numeral_cons_gapped hg hn]
      · rename_i hd hdigit
        rw [if_neg hd, if_neg hd, if_neg hdigit, if_neg hdigit]
  case h_20 | h_21 => exact quoted_gapped hn fun hq => ho _ (by rw [quoted, decide_eq_false hq])
  case h_22 =>
    split at hn
    · rw [numeral_cons_gapped hg hn]
      rename_i hd
      rw [if_pos hd, if_pos hd]
    · split at hn
      · rename_i hd hs
        rw [if_neg hd, if_pos hs, if_neg hd, if_pos hs]
        exact named_gapped hp hg hcall haxis hn
      · rename_i hd hs
        rw [if_neg hd, if_neg hs, if_neg hd, if_neg hs]
  all_goals rfl

end Lexeme

end YangConstraint
