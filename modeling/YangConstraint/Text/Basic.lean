/-! Reading a text by its characters: how it starts, and where it is cut at a character. -/
namespace YangConstraint.Text

/-- Whether `text` begins with `start`. -/
def startsWith (start text : String) : Bool := start.toList.isPrefixOf text.toList

/-- What follows `start` at the beginning of `text`. -/
def after? (start text : String) : Option String :=
  if startsWith start text then some (String.ofList (text.toList.drop start.toList.length))
  else none

/-- What follows the first `c`. -/
def afterFirst? (c : Char) (text : String) : Option String :=
  match text.toList.dropWhile (· != c) with
  | [] => none
  | _ :: rest => some (String.ofList rest)

/-- The texts before and after the first `c`. -/
def splitFirst? (c : Char) (text : String) : Option (String × String) :=
  (afterFirst? c text).map fun rest => (String.ofList (text.toList.takeWhile (· != c)), rest)

/-- The characters before and after the last `c`. -/
def splitLast (c : Char) : List Char → Option (List Char × List Char)
  | [] => none
  | x :: xs =>
    match splitLast c xs with
    | some (before, rest) => some (x :: before, rest)
    | none => if x = c then some ([], xs) else none

/-- The characters before the first `mark` and those after it. -/
def cut? (mark : List Char) : List Char → Option (List Char × List Char)
  | [] => none
  | c :: cs =>
    if mark.isPrefixOf (c :: cs) then some ([], (c :: cs).drop mark.length)
    else (cut? mark cs).map fun parts => (c :: parts.1, parts.2)

/-- Whether the characters of `part` occur in a row. -/
def occursIn (part : List Char) : List Char → Bool
  | [] => part.isEmpty
  | c :: cs => part.isPrefixOf (c :: cs) || occursIn part cs

/-- The size of the characters in UTF-8. -/
def byteSize : List Char → Nat
  | [] => 0
  | c :: cs => c.utf8Size + byteSize cs

/-- The characters from the byte at `offset` on. -/
def dropBytes : (offset : Nat) → List Char → List Char
  | 0, cs => cs
  | _, [] => []
  | offset, c :: cs => dropBytes (offset - c.utf8Size) cs

variable {start text : String} {c : Char} {cs before rest : List Char}

theorem startsWith_iff : startsWith start text = true ↔ ∃ rest, text = start ++ rest := by
  rw [startsWith, List.isPrefixOf_iff_prefix]
  constructor
  · rintro ⟨rest, h⟩
    exact ⟨String.ofList rest, String.toList_inj.1 (by simp [h])⟩
  · rintro ⟨rest, rfl⟩
    exact ⟨rest.toList, by simp⟩

theorem after?_eq_some_iff {rest : String} :
    after? start text = some rest ↔ text = start ++ rest := by
  rw [after?]
  constructor
  · intro h
    split at h
    · rename_i hs
      obtain ⟨tail, rfl⟩ := startsWith_iff.1 hs
      simp_all
    · simp at h
  · rintro rfl
    rw [if_pos (startsWith_iff.2 ⟨rest, rfl⟩)]
    simp

/-- A text is cut at its first `c`: nothing is lost and no `c` precedes. -/
theorem splitFirst?_eq_some_iff {before rest : String} : splitFirst? c text = some (before, rest) ↔
    text.toList = before.toList ++ c :: rest.toList ∧ c ∉ before.toList := by
  have hsplit := List.takeWhile_append_dropWhile (p := (· != c)) (l := text.toList)
  have hbefore : c ∉ text.toList.takeWhile (· != c) := by
    intro h
    simpa using List.all_eq_true.1 List.all_takeWhile c h
  rw [splitFirst?, afterFirst?]
  constructor
  · intro h
    cases hd : text.toList.dropWhile (· != c) with
    | nil => simp [hd] at h
    | cons d tail =>
      obtain rfl : d = c := by simpa [hd] using List.head?_dropWhile_not (· != c) text.toList
      simp only [hd, Option.map_some, Option.some.injEq, Prod.mk.injEq] at h
      obtain ⟨rfl, rfl⟩ := h
      rw [String.toList_ofList, String.toList_ofList, ← hd]
      exact ⟨hsplit.symm, hbefore⟩
  · rintro ⟨ht, hn⟩
    have hall : ∀ x ∈ before.toList, (x != c) = true := by
      intro x hx
      simp only [bne_iff_ne]
      rintro rfl
      exact hn hx
    simp [ht, List.dropWhile_append_of_pos hall, List.takeWhile_append_of_pos hall]

theorem splitLast_eq_none_iff : splitLast c cs = none ↔ c ∉ cs := by
  induction cs with
  | nil => simp [splitLast]
  | cons x xs ih =>
    rw [splitLast]
    split
    · rename_i h
      simp [h] at ih
      simp [ih]
    · rename_i h
      have hn : c ∉ xs := ih.1 h
      by_cases hx : x = c <;> simp [hx, hn]
      exact fun he => hx he.symm

/-- A text is cut at its last `c`: nothing is lost and no `c` follows. -/
theorem splitLast_eq_some (h : splitLast c cs = some (before, rest)) :
    cs = before ++ c :: rest ∧ c ∉ rest := by
  induction cs generalizing before rest with
  | nil => simp [splitLast] at h
  | cons x xs ih =>
    rw [splitLast] at h
    split at h
    · rename_i b r hb
      obtain ⟨he, hr⟩ := ih hb
      simp only [Option.some.injEq, Prod.mk.injEq] at h
      obtain ⟨rfl, rfl⟩ := h
      exact ⟨by simp [he], hr⟩
    · rename_i hn
      split at h
      · rename_i hx
        simp only [Option.some.injEq, Prod.mk.injEq] at h
        obtain ⟨rfl, rfl⟩ := h
        exact ⟨by simp [hx], splitLast_eq_none_iff.1 hn⟩
      · simp at h

theorem splitLast_append (h : c ∉ rest) :
    splitLast c (before ++ c :: rest) = some (before, rest) := by
  induction before with
  | nil =>
    have hn := splitLast_eq_none_iff.2 h
    simp [splitLast, hn]
  | cons x xs ih => simp [splitLast, ih]

theorem occursIn_iff {part : List Char} : occursIn part cs = true ↔ part <:+: cs := by
  induction cs with
  | nil => simp [occursIn]
  | cons c cs ih => simp [occursIn, ih, List.infix_cons_iff]

@[simp] theorem byteSize_nil : byteSize [] = 0 := rfl

@[simp] theorem byteSize_cons (x : Char) : byteSize (x :: cs) = x.utf8Size + byteSize cs := rfl

@[simp] theorem byteSize_append (as bs : List Char) :
    byteSize (as ++ bs) = byteSize as + byteSize bs := by
  induction as with
  | nil => simp
  | cons a as ih => simp [ih, Nat.add_assoc]

/-- Dropping the bytes of the first characters leaves the others. -/
theorem dropBytes_append (as bs : List Char) : dropBytes (byteSize as) (as ++ bs) = bs := by
  induction as with
  | nil => simp [dropBytes]
  | cons x xs ih =>
    have hx := x.utf8Size_pos
    obtain ⟨k, hk⟩ : ∃ k, byteSize (x :: xs) = k + 1 :=
      ⟨x.utf8Size + byteSize xs - 1, by simp; omega⟩
    have he : k + 1 - x.utf8Size = byteSize xs := by simp at hk; omega
    rw [hk, List.cons_append, dropBytes, he, ih]
    simp

end YangConstraint.Text
