/-! Integers of 64 bits and their decimal text. -/
namespace YangConstraint.Integer

def least : Int := -9223372036854775808

def greatest : Int := 9223372036854775807

/-- The number, if 64 bits hold it. -/
def fit? (n : Int) : Option Int := if least ≤ n ∧ n ≤ greatest then some n else none

/-- The number that a row of digits stands for. -/
def ofDigits? (cs : List Char) : Option Nat :=
  if cs ≠ [] ∧ cs.all Char.isDigit then some (Nat.ofDigitChars 10 cs 0) else none

/-- The number that digits stand for, perhaps after a sign. -/
def ofChars? : List Char → Option Int
  | '-' :: cs => (ofDigits? cs).map fun n => -n
  | '+' :: cs => (ofDigits? cs).map fun n => n
  | cs => (ofDigits? cs).map fun n => n

/-- The number of 64 bits that a text stands for. -/
def ofText? (text : String) : Option Int := (ofChars? text.toList).bind fit?

def text : Int → String
  | .ofNat n => String.ofList (Nat.toDigits 10 n)
  | .negSucc n => String.ofList ('-' :: Nat.toDigits 10 (n + 1))

variable {n m : Int}

theorem fit?_eq_some_iff : fit? n = some m ↔ n = m ∧ least ≤ n ∧ n ≤ greatest := by
  rw [fit?]
  split
  · rename_i h
    simp [h]
  · rename_i h
    simp only [reduceCtorEq, false_iff]
    exact fun hm => h hm.2

theorem ofDigits?_toDigits (n : Nat) : ofDigits? (Nat.toDigits 10 n) = some n := by
  have hd : (Nat.toDigits 10 n).all Char.isDigit = true :=
    List.all_eq_true.2 fun c hc => Nat.isDigit_of_mem_toDigits (by decide) (by decide) hc
  have hne : Nat.toDigits 10 n ≠ [] := Nat.toDigits_ne_nil
  simp [ofDigits?, hd, hne, Nat.ofDigitChars_toDigits]

/-- The text of a number stands for it. -/
theorem ofChars?_text (n : Int) : ofChars? (text n).toList = some n := by
  cases n with
  | ofNat n =>
    have hc : ∀ c ∈ Nat.toDigits 10 n, c.isDigit = true := fun c hc =>
      Nat.isDigit_of_mem_toDigits (by decide) (by decide) hc
    simp only [text, String.toList_ofList]
    unfold ofChars?
    split
    · rename_i he
      have := hc '-' (by simp [he])
      exact absurd this (by decide)
    · rename_i he
      have := hc '+' (by simp [he])
      exact absurd this (by decide)
    · rw [ofDigits?_toDigits]
      rfl
  | negSucc n =>
    simp only [text, String.toList_ofList, ofChars?, ofDigits?_toDigits]
    rfl

theorem ofText?_text : ofText? (text n) = fit? n := by
  rw [ofText?, ofChars?_text, Option.bind_some]

end YangConstraint.Integer
