import Mathlib.Tactic.Common
import YangConstraint.Proofs.Eval.Comparison

/-!
Arithmetic is exact or fails. From one operator to the next a number goes as its decimal text, and
each operator fails where 64 bits do not hold its result.
-/
namespace YangConstraint

theorem Text.isBlank_of_isDigit {c : Char} (h : c.isDigit = true) : isBlank c = false := by
  have hrange : 48 ≤ c.toNat ∧ c.toNat ≤ 57 := by
    simpa [Char.isDigit, UInt32.le_iff_toNat_le] using h
  rw [isBlank, List.any_eq_false]
  intro range hr
  simp only [blankRanges, List.mem_cons, List.not_mem_nil, or_false] at hr
  rcases hr with rfl | rfl | rfl | rfl | rfl | rfl | rfl | rfl | rfl | rfl <;> simp <;> omega

namespace Integer

/-- Whether 64 bits hold a number. -/
def Fits (n : Int) : Prop := least ≤ n ∧ n ≤ greatest

instance : DecidablePred Fits := fun n => inferInstanceAs (Decidable (least ≤ n ∧ n ≤ greatest))

variable {a b n : Int}

theorem fit?_of_fits (h : Fits n) : fit? n = some n := fit?_eq_some_iff.2 ⟨rfl, h⟩

theorem fit?_of_not_fits (h : ¬ Fits n) : fit? n = none := if_neg h

theorem fits_of_ofText? {text : String} (h : ofText? text = some n) : Fits n := by
  obtain ⟨m, -, hm⟩ := Option.bind_eq_some_iff.1 h
  obtain ⟨rfl, hfits⟩ := fit?_eq_some_iff.1 hm
  exact hfits

/-- A quotient is out of range only where the least number is divided by -1. -/
theorem fits_tdiv_iff (ha : Fits a) (hb : b ≠ 0) : Fits (a.tdiv b) ↔ ¬ (a = least ∧ b = -1) := by
  constructor
  · rintro h ⟨rfl, rfl⟩
    exact absurd h.2 (by decide)
  · intro hn
    simp only [Fits, least, greatest] at ha hn ⊢
    by_cases hunit : b.natAbs = 1
    · rcases (show b = 1 ∨ b = -1 by omega) with rfl | rfl
      · rwa [Int.tdiv_one]
      · rw [Int.tdiv_neg, Int.tdiv_one]
        omega
    -- Any other divisor leaves at most half of the dividend.
    · have hhalf : (a.tdiv b).natAbs ≤ a.natAbs / 2 := by
        rw [Int.natAbs_tdiv]
        exact Nat.div_le_div_left (by omega) (by decide)
      omega

theorem isBlank_of_mem_text {c : Char} (h : c ∈ (Integer.text n).toList) :
    Text.isBlank c = false := by
  have hdigits : ∀ {m : Nat}, c ∈ Nat.toDigits 10 m → Text.isBlank c = false := fun hc =>
    Text.isBlank_of_isDigit (Nat.isDigit_of_mem_toDigits (by decide) (by decide) hc)
  cases n with
  | ofNat m =>
    rw [Integer.text, String.toList_ofList] at h
    exact hdigits h
  | negSucc m =>
    rw [Integer.text, String.toList_ofList] at h
    rcases List.mem_cons.1 h with rfl | h
    · decide
    · exact hdigits h

theorem ofText?_trim_text (h : Fits n) : ofText? (Text.trim (Integer.text n)) = some n := by
  rw [Text.trim_eq_self fun c hc => isBlank_of_mem_text hc, ofText?_text, fit?_of_fits h]

end Integer

open Integer

namespace BinaryOp

/-- The exact result of an arithmetic operator. A quotient is cut towards zero, and a remainder has
the sign of the dividend. -/
def result (op : BinaryOp) (a b : Int) : Int :=
  match op with
  | plus => a + b
  | minus => a - b
  | times => a * b
  | div => a.tdiv b
  | mod => a.tmod b
  | _ => 0

/-- Whether two numbers have that result: nothing is divided by zero, and no remainder is taken of
the least number by -1. -/
def Defined (op : BinaryOp) (a b : Int) : Prop :=
  match op with
  | div => b ≠ 0
  | mod => b ≠ 0 ∧ ¬ (a = least ∧ b = -1)
  | _ => True

instance (op : BinaryOp) (a b : Int) : Decidable (op.Defined a b) :=
  match op with
  | div => inferInstanceAs (Decidable (b ≠ 0))
  | mod => inferInstanceAs (Decidable (b ≠ 0 ∧ ¬ (a = least ∧ b = -1)))
  | or | and | eq | ne | lt | le | gt | ge | plus | minus | times | union => .isTrue trivial

variable {op : BinaryOp} {a b : Int}

theorem exact_of_defined (hop : op.isArithmetic = true) (ha : Fits a) (h : op.Defined a b) :
    op.exact a b = .ok (op.result a b) := by
  cases op with
  | plus | minus | times => rfl
  | div => exact if_neg h
  | mod =>
    obtain ⟨hb, hn⟩ := h
    have hquotient : (fit? (a.tdiv b)).isNone = false := by
      rw [fit?_of_fits ((fits_tdiv_iff ha hb).2 hn)]
      rfl
    rw [exact, if_neg hb, if_neg (by simp [hquotient])]
    rfl
  | _ => cases hop

theorem exact_of_not_defined (ha : Fits a) (h : ¬ op.Defined a b) :
    ∃ reason, op.exact a b = .error reason := by
  cases op with
  | div => exact ⟨.divisionByZero, if_pos (not_not.1 h)⟩
  | mod =>
    by_cases hb : b = 0
    · exact ⟨.divisionByZero, if_pos hb⟩
    · have hquotient : ¬ Fits (a.tdiv b) := fun hq => h ⟨hb, (fits_tdiv_iff ha hb).1 hq⟩
      refine ⟨.overflow, ?_⟩
      rw [exact, if_neg hb, fit?_of_not_fits hquotient]
      rfl
  | _ => exact absurd trivial h

theorem compares?_of_isArithmetic (hop : op.isArithmetic = true) : op.compares? a b = none := by
  cases op with
  | plus | minus | times | div | mod => rfl
  | _ => cases hop

end BinaryOp

namespace Expr

/-- Trees of numbers and arithmetic operators. -/
inductive IsArithmetic : Expr → Prop where
  | number (text : String) : IsArithmetic (.number text)
  | negate {a : Expr} (ha : IsArithmetic a) : IsArithmetic (.operator .negate a .hole)
  | binary {op : BinaryOp} {a b : Expr} (hop : op.isArithmetic = true) (ha : IsArithmetic a)
    (hb : IsArithmetic b) : IsArithmetic (.operator (.binary op) a b)

/-- The number that such a tree comes to, however large it is. -/
def integer : Expr → Int
  | number text => (ofText? (Text.trim text)).getD 0
  | operator .negate a _ => -integer a
  | operator (.binary op) a b => op.result (integer a) (integer b)
  | _ => 0

/-- Whether a node of such a tree has the number that it comes to, within 64 bits. -/
def Computes : Expr → Prop
  | number text => (ofText? (Text.trim text)).isSome = true
  | operator .negate a _ => Fits (-a.integer)
  | operator (.binary op) a b =>
    op.Defined a.integer b.integer ∧ Fits (op.result a.integer b.integer)
  | _ => True

instance : DecidablePred Computes
  | number text => inferInstanceAs (Decidable ((ofText? (Text.trim text)).isSome = true))
  | operator .negate a _ => inferInstanceAs (Decidable (Fits (-a.integer)))
  | operator (.binary op) a b =>
    inferInstanceAs (Decidable (op.Defined a.integer b.integer ∧
      Fits (op.result a.integer b.integer)))
  | hole | string _ | axis .. | step .. | predicate .. | reference .. | call .. => .isTrue trivial

variable {e a b : Expr} {op : BinaryOp}

theorem computes_negate_iff : (∀ m ∈ (operator .negate a .hole).parts, m.Computes) ↔
    (∀ m ∈ a.parts, m.Computes) ∧ Fits (-a.integer) := by
  rw [parts, List.forall_mem_cons, parts, List.append_nil, and_comm, Computes]

theorem computes_binary_iff : (∀ m ∈ (operator (.binary op) a b).parts, m.Computes) ↔
    (∀ m ∈ a.parts, m.Computes) ∧ (∀ m ∈ b.parts, m.Computes) ∧
      op.Defined a.integer b.integer ∧ Fits (op.result a.integer b.integer) := by
  rw [parts, List.forall_mem_cons, List.forall_mem_append, Computes, and_comm, and_assoc]

theorem IsArithmetic.isNumeric (h : e.IsArithmetic) : e.isNumeric = true := by
  cases h with
  | number | negate => rfl
  | binary hop => exact hop

theorem IsArithmetic.isLocation (h : e.IsArithmetic) : e.isLocation = false := by
  cases h <;> rfl

end Expr

namespace Outcome

/-- The outcome is the text of a number where `p` holds, and a failure where it does not. -/
inductive ExactIf (p : Prop) (n : Int) : Outcome → Prop where
  | exact (hp : p) : ExactIf p n (.ofValue (Integer.text n))
  | fails (hp : ¬ p) (reason : Reason) : ExactIf p n (.failure reason)

variable {p q : Prop} {n m a b : Int} {outcome : Outcome} {value : Option String}
  {next : Int → Outcome} {op : BinaryOp}

theorem number?_some (text : String) : number? (some text) = ofText? (Text.trim text) := by
  rw [number?, Option.bind_some]

theorem number?_ofValue (text : String) :
    number? (ofValue text).value? = ofText? (Text.trim text) :=
  number?_some text

theorem ExactIf.congr (h : ExactIf p n outcome) (hpq : p ↔ q) : ExactIf q n outcome := by
  cases h with
  | exact hp => exact .exact (hpq.1 hp)
  | fails hp reason => exact .fails (fun hq => hp (hpq.2 hq)) reason

theorem ExactIf.holds_iff (h : ExactIf p n outcome) : outcome.holds = true ↔ p := by
  cases h with
  | exact hp => exact iff_of_true rfl hp
  | fails hp reason => exact iff_of_false Bool.false_ne_true hp

theorem ExactIf.eq (h : ExactIf p n outcome) (hp : p) : outcome = .ofValue (Integer.text n) := by
  cases h with
  | exact _ => rfl
  | fails hn reason => exact absurd hp hn

/-- As an operand, an exact outcome stands for its number again. -/
theorem ExactIf.number?_iff (h : ExactIf p n outcome) (hn : p → Fits n) :
    number? outcome.value? = some m ↔ p ∧ n = m := by
  cases h with
  | exact hp =>
    rw [number?_ofValue, ofText?_trim_text (hn hp), Option.some.injEq, and_iff_right hp]
  | fails hp reason => exact iff_of_false nofun fun h => hp h.1

theorem exactIf_ofInteger (n : Int) : ExactIf (Fits n) n (ofInteger n) := by
  rw [ofInteger]
  by_cases h : Fits n
  · rw [fit?_of_fits h]
    exact .exact h
  · rw [fit?_of_not_fits h]
    exact .fails h .overflow

theorem exactIf_ofArithmetic (hop : op.isArithmetic = true) (ha : Fits a) :
    ExactIf (op.Defined a b ∧ Fits (op.result a b)) (op.result a b) (ofArithmetic op a b) := by
  rw [ofArithmetic, BinaryOp.compares?_of_isArithmetic hop]
  by_cases h : op.Defined a b
  · rw [BinaryOp.exact_of_defined hop ha h]
    exact (exactIf_ofInteger _).congr (and_iff_right h).symm
  · obtain ⟨reason, hr⟩ := BinaryOp.exact_of_not_defined ha h
    rw [hr]
    exact .fails (fun hd => h hd.1) reason

theorem exactIf_ofNumber {k : Int} (hv : ∀ m, number? value = some m ↔ p ∧ n = m)
    (hnext : p → ExactIf q k (next n)) : ExactIf (p ∧ q) k (ofNumber value next) := by
  by_cases hp : p
  · rw [ofNumber_of_number? ((hv n).2 ⟨hp, rfl⟩)]
    exact (hnext hp).congr (and_iff_right hp).symm
  · have hnone : number? value = none :=
      Option.eq_none_iff_forall_ne_some.2 fun m hm => hp ((hv m).1 hm).1
    cases value with
    | none => exact .fails (fun h => hp h.1) .noValue
    | some text =>
      have hfails : ofNumber (some text) next = .failure (.notANumber text) := by
        rw [number?_some] at hnone
        simp only [ofNumber, ofValue?, hnone]
      rw [hfails]
      exact .fails (fun h => hp h.1) _

end Outcome

namespace Context

open Outcome

variable {ctx : Context} {e l r : Expr} {left right : Outcome} {start : Option String}
  {scope : Scope} {op : BinaryOp}

theorem operand_arithmetic (h : e.IsArithmetic) (outcome : Outcome) :
    ctx.operand e outcome = outcome := by
  cases h <;> rfl

theorem leftValue_arithmetic (h : e.IsArithmetic) (outcome : Outcome) :
    ctx.leftValue e outcome = outcome.value? := by
  cases h <;> rfl

theorem operate_arithmetic (hop : op.isArithmetic = true) (hl : l.IsArithmetic)
    (hr : r.IsArithmetic) :
    ctx.operate (.binary op) l r left right =
      .ofNumber left.value? fun a => .ofNumber right.value? fun b => .ofArithmetic op a b := by
  have hvalues : op ∉ [BinaryOp.or, .and, .union] := by
    cases op with
    | plus | minus | times | div | mod => decide
    | _ => cases hop
  rw [operate_values hvalues, if_pos hr.isNumeric, if_neg (by simp [hl.isLocation]),
    leftValue_arithmetic hl]

theorem operate_negate (hl : l.IsArithmetic) :
    ctx.operate .negate l r left right = .ofNumber left.value? fun n => .ofInteger (-n) := by
  rw [operate, if_pos hl.isNumeric, leftValue_arithmetic hl]

/-- An arithmetic operand stands for the number of its tree, if all its nodes have theirs. -/
def Represents (ctx : Context) (e : Expr) : Prop :=
  ∀ start scope n, number? ((evaluate ctx e start).run scope).1.value? = some n ↔
    (∀ m ∈ e.parts, m.Computes) ∧ e.integer = n

theorem represents_number (ctx : Context) (text : String) : ctx.Represents (.number text) := by
  intro start scope n
  have heval : ((evaluate ctx (.number text) start).run scope).1 = .ofValue text := by
    rw [evaluate]
    rfl
  rw [heval, number?_ofValue, Expr.parts, List.forall_mem_singleton, Expr.Computes, Expr.integer]
  cases ofText? (Text.trim text) <;> simp

theorem fits_of_represents (h : ctx.Represents e) (hc : ∀ m ∈ e.parts, m.Computes) :
    Fits e.integer := by
  obtain ⟨text, -, ht⟩ := Option.bind_eq_some_iff.1 ((h none {} e.integer).2 ⟨hc, rfl⟩)
  exact fits_of_ofText? ht

theorem exactIf_negate (hl : l.IsArithmetic) (h : ctx.Represents l) (start : Option String)
    (scope : Scope) :
    ExactIf (∀ m ∈ (Expr.operator .negate l .hole).parts, m.Computes) (-l.integer)
      ((evaluate ctx (.operator .negate l .hole) start).run scope).1 := by
  have heval : ((evaluate ctx (.operator .negate l .hole) start).run scope).1 =
      ctx.operate .negate l .hole (ctx.operand l ((evaluate ctx l start).run scope).1)
        (.failure .missingNode) := by
    rw [evaluate, if_neg (by decide)]
    rfl
  rw [heval, operand_arithmetic hl, operate_negate hl]
  exact (exactIf_ofNumber (h start scope)
    fun _ => exactIf_ofInteger (-l.integer)).congr Expr.computes_negate_iff.symm

theorem exactIf_binary (hop : op.isArithmetic = true) (hl : l.IsArithmetic) (hr : r.IsArithmetic)
    (h : ctx.Represents l) (h' : ctx.Represents r) (start : Option String) (scope : Scope) :
    ExactIf (∀ m ∈ (Expr.operator (.binary op) l r).parts, m.Computes)
      (op.result l.integer r.integer)
      ((evaluate ctx (.operator (.binary op) l r) start).run scope).1 := by
  have hunion : op ≠ .union := by
    rintro rfl
    cases hop
  -- The right operand may be evaluated in another scope, which does not change what it represents.
  obtain ⟨after, hafter⟩ : ∃ after, ((evaluate ctx l start).run scope).2 = after := ⟨_, rfl⟩
  have hoperands : ((ctx.operands l r start).run scope).1 =
      (((evaluate ctx l start).run scope).1, ((evaluate ctx r start).run after).1) := by
    rw [← hafter]
    exact Prod.ext (operand_arithmetic hl _) (operand_arithmetic hr _)
  have heval : ((evaluate ctx (.operator (.binary op) l r) start).run scope).1 =
      .ofNumber ((evaluate ctx l start).run scope).1.value? fun a =>
        .ofNumber ((evaluate ctx r start).run after).1.value? fun b => .ofArithmetic op a b := by
    rw [evaluate_binary hunion, hoperands, operate_arithmetic hop hl hr]
  rw [heval]
  refine ExactIf.congr (exactIf_ofNumber (h start scope) fun hc => ?_) Expr.computes_binary_iff.symm
  exact exactIf_ofNumber (h' start after) fun _ =>
    exactIf_ofArithmetic hop (fits_of_represents h hc)

/-- An operator on arithmetic operands is exact if every node of its tree has the number
that it comes to. -/
theorem represents_arithmetic (ctx : Context) (h : e.IsArithmetic) : ctx.Represents e := by
  induction h with
  | number text => exact represents_number ctx text
  | negate ha ih =>
    intro start scope n
    exact (exactIf_negate ha ih start scope).number?_iff fun hc => (Expr.computes_negate_iff.1 hc).2
  | binary hop ha hb iha ihb =>
    intro start scope n
    exact (exactIf_binary hop ha hb iha ihb start scope).number?_iff fun hc =>
      (Expr.computes_binary_iff.1 hc).2.2.2

/-- Arithmetic on numbers holds exactly if every number is one of 64 bits, nothing is divided by
zero, 64 bits hold every result on the way, and no remainder is taken of the least number by -1. Its
value is the text of the exact result. -/
theorem evaluate_arithmetic (ctx : Context) (e : Expr) (start : Option String) (scope : Scope)
    (h : e.IsArithmetic) (hop : ∀ text, e ≠ .number text) :
    let outcome := ((evaluate ctx e start).run scope).1
    (outcome.holds = true ↔ ∀ m ∈ e.parts, m.Computes) ∧
      ((∀ m ∈ e.parts, m.Computes) → outcome = .ofValue (Integer.text e.integer)) := by
  cases h with
  | number text => exact absurd rfl (hop text)
  | negate ha =>
    have hexact := exactIf_negate ha (represents_arithmetic ctx ha) start scope
    exact ⟨hexact.holds_iff, hexact.eq⟩
  | binary hbinary ha hb =>
    have hexact :=
      exactIf_binary hbinary ha hb (represents_arithmetic ctx ha)
        (represents_arithmetic ctx hb) start scope
    exact ⟨hexact.holds_iff, hexact.eq⟩

/-- The tree of `-9223372036854775807 - 1`. -/
def leastNumber : Expr :=
  .operator (.binary .minus) (.operator .negate (.number "9223372036854775807") .hole) (.number "1")

/-- The least number is exact, and the remainder of it by -1 fails. -/
theorem evaluate_arithmetic_least :
    let remainder :=
      Expr.operator (.binary .mod) leastNumber (.operator .negate (.number "1") .hole)
    leastNumber.IsArithmetic ∧ (∀ text, leastNumber ≠ .number text) ∧
      ((evaluate atNine leastNumber none).run {}).1 = .ofValue "-9223372036854775808" ∧
      remainder.IsArithmetic ∧ (∀ text, remainder ≠ .number text) ∧
      ¬ ((evaluate atNine remainder none).run {}).1.holds = true := by
  intro remainder
  have hleast : leastNumber.IsArithmetic := .binary rfl (.negate (.number _)) (.number _)
  have hremainder : remainder.IsArithmetic := .binary rfl hleast (.negate (.number _))
  obtain ⟨-, hvalue⟩ := evaluate_arithmetic atNine leastNumber none {} hleast nofun
  obtain ⟨hholds, -⟩ := evaluate_arithmetic atNine remainder none {} hremainder nofun
  refine ⟨hleast, nofun, ?_, hremainder, nofun, fun h => ?_⟩
  · have htext : Integer.text leastNumber.integer = "-9223372036854775808" := by decide +kernel
    rw [← htext]
    exact hvalue (by decide +kernel)
  · exact absurd (hholds.1 h) (by decide +kernel)

end Context

end YangConstraint
