import YangConstraint.Expr.Axis
import YangConstraint.Expr.Operator

/-! Expression trees. A malformed expression leaves holes in its tree. -/
namespace YangConstraint

inductive Expr where
  /-- The place of a missing subexpression. -/
  | hole
  | string (value : String)
  /-- A number literal, kept as it is written. -/
  | number (text : String)
  /-- Operands of an operator; the minus before an operand has it on the left. -/
  | operator (op : Operator) (left right : Expr)
  | axis (axis : Axis) (type : NodeType) (qualifier name : Option String)
  /-- A step, or what stands for one, and the rest of its path. -/
  | step (left right : Expr)
  | predicate (base condition : Expr) (reverse : Bool)
  | reference (qualifier name : Option String)
  | call (qualifier : Option String) (name : String) (args : List Expr)

namespace Expr

instance : Inhabited Expr := ⟨hole⟩

/-- Whether the value is a number by the form of the expression. -/
def isNumeric : Expr → Bool
  | number _ => true
  | operator op _ _ => op.isArithmetic
  | _ => false

def isHole : Expr → Bool
  | hole => true
  | _ => false

/-- The expression at a place where one may be missing. -/
def ofOption : Option Expr → Expr
  | some e => e
  | none => hole

def toOption : Expr → Option Expr
  | hole => none
  | e => some e

mutual

def same : Expr → Expr → Bool
  | hole, hole => true
  | string v, string w => v = w
  | number s, number t => s = t
  | operator o l r, operator p m s => o = p && (same l m && same r s)
  | axis a t q n, axis b u r m => a = b && (t = u && (q = r && n = m))
  | step l r, step m s => same l m && same r s
  | predicate b c v, predicate d e w => same b d && (same c e && v = w)
  | reference q n, reference r m => q = r && n = m
  | call q n as, call r m bs => q = r && (n = m && sameAll as bs)
  | _, _ => false

def sameAll : List Expr → List Expr → Bool
  | [], [] => true
  | a :: as, b :: bs => same a b && sameAll as bs
  | _, _ => false

end

mutual

theorem same_iff (a b : Expr) : same a b = true ↔ a = b := by
  cases a with
  | operator o l r => cases b <;> simp [same, same_iff l, same_iff r]
  | step l r => cases b <;> simp [same, same_iff l, same_iff r]
  | predicate d c v => cases b <;> simp [same, same_iff d, same_iff c]
  | call q n as => cases b <;> simp [same, sameAll_iff as]
  | _ => cases b <;> simp [same]

theorem sameAll_iff (as bs : List Expr) : sameAll as bs = true ↔ as = bs := by
  cases as with
  | nil => cases bs <;> simp [sameAll]
  | cons a as =>
    cases bs with
    | nil => simp [sameAll]
    | cons b bs =>
      simp only [sameAll, Bool.and_eq_true, List.cons.injEq]
      rw [same_iff a, sameAll_iff as]

end

instance : DecidableEq Expr := fun a b => decidable_of_iff _ (same_iff a b)

theorem toOption_ofOption {e : Option Expr} (h : e ≠ some hole) : (ofOption e).toOption = e := by
  cases e with
  | none => rfl
  | some e => cases e <;> simp_all [ofOption, toOption]

theorem ofOption_toOption (e : Expr) : ofOption e.toOption = e := by
  cases e <;> rfl

end Expr

end YangConstraint
