import YangConstraint.Eval.Context
import YangConstraint.Expr.Basic
import YangConstraint.Text.Blank
import YangConstraint.Text.Integer

/-!
What operators make of their operands. The form of an operand, the right one of two, decides whether
numbers are meant; where they are not, only equality is defined.
-/
namespace YangConstraint

namespace BinaryOp

/-- The exact result of an arithmetic operator. A remainder by -1 is taken only
where the quotient fits. -/
def exact (op : BinaryOp) (a b : Int) : Except Reason Int :=
  match op with
  | plus => .ok (a + b)
  | minus => .ok (a - b)
  | times => .ok (a * b)
  | div => if b = 0 then .error .divisionByZero else .ok (a.tdiv b)
  | mod =>
    if b = 0 then .error .divisionByZero
    else if (Integer.fit? (a.tdiv b)).isNone then .error .overflow
    else .ok (a.tmod b)
  | _ => .error .nonNumericOperands

/-- Whether two numbers compare as the operator says, for those operators that compare. -/
def compares? (op : BinaryOp) (a b : Int) : Option Bool :=
  match op with
  | eq => some (a = b)
  | ne => some (a ≠ b)
  | lt => some (a < b)
  | le => some (a ≤ b)
  | gt => some (b < a)
  | ge => some (b ≤ a)
  | _ => none

end BinaryOp

namespace Outcome

/-- The text of a number, if 64 bits hold it. -/
def ofInteger (n : Int) : Outcome :=
  match Integer.fit? n with
  | some n => .ofValue (Integer.text n)
  | none => .failure .overflow

/-- The outcome of the number that a value stands for. -/
def ofNumber (value : Option String) (next : Int → Outcome) : Outcome :=
  .ofValue? value fun text =>
    match Integer.ofText? (Text.trim text) with
    | some n => next n
    | none => .failure (.notANumber text)

/-- The outcome of an operator on two numbers. -/
def ofArithmetic (op : BinaryOp) (a b : Int) : Outcome :=
  match op.compares? a b with
  | some holds => .ofBool holds
  | none =>
    match op.exact a b with
    | .ok n => .ofInteger n
    | .error reason => .failure reason

/-- The outcome of an operator on operands that are no numbers. -/
def ofTexts (op : BinaryOp) (left right : Outcome) (a b : Option String) : Outcome :=
  match op with
  | .eq => (left.andThen right).bind fun _ => .ofBool (a = b)
  | .ne => (left.andThen right).bind fun _ => .ofBool (a ≠ b)
  | _ => .failure .nonNumericOperands

end Outcome

namespace Expr

/-- Whether the expression is a path, so that it is compared by the value stored there. -/
def isLocation : Expr → Bool
  | step .. | axis .. => true
  | _ => false

/-- Whether the expression is a call whose value names a path in comparisons. -/
def namesPath : Expr → Bool
  | call _ name _ => name = "current" || name = "boolean"
  | _ => false

/-- The value by which an operand is compared. -/
def compared (e : Expr) (outcome : Outcome) : Option String :=
  if e.isLocation then outcome.stored? else outcome.value?

end Expr

namespace Context

variable (ctx : Context)

/-- An operand that is a single step is looked up as a whole location is. -/
def operand (e : Expr) (outcome : Outcome) : Outcome :=
  match e with
  | .axis .. => if ctx.ofFeatures then outcome else outcome.bind ctx.resolve
  | _ => outcome

/-- The value of the left operand. -/
def leftValue (e : Expr) (outcome : Outcome) : Option String :=
  if e.namesPath then outcome.value?.bind ctx.stored? else e.compared outcome

/-- The text that is compared with a location: without its qualifier, and as the schema of the
location translates it. -/
def comparable (left : Expr) (outcome : Outcome) (value : String) : String :=
  let value := Path.unqualified value
  match if left.isLocation then outcome.value? else none with
  | some path => ctx.translate path value
  | none => value

/-- The outcome of an operator, from those of its operands. -/
def operate (op : Operator) (left right : Expr) (l r : Outcome) : Outcome :=
  match op with
  | .negate =>
    if left.isNumeric then .ofNumber (ctx.leftValue left l) fun n => .ofInteger (-n)
    else .failure .nonNumericOperands
  | .binary .union => .failure .unsupportedUnion
  | .binary .or => .ofBool (l.holds || r.holds)
  | .binary .and => .ofBool (l.holds && r.holds)
  | .binary op =>
    if right.isNumeric then
      if left.isLocation then .failure .stepOperand
      else
        .ofNumber (ctx.leftValue left l) fun a =>
          .ofNumber r.value? fun b => .ofArithmetic op a b
    else
      .ofTexts op l r (ctx.leftValue left l) ((right.compared r).map (ctx.comparable left l))

end Context

end YangConstraint
