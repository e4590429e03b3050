import YangConstraint.Expr.Axis

/-! Outcomes of expressions: something that one resolves to, or the reason why it does not hold. -/
namespace YangConstraint

structure Resolved where
  /-- A literal, a number, or the path that a location leads to. -/
  value : Option String := none
  /-- The value stored at the path, where it was looked up. -/
  stored : Option String := none
deriving DecidableEq

/-- Why an expression does not hold. -/
inductive Reason where
  | missingNode
  | notSatisfied
  | pathNotFound (path : String)
  | noSchemaNode (path : String)
  | noParent (path : String)
  | unsupportedAxis (axis : Axis)
  | unnamedNodeTest
  | unsupportedUnion
  | unresolvedVariable (name : String)
  | unknownFunction (name : String)
  | argumentCount (function : String) (expected found : Nat)
  | noValue
  | notANumber (text : String)
  | stepOperand
  | nonNumericOperands
  | divisionByZero
  | overflow
  | featureDisabled (feature : String)
deriving DecidableEq

inductive Outcome where
  | success (resolved : Resolved)
  | failure (reason : Reason)
deriving DecidableEq

def Reason.message : Reason → String
  | missingNode => "expression is incomplete"
  | notSatisfied => "condition does not hold"
  | pathNotFound path => s!"no data at '{path}'"
  | noSchemaNode path => s!"no schema node at '{path}'"
  | noParent path => s!"'{path}' has no parent"
  | unsupportedAxis axis =>
    let name := axis.name
    s!"axis '{name}' is not supported"
  | unnamedNodeTest => "wildcard and node-type tests cannot be resolved to a path"
  | unsupportedUnion => "node-set union is not supported"
  | unresolvedVariable name => s!"variable '${name}' is not bound"
  | unknownFunction name => s!"unknown function '{name}()'"
  | argumentCount function expected found =>
    s!"{function}() expects {expected} argument(s), got {found}"
  | noValue => "operand has no value"
  | notANumber text => s!"'{text}' is not an integer"
  | stepOperand => "location path used as an arithmetic operand"
  | nonNumericOperands => "operator requires numeric operands"
  | divisionByZero => "division by zero"
  | overflow => "integer overflow"
  | featureDisabled feature => s!"feature '{feature}' is not enabled"

namespace Outcome

/-- A success without a value, as comparisons have it. -/
def plain : Outcome := .success {}

def ofValue (value : String) : Outcome := .success { value := some value }

def ofBool (holds : Bool) : Outcome := if holds then plain else .failure .notSatisfied

def holds : Outcome → Bool
  | success _ => true
  | failure _ => false

def value? : Outcome → Option String
  | success resolved => resolved.value
  | failure _ => none

def stored? : Outcome → Option String
  | success resolved => resolved.stored
  | failure _ => none

def reason? : Outcome → Option Reason
  | success _ => none
  | failure reason => some reason

/-- The opposite, which has no value. -/
def negate (outcome : Outcome) : Outcome := ofBool !outcome.holds

/-- The second outcome, unless the first is a failure. -/
def andThen : Outcome → Outcome → Outcome
  | success _, second => second
  | failure reason, _ => failure reason

/-- The outcome of what a success resolves to. -/
def bind : Outcome → (Resolved → Outcome) → Outcome
  | success resolved, next => next resolved
  | failure reason, _ => failure reason

/-- The outcome of the value of a success. -/
def ofValue? : Option String → (String → Outcome) → Outcome
  | some value, next => next value
  | none, _ => failure .noValue

variable {holds : Bool} {outcome : Outcome}

@[simp] theorem holds_plain : plain.holds = true := rfl

@[simp] theorem holds_ofValue {value : String} : (ofValue value).holds = true := rfl

@[simp] theorem holds_ofBool : (ofBool holds).holds = holds := by cases holds <;> rfl

@[simp] theorem holds_negate : outcome.negate.holds = !outcome.holds := by simp [negate]

theorem reason?_eq_none_iff : outcome.reason? = none ↔ outcome.holds = true := by
  cases outcome <;> simp [reason?, Outcome.holds]

end Outcome

end YangConstraint
