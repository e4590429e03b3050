import YangConstraint.Expr.Basic

/-!
What a parser makes of an expression. Each production ends in one operation of a builder, which is
chosen for each parse; an operand that could not be read is missing.
-/
namespace YangConstraint

structure Builder (m : Type → Type) (α : Type) where
  /-- Runs before the first token is read. -/
  start : m Unit
  /-- Makes the answer out of the whole result. -/
  finish (result : Option α) : m (Option α)
  string (value : String) : m α
  number (text : String) : m α
  /-- Takes the operand of a negation on the left. -/
  operator (op : Operator) (left right : Option α) : m α
  axis (axis : Axis) (type : NodeType) (qualifier name : Option String) : m α
  step (left right : Option α) : m α
  predicate (base condition : Option α) (reverse : Bool) : m α
  reference (qualifier name : Option String) : m α
  call (qualifier : Option String) (name : String) (args : List α) : m α

/-- Builds the expression tree. -/
def Expr.builder : Builder Id Expr where
  start := ()
  finish result := result
  string := .string
  number := .number
  operator op left right := .operator op (.ofOption left) (.ofOption right)
  axis := .axis
  step left right := .step (.ofOption left) (.ofOption right)
  predicate base condition := .predicate (.ofOption base) (.ofOption condition)
  reference := .reference
  call := .call

end YangConstraint
