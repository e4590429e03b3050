import YangConstraint.Expr.Builder

/-! A builder that records what it is asked for. A node is known by the place of the
call that makes it. -/
namespace YangConstraint

/-- An operation of a builder, with the numbers of the nodes it takes. -/
inductive BuildCall where
  | start
  | finish (result : Option Nat)
  | string (value : String)
  | number (text : String)
  | operator (op : Operator) (left right : Option Nat)
  | axis (axis : Axis) (type : NodeType) (qualifier name : Option String)
  | step (left right : Option Nat)
  | predicate (base condition : Option Nat) (reverse : Bool)
  | reference (qualifier name : Option String)
  | call (qualifier : Option String) (name : String) (args : List Nat)
deriving DecidableEq

namespace BuildCall

/-- Appends the call and gives its place. -/
def record (call : BuildCall) : StateM (Array BuildCall) Nat :=
  fun calls => (calls.size, calls.push call)

def recorder : Builder (StateM (Array BuildCall)) Nat where
  start := discard (record .start)
  finish result := do
    discard (record (.finish result))
    return result
  string value := record (.string value)
  number text := record (.number text)
  operator op left right := record (.operator op left right)
  axis axis type qualifier name := record (.axis axis type qualifier name)
  step left right := record (.step left right)
  predicate base condition reverse := record (.predicate base condition reverse)
  reference qualifier name := record (.reference qualifier name)
  call qualifier name args := record (.call qualifier name args)

end BuildCall

end YangConstraint
