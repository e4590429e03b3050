import YangConstraint.Eval.Function
import YangConstraint.Expr.Parse

/-!
The outcome of an expression. Both operands of an operator and all arguments of a function are
evaluated, one after the other, within one scope. A location path has a scope of its own.
-/
namespace YangConstraint

mutual

/-- The outcome of an expression where `start` is the path that has been reached, if any. -/
def evaluate (ctx : Context) : Expr → (start : Option String) → StateM Scope Outcome
  | .hole, _ => return .failure .missingNode
  | .string value, _ => return .ofValue value
  | .number text, _ => return .ofValue text
  | .operator op left right, start => do
    if op = .binary .union then return .failure .unsupportedUnion
    let l ← evaluate ctx left start
    let r ← evaluate ctx right start
    return ctx.operate op left right (ctx.operand left l) (ctx.operand right r)
  | .axis axis _ _ name, start => ctx.along start axis name
  | .step left right, start => do
    let base := start.getD ctx.path
    let (l, scope) := (evaluate ctx left (some base)).run {}
    if right.isHole then return l.bind ctx.resolve
    let r := ((evaluate ctx right (some (l.value?.getD base))).run scope).1
    return (l.andThen r).bind ctx.resolve
  | .predicate base condition _, start => do
    let outcome ← evaluate ctx base start
    if condition.isHole || !outcome.holds then return outcome
    let held ← evaluate ctx condition outcome.value?
    return if held.holds && held.value?.isNone then outcome else held
  | .reference _ name, _ => return .failure (.unresolvedVariable (name.getD ""))
  | .call _ name args, start => do
    match Function.ofName? name with
    | none => return .failure (.unknownFunction name)
    | some f =>
      let inner := if f = .ifFeature then ctx.forFeatures else ctx
      let outcomes ← if f.evaluates args.length then evaluateAll inner args start else pure []
      return ctx.apply f args outcomes

/-- The outcomes of expressions, one after the other. -/
def evaluateAll (ctx : Context) : List Expr → (start : Option String) → StateM Scope (List Outcome)
  | [], _ => return []
  | e :: es, start => do
    let outcome ← evaluate ctx e start
    return outcome :: (← evaluateAll ctx es start)

end

namespace Environment

variable (env : Environment)

/-- The context of the node at a path. -/
def context (path : String) (data : DataTree) : Context := { env with path, data }

/-- The outcome of an expression at the node at `path`. -/
def outcome (e : Expr) (path : String) (data : DataTree) : Outcome :=
  ((evaluate (env.context path data) e none).run {}).1

/-- Whether an expression holds. -/
def holds (e : Expr) (path : String) (data : DataTree) : Bool := (env.outcome e path data).holds

/-- Whether the expression that a text stands for holds. One without a tree does not. -/
def holdsText (text path : String) (data : DataTree) : Bool := env.holds (.ofText text) path data

end Environment

end YangConstraint
