import YangConstraint.Eval.Context

/-!
Where a location step leads. A step selects no nodes: it makes the path that it leads to out of the
path where it starts, by default the path of the context. Whether there is anything at that path
is looked up once for a whole location.
-/
namespace YangConstraint.Context

variable (ctx : Context) (start : Option String)

/-- A child. Starting at the context node itself, the first of them is one of the node around it,
unless that is a list or a leaf. -/
def child (name : String) : StateM Scope Outcome := fun scope =>
  if !scope.reanchored && start = some ctx.path && ctx.inContainer then
    (.ofValue (Path.join ((Path.parent? ctx.path).getD ctx.path) name), ⟨true⟩)
  else (.ofValue (Path.join (start.getD ctx.path) name), scope)

def parent : Outcome :=
  let base := start.getD ctx.path
  match Path.parent? base with
  | some above => .ofValue above
  | none => .failure (.noParent base)

/-- The node itself, once the path has left the context node; there, the node around it. -/
def self : Outcome :=
  match start.filter (· ≠ ctx.path) with
  | some path => .ofValue path
  | none => ctx.parent start

/-- A name where names stand for features. -/
def feature (name : String) : Outcome :=
  if ctx.featureEnabled name then .ofValue name else .failure (.featureDisabled name)

/-- The outcome of a step. -/
def along (axis : Axis) (name : Option String) : StateM Scope Outcome :=
  match axis, name with
  | .child, none | .attribute, none => return .failure .unnamedNodeTest
  | .child, some name => if ctx.ofFeatures then return ctx.feature name else ctx.child start name
  | .attribute, some name => return .ofValue (Path.join (start.getD ctx.path) name)
  | .parent, _ => return ctx.parent start
  | .self, _ => return ctx.self start
  | .root, _ => return .ofValue ""
  | axis, _ => return .failure (.unsupportedAxis axis)

end YangConstraint.Context
