import YangConstraint.Eval.Basic

/-! The conditions that a schema puts on its nodes, and the first of them that data violates. -/
namespace YangConstraint

inductive ConditionKind where
  | when
  | must
  | ifFeature
deriving DecidableEq

structure Condition where
  kind : ConditionKind
  expression : String
deriving DecidableEq

/-- A condition that does not hold at a path. -/
structure Violation where
  path : String
  condition : Condition
  reason : Reason
deriving DecidableEq

namespace ConditionKind

def all : List ConditionKind := [.when, .must, .ifFeature]

/-- The attribute that holds a condition of this kind. -/
def key : ConditionKind → String
  | .when => "when"
  | .must => "must"
  | .ifFeature => "if-feature"

end ConditionKind

/-- The text to evaluate. The names in a condition on features are read as features. -/
def Condition.text (condition : Condition) : String :=
  match condition.kind with
  | .ifFeature => "if-feature(" ++ condition.expression ++ ")"
  | .when | .must => condition.expression

def Violation.message (violation : Violation) : String :=
  let kind := violation.condition.kind.key
  let expression := violation.condition.expression
  let path := violation.path
  let reason := violation.reason.message
  s!"{kind} condition '{expression}' failed at '{path}': {reason}"

/-- The conditions of a schema node that are not blank. -/
def Schema.conditions (schema : Schema) (id : Nat) : List Condition :=
  ConditionKind.all.filterMap fun kind =>
    ((schema.attribute? id kind.key).filter (!Text.allBlank ·)).map (⟨kind, ·⟩)

namespace Environment

variable (env : Environment)

/-- Checks a condition at a path; nothing is wrong where it holds. -/
def violation? (condition : Condition) (path : String) (data : DataTree) : Option Violation :=
  (env.outcome (.ofText condition.text) path data).reason?.map (⟨path, condition, ·⟩)

/-- The first violation among the conditions of one node. A node without data is not checked. -/
def violationAt? (data : DataTree) (path : String) (node : DataTree) : Option Violation :=
  if node.hasData then
    (env.schema.lookup path).bind fun id =>
      (env.schema.conditions id).findSome? fun condition => env.violation? condition path data
  else none

/-- The first violation in a tree, each node before those below it. -/
def firstViolation? (data : DataTree) : Option Violation :=
  data.walk.findSome? fun place => env.violationAt? data place.1 place.2

end Environment

end YangConstraint
