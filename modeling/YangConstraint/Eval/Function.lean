import YangConstraint.Eval.Operator
import YangConstraint.Eval.Step

/-! The functions that a condition can call. A qualifier of the name means nothing. -/
namespace YangConstraint

inductive Function where
  | not
  | boolean
  | current
  | name
  | count
  /-- `derived-from()`, or `derived-from-or-self()`. -/
  | derivedFrom (orSelf : Bool)
  | ifFeature
deriving DecidableEq

namespace Function

def all : List Function :=
  [.not, .boolean, .current, .name, .count, .derivedFrom false, .derivedFrom true, .ifFeature]

def label : Function → String
  | .not => "not"
  | .boolean => "boolean"
  | .current => "current"
  | .name => "name"
  | .count => "count"
  | .derivedFrom false => "derived-from"
  | .derivedFrom true => "derived-from-or-self"
  | .ifFeature => "if-feature"

def ofName? (name : String) : Option Function := all.find? (·.label = name)

/-- The number of arguments, where it is fixed. -/
def arity? : Function → Option Nat
  | .name | .count | .ifFeature => some 1
  | .derivedFrom _ => some 2
  | .not | .boolean | .current => none

/-- Whether the function evaluates its arguments when there are `count` of them. -/
def evaluates (f : Function) (count : Nat) : Bool := f ≠ .current && f.arity?.all (· = count)

theorem ofName?_label (f : Function) : ofName? f.label = some f := by
  cases f with
  | derivedFrom orSelf => cases orSelf <;> decide
  | _ => decide

theorem label_of_ofName? {name : String} {f : Function} (h : ofName? name = some f) :
    f.label = name := by
  simpa using List.find?_some h

end Function

namespace Context

variable (ctx : Context)

/-- The last name of the path that the argument leads to. -/
def nameOf (outcome : Outcome) : Outcome :=
  outcome.bind fun resolved => .ofValue? (resolved.value.bind Path.lastSegment?) .ofValue

/-- The number of children at the path that the argument leads to. -/
def countOf (outcome : Outcome) : Outcome :=
  match outcome with
  | .success resolved =>
    .ofValue? resolved.value fun path => .ofValue (Integer.text (ctx.childCount path))
  | .failure (.pathNotFound _) => .ofValue "0"
  | .failure reason => .failure reason

/-- Whether an attribute of a schema node qualifies its name to `identity`. -/
def qualifies (node : Nat) (identity key : String) : Bool :=
  (ctx.schema.attribute? node key).any fun qualifier =>
    qualifier ++ ":" ++ ctx.schema.name node = identity

/-- Whether the schema node at the path of the first argument is known by the second. -/
def derivation (orSelf : Bool) (target identity : Outcome) : Outcome :=
  .ofValue? target.value? fun path =>
    .ofValue? identity.value? fun identity =>
      match ctx.schema.lookup path with
      | none => .failure (.noSchemaNode path)
      | some node =>
        .ofBool (ctx.qualifies node identity "idref_prefix" ||
          (orSelf && ctx.qualifies node identity "idref_self"))

/-- The feature that a literal names, or the outcome of another argument. -/
def featureOf (arg : Expr) (outcome : Outcome) : Outcome :=
  match arg with
  | .string name => ctx.feature name
  | _ => outcome

/-- The outcome of a function, from those of its arguments if it evaluates them. -/
def apply (f : Function) (args : List Expr) (outcomes : List Outcome) : Outcome :=
  match f, args, outcomes with
  | .not, _, _ => (Outcome.ofBool (outcomes.any Outcome.holds)).negate
  | .boolean, _, _ => .ofBool (outcomes.any Outcome.holds)
  | .current, _, _ => .ofValue ctx.path
  | .name, _, [outcome] => nameOf outcome
  | .count, _, [outcome] => ctx.countOf outcome
  | .derivedFrom orSelf, _, [target, identity] => ctx.derivation orSelf target identity
  | .ifFeature, [arg], [outcome] => ctx.featureOf arg outcome
  | _, _, _ => .failure (.argumentCount f.label (f.arity?.getD 0) args.length)

end Context

end YangConstraint
