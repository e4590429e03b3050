import YangConstraint.Eval.Outcome
import YangConstraint.Schema.Basic
import YangConstraint.Settings.Basic
import YangConstraint.Store
import YangConstraint.Text.Basic

/-! What an evaluation reads, and the lookups in it: the tree comes first, then the data outside. -/
namespace YangConstraint

/-- What all evaluations against one schema and one source of data share. -/
structure Environment where
  schema : Schema
  source : DataSource
  settings : Settings := {}

structure Context extends Environment where
  /-- The path of the node that the expression belongs to. -/
  path : String
  data : DataTree
  /-- Set while names stand for features. -/
  ofFeatures : Bool := false

/-- What evaluation remembers within one location path. -/
structure Scope where
  /-- Whether a child test has been read from the parent of the context node. -/
  reanchored : Bool := false
deriving DecidableEq

namespace Context

/-- The same context where names stand for features. -/
def forFeatures (ctx : Context) : Context := { ctx with ofFeatures := true }

variable (ctx : Context) (path : String)

/-- The node at a path, in the tree or outside. -/
def node? : Option DataTree :=
  (ctx.data.find? path).or (if ctx.settings.storeFallback then ctx.source.tree? path else none)

/-- A stored value as the schema translates it at a path. -/
def translate (value : String) : String :=
  ((ctx.schema.lookup path).map (ctx.schema.stored · value)).getD value

/-- The translated value at a path, which need not have one, if there is a node. -/
def existing? : Option (Option String) :=
  (ctx.node? path).map fun node => node.value.map (ctx.translate path)

/-- The value at a path as it is stored. -/
def stored? : Option String :=
  match ctx.data.find? path with
  | some node => node.value
  | none => if ctx.settings.storeFallback then ctx.source.value? path else none

def childCount : Nat := ((ctx.node? path).map (·.children.length)).getD 0

/-- Looks up what a path leads to. -/
def resolve (resolved : Resolved) : Outcome :=
  .ofValue? resolved.value fun path =>
    match ctx.existing? path with
    | some stored => .success ⟨path, stored⟩
    | none => .failure (.pathNotFound path)

/-- Whether the node of the context is under a feature. -/
def featureEnabled (feature : String) : Bool :=
  ((ctx.schema.lookup ctx.path).bind ctx.schema.features?).any fun features =>
    Text.occursIn feature.toList features.toList

/-- Whether the node of the context lies in a node that is neither a list nor a leaf. -/
def inContainer : Bool :=
  ((ctx.schema.lookup ctx.path).bind ctx.schema.parent?).any ctx.schema.isContainer

end Context

end YangConstraint
