/-! Axes and node types, the two halves of a location step. -/
namespace YangConstraint

/-- The direction of a step. The document root, which a leading slash denotes, has no
name of its own. -/
inductive Axis where
  | root
  | ancestor | ancestorOrSelf
  | attribute
  | child
  | descendant | descendantOrSelf
  | following | followingSibling
  | nameSpace
  | parent
  | preceding | precedingSibling
  | self
deriving DecidableEq

/-- What kind of node a step selects; a name test selects elements on most axes. -/
inductive NodeType where
  | element
  | any
  | text
  | processingInstruction
  | comment
  | attribute
  | nameSpace
deriving DecidableEq

namespace Axis

/-- The axes that can be written by name. -/
def named : List Axis :=
  [.ancestor, .ancestorOrSelf, .attribute, .child, .descendant, .descendantOrSelf, .following,
    .followingSibling, .nameSpace, .parent, .preceding, .precedingSibling, .self]

def name : Axis → String
  | .root => ""
  | .ancestor => "ancestor"
  | .ancestorOrSelf => "ancestor-or-self"
  | .attribute => "attribute"
  | .child => "child"
  | .descendant => "descendant"
  | .descendantOrSelf => "descendant-or-self"
  | .following => "following"
  | .followingSibling => "following-sibling"
  | .nameSpace => "namespace"
  | .parent => "parent"
  | .preceding => "preceding"
  | .precedingSibling => "preceding-sibling"
  | .self => "self"

def ofName? (name : String) : Option Axis := named.find? (·.name = name)

/-- Whether the axis runs backwards in document order. -/
def isReverse : Axis → Bool
  | .ancestor | .ancestorOrSelf | .preceding | .precedingSibling => true
  | _ => false

/-- The type that a name test selects on the axis. -/
def principal : Axis → NodeType
  | .attribute => .attribute
  | .nameSpace => .nameSpace
  | _ => .element

theorem ofName?_name {axis : Axis} (h : axis ≠ .root) : ofName? axis.name = some axis := by
  cases axis with
  | root => exact absurd rfl h
  | _ => decide

theorem name_of_ofName? {name : String} {axis : Axis} (h : ofName? name = some axis) :
    axis.name = name ∧ axis ≠ .root := by
  refine ⟨by simpa using List.find?_some h, ?_⟩
  rintro rfl
  exact absurd (List.mem_of_find?_eq_some h) (by decide)

end Axis

namespace NodeType

/-- The types with a keyword, written before an opening parenthesis. -/
def keywords : List NodeType := [.any, .text, .comment, .processingInstruction]

def keyword? : NodeType → Option String
  | .any => some "node"
  | .text => some "text"
  | .comment => some "comment"
  | .processingInstruction => some "processing-instruction"
  | .element | .attribute | .nameSpace => none

def ofKeyword? (word : String) : Option NodeType := keywords.find? (·.keyword? = some word)

theorem ofKeyword?_eq_some_iff {word : String} {type : NodeType} :
    ofKeyword? word = some type ↔ type.keyword? = some word := by
  constructor
  · intro h
    simpa using List.find?_some h
  · intro h
    cases type <;> simp only [keyword?, Option.some.injEq, reduceCtorEq] at h <;> subst h <;> decide

end NodeType

end YangConstraint
