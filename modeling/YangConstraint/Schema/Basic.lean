import YangConstraint.Path

/-!
Schemas: nodes in a table, known by their place in it. The first is a virtual root that holds the
top-level nodes. What is asked of a place without a node is answered as for a node without anything.
-/
namespace YangConstraint

structure SchemaNode where
  name : String := ""
  attributes : List (String × String) := []
  /-- Pairs of a configured name and the value stored for it. -/
  values : List (String × String) := []
  parent : Option Nat := none
  children : List Nat := []
deriving DecidableEq

structure Schema where
  nodes : Array SchemaNode
  rooted : 0 < nodes.size

namespace Schema

/-- The schema of a virtual root alone. -/
def empty : Schema := ⟨#[{}], by decide⟩

instance : Inhabited Schema := ⟨empty⟩

def root : Nat := 0

/-- The number of nodes, without the root. -/
def size (schema : Schema) : Nat := schema.nodes.size - 1

def contains (id : Nat) (schema : Schema) : Bool := id < schema.nodes.size

def node (schema : Schema) (id : Nat) : SchemaNode := schema.nodes[id]?.getD {}

/-- Changes a node, if there is one at this place. -/
def modify (id : Nat) (change : SchemaNode → SchemaNode) (schema : Schema) : Schema :=
  ⟨schema.nodes.modify id change, by simpa using schema.rooted⟩

/-- Appends a node and enters it below `parent`; below an unknown place nothing leads to it. -/
def addNode (parent : Nat) (name : String) (schema : Schema) : Nat × Schema :=
  let id := schema.nodes.size
  let grown : Schema := ⟨schema.nodes.push { name, parent := some parent }, by simp⟩
  (id, grown.modify parent fun node => { node with children := node.children ++ [id] })

/-- Puts the value of an attribute in the place of an earlier one. -/
def setAttribute (id : Nat) (key value : String) (schema : Schema) : Schema :=
  schema.modify id fun node =>
    { node with attributes := (key, value) :: node.attributes.filter (·.1 ≠ key) }

/-- Adds an enumeration entry: the configured name and the value stored for it. -/
def addValue (id : Nat) (name value : String) (schema : Schema) : Schema :=
  schema.modify id fun node => { node with values := node.values ++ [(name, value)] }

variable (schema : Schema) (id : Nat)

def name : String := (schema.node id).name

def children : List Nat := (schema.node id).children

def values : List (String × String) := (schema.node id).values

/-- The value of an attribute; the name of a node is one of them. -/
def attribute? (key : String) : Option String :=
  if key = "name" then some (schema.name id)
  else ((schema.node id).attributes.find? (·.1 = key)).map (·.2)

/-- The enclosing node. A top-level node has none. -/
def parent? : Option Nat := (schema.node id).parent.filter (· ≠ root)

/-- Whether the node holds a single value. -/
def isLeaf : Bool :=
  (schema.children id).isEmpty &&
    ((schema.node id).attributes.any (·.1 = "mode") || !(schema.values id).isEmpty)

/-- The placeholder that stands for the entries of a list. -/
def entry? : Option Nat :=
  match schema.children id with
  | [only] => if schema.name only = "*" then some only else none
  | _ => none

def isList : Bool := (schema.entry? id).isSome

/-- Whether the node is a list whose entries have nothing below them. -/
def isLeafList : Bool := (schema.entry? id).any fun entry => (schema.children entry).isEmpty

/-- Whether the node is neither a leaf nor a list. -/
def isContainer : Bool := !schema.isLeafList id && !schema.isList id && !schema.isLeaf id

def childNamed? (name : String) : Option Nat := (schema.children id).find? (schema.name · = name)

/-- The node that follows another in a list. -/
def next? (siblings : List Nat) : Option Nat := (siblings.dropWhile (· ≠ id))[1]?

/-- The following sibling in document order. -/
def nextSibling? : Option Nat :=
  (schema.node id).parent.bind fun parent => next? id (schema.children parent)

/-- The following child of the enclosing node. -/
def nextBelowParent? : Option Nat :=
  (schema.parent? id).bind fun parent => next? id (schema.children parent)

/-- The child that a path segment leads to: one of that name, else one of that name without its
qualifier, else the placeholder for list entries. -/
def child? (segment : String) : Option Nat :=
  (schema.childNamed? id segment).or
    (((Text.afterFirst? ':' segment).bind (schema.childNamed? id)).or (schema.childNamed? id "*"))

/-- The node that the segments of a path lead to. No segments lead nowhere. -/
def lookupFrom (path : String) : Option Nat :=
  match Path.segments path with
  | [] => none
  | segment :: rest => (schema.child? id segment).bind fun child => rest.foldlM schema.child? child

def lookup (path : String) : Option Nat := schema.lookupFrom root path

/-- The stored value for a configured one. -/
def stored (value : String) : String :=
  ((schema.values id).find? (·.1 = value)).elim value (·.2)

/-- The configured value for a stored one, by default for the node's default. -/
def configured? (value : Option String) : Option String :=
  (value.or (schema.attribute? id "default")).map fun value =>
    ((schema.values id).find? (·.2 = value)).elim value (·.1)

/-- The node and those that enclose it, from the inside out. -/
def lineage (id : Nat) : List Nat :=
  id :: match schema.parent? id with
    | some parent => if parent < id then lineage parent else []
    | none => []
termination_by id

/-- The features that the node is under: those of the innermost node that names any. -/
def features? : Option String :=
  ((schema.lineage id).filterMap (schema.attribute? · "features")).find? (· ≠ "")

end Schema

namespace Schema

/-- Goes from `id` along the names, adding the nodes that are missing. -/
def insertNames (id : Nat) : List String → Schema → Nat × Schema
  | [], schema => (id, schema)
  | name :: names, schema =>
    match schema.childNamed? id name with
    | some child => insertNames child names schema
    | none =>
      let (child, grown) := schema.addNode id name
      insertNames child names grown

/-- The node at a path, with the nodes on the way to it. -/
def insertPath (path : String) (schema : Schema) : Nat × Schema :=
  insertNames root (Path.segments path) schema

end Schema

end YangConstraint
