import YangConstraint.Schema.Basic
import YangConstraint.Xml.Element

/-!
Schemas written in XML: `NODE` elements nest, and the `VALUE` elements in one of them are its
enumeration. All other elements are passed over with what is in them.
-/
namespace YangConstraint

inductive SchemaError where
  | malformed
  /-- A `NODE` without a name. -/
  | unnamed (offset : Nat)
  /-- A `VALUE` that lacks its name or its value. -/
  | incomplete (offset : Nat)
deriving DecidableEq

def SchemaError.message : SchemaError → String
  | malformed => "Schema XML is malformed:"
  | unnamed offset => s!"Schema is invalid: NODE at byte {offset} has no name"
  | incomplete offset => s!"Schema is invalid: VALUE at byte {offset} needs both name and value"

namespace Schema

/-- The value of an attribute, the first where several have its name. -/
def written? (key : String) (attributes : List (String × String)) : Option String :=
  (attributes.find? (·.1 = key)).map (·.2)

/-- Sets the attributes apart from the name, each in the place of an earlier one. -/
def setAttributes (id : Nat) (attributes : List (String × String)) (schema : Schema) : Schema :=
  (attributes.filter (·.1 ≠ "name")).foldl
    (fun schema entry => schema.setAttribute id entry.1 entry.2) schema

mutual

/-- Adds what an element below the node `parent` declares. -/
def load (parent : Nat) : Xml.Element → Schema → Except SchemaError Schema
  | ⟨start, tag, attributes, children⟩, schema =>
    if tag = "NODE" then
      match written? "name" attributes with
      | some name =>
        let (id, grown) := schema.addNode parent name
        loadAll id children (grown.setAttributes id attributes)
      | none => .error (.unnamed start)
    else if tag = "VALUE" then
      match written? "name" attributes, written? "value" attributes with
      | some name, some value => .ok (schema.addValue parent name value)
      | _, _ => .error (.incomplete start)
    else .ok schema

def loadAll (parent : Nat) : List Xml.Element → Schema → Except SchemaError Schema
  | [], schema => .ok schema
  | element :: rest, schema =>
    match load parent element schema with
    | .ok schema => loadAll parent rest schema
    | .error problem => .error problem

end

/-- The schema in a document, whatever its top element is called. -/
def ofElement (top : Xml.Element) : Except SchemaError Schema := loadAll root top.children empty

def ofXml (text : String) : Except SchemaError Schema :=
  match Xml.document? text with
  | some top => ofElement top
  | none => .error .malformed

end Schema

end YangConstraint
