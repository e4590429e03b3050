import YangConstraint.Xml.Markup

/-! The elements of an XML document. Names keep no prefixes, but each prefix must be declared. -/
namespace YangConstraint.Xml

/-- An element at a byte offset, with its attributes by their names without prefixes. -/
structure Element where
  start : Nat
  name : String
  attributes : List (String × String)
  children : List Element

/-- The namespaces of prefixes, the innermost declaration first. -/
abbrev Bindings := List (String × String)

def xmlSpace : String := "http://www.w3.org/XML/1998/namespace"

def xmlnsSpace : String := "http://www.w3.org/2000/xmlns/"

/-- Adds what an attribute declares. The namespaces of XML itself are bound to
their own prefixes only. -/
def declare? (own : Bindings) (name : QName) (value : String) : Option Bindings :=
  if name.space = some "xmlns" then
    if value = xmlnsSpace || (own.any (·.1 = name.label)) then none
    else if name.label = "xml" then if value = xmlSpace then some own else none
    else if value = xmlSpace then none
    else some (own ++ [(name.label, value)])
  else if name.label = "xmlns" then
    if value = xmlSpace || value = xmlnsSpace then none else some own
  else some own

/-- Whether the attribute declares a namespace. -/
def isDeclaration (name : QName) : Bool := name.space = some "xmlns" || name.label = "xmlns"

/-- The namespace of an attribute, which has one only by its prefix. -/
def spaceOf? (bindings : Bindings) (name : QName) : Option (Option String) :=
  match name.space with
  | none => some none
  | some "xml" => some (some xmlSpace)
  | some space => (bindings.find? (·.1 = space)).map fun binding => some binding.2

/-- An element that has been opened but not yet closed. -/
structure Opened where
  name : QName
  element : Element
  bindings : Bindings

/-- The elements that are open, the innermost first, and the one at the top once it is closed. -/
structure Nest where
  opened : List Opened := []
  top : Option Element := none

namespace Nest

/-- Adds a complete element to the innermost open one. -/
def attach (nest : Nest) (element : Element) : Nest :=
  match nest.opened with
  | [] => { nest with top := some element }
  | inner :: outer =>
    let children := inner.element.children ++ [element]
    { nest with opened := { inner with element := { inner.element with children } } :: outer }

/-- The element that a start tag opens, unless a prefix is not declared or
an attribute comes twice. -/
def element? (nest : Nest) (start : Nat) (name : QName) (attributes : List (QName × String)) :
    Option Opened := do
  let own ← attributes.foldlM (fun own entry => declare? own entry.1 entry.2) []
  let bindings := own ++ (nest.opened.head?.map (·.bindings)).getD []
  let others := attributes.filter (!isDeclaration ·.1)
  let spaces ← others.mapM (spaceOf? bindings ·.1)
  let declared := name.space.all fun space => space ≠ "xmlns" && bindings.any (·.1 = space)
  if declared && (spaces.zip (others.map (·.1.label))).Nodup then
    return ⟨name, ⟨start, name.label, others.map fun entry => (entry.1.label, entry.2), []⟩,
      bindings⟩
  else none

/-- Adds a piece of markup, if it may stand at this place. -/
def add? (nest : Nest) (piece : Piece) : Option Nest :=
  match piece with
  | .aside => some nest
  | .text blank => if blank || !nest.opened.isEmpty then some nest else none
  | .opening start name attributes closed =>
    if nest.opened.isEmpty && nest.top.isSome then none
    else
      (nest.element? start name attributes).map fun opened =>
        if closed then nest.attach opened.element
        else { nest with opened := opened :: nest.opened }
  | .closing name =>
    match nest.opened with
    | inner :: outer =>
      if inner.name = name then some ({ nest with opened := outer }.attach inner.element) else none
    | [] => none

end Nest

/-- The element at the top of a document. -/
def document? (text : String) : Option Element := do
  let nest ← (← markup? text).foldlM Nest.add? {}
  if nest.opened.isEmpty then nest.top else none

end YangConstraint.Xml
