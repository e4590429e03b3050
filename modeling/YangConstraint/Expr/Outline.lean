import YangConstraint.Expr.Basic
import YangConstraint.Text.Outline
import YangConstraint.Text.Quoted

/-! The tree of an expression, laid out over lines. -/
namespace YangConstraint

namespace BinaryOp

def title : BinaryOp → String
  | .or => "Or"
  | .and => "And"
  | .eq => "Eq"
  | .ne => "Ne"
  | .lt => "Lt"
  | .le => "Le"
  | .gt => "Gt"
  | .ge => "Ge"
  | .plus => "Plus"
  | .minus => "Minus"
  | .times => "Multiply"
  | .div => "Divide"
  | .mod => "Modulo"
  | .union => "Union"

end BinaryOp

def Operator.title : Operator → String
  | .binary op => op.title
  | .negate => "UnaryMinus"

def Axis.title : Axis → String
  | .root => "Root"
  | .ancestor => "Ancestor"
  | .ancestorOrSelf => "AncestorOrSelf"
  | .attribute => "Attribute"
  | .child => "Child"
  | .descendant => "Descendant"
  | .descendantOrSelf => "DescendantOrSelf"
  | .following => "Following"
  | .followingSibling => "FollowingSibling"
  | .nameSpace => "Namespace"
  | .parent => "Parent"
  | .preceding => "Preceding"
  | .precedingSibling => "PrecedingSibling"
  | .self => "SelfAxis"

def NodeType.title : NodeType → String
  | .element => "Unknown"
  | .any => "All"
  | .text => "Text"
  | .processingInstruction => "ProcessingInstruction"
  | .comment => "Comment"
  | .attribute => "Attribute"
  | .nameSpace => "Namespace"

namespace Outline

def quoted (text : String) : Outline := leaf (Text.quote text)

def word (text : Option String) : Outline :=
  text.elim (leaf "None") fun text => tuple "Some" (quoted text)

end Outline

namespace Expr

open Outline

/-- What is shown of a part that may be missing, from its own outline. -/
def part (e : Expr) (inner : Outline) : Outline :=
  if e.isHole then leaf "None" else tuple "Some" inner

mutual

def outline : Expr → Outline
  | hole => leaf "None"
  | string value => tuple "String" (quoted value)
  | number text => tuple "Number" (quoted text)
  | operator op left right =>
    fields "Operator" [("op", leaf op.title), ("left", part left (outline left)),
      ("right", part right (outline right))]
  | axis a type qualifier name =>
    fields "Axis" [("axis", leaf a.title), ("node_type", leaf type.title),
      ("prefix", word qualifier), ("name", word name)]
  | step left right =>
    fields "Step" [("left", part left (outline left)), ("right", part right (outline right))]
  | predicate base condition reverse =>
    fields "Predicate" [("base", part base (outline base)),
      ("condition", part condition (outline condition)), ("reverse_step",
      leaf (if reverse then "true" else "false"))]
  | reference qualifier name => fields "Variable" [("prefix", word qualifier), ("name", word name)]
  | call qualifier name args =>
    fields "Function" [("prefix", word qualifier), ("name", quoted name),
      ("args", list (outlines args))]

def outlines : List Expr → List Outline
  | [] => []
  | e :: es => outline e :: outlines es

end

end Expr

end YangConstraint
