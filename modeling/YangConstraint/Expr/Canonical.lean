import YangConstraint.Expr.Basic

/-!
The canonical text of an expression: every axis is spelled out and every binary operator stands in
parentheses.
-/
namespace YangConstraint

/-- A literal in single quotes, or in double quotes when it holds a single one. -/
def quoteLiteral (value : String) : String :=
  if '\'' ∈ value.toList then "\"" ++ value ++ "\"" else "'" ++ value ++ "'"

/-- A name with its qualifier. -/
def qualify (qualifier : Option String) (name : String) : String :=
  match qualifier with
  | some qualifier => qualifier ++ ":" ++ name
  | none => name

/-- What a step selects, without its axis. -/
def NodeType.test (type : NodeType) (qualifier name : Option String) : String :=
  match type.keyword? with
  | some keyword =>
    match name with
    | some literal => keyword ++ "('" ++ literal ++ "')"
    | none => keyword ++ "()"
  | none => qualify qualifier (name.getD "*")

namespace Expr

/-- Whether a predicate stands after parentheses around its base. -/
def needsParens (reverse : Bool) : Expr → Bool
  | axis .root .. => true
  | axis a .. => reverse != a.isReverse
  | step .. => true
  | _ => false

mutual

def canonical : Expr → String
  | hole => ""
  | string value => quoteLiteral value
  | number text => text
  | operator .negate left _ => "(-" ++ canonical left ++ ")"
  | operator (.binary op) left right =>
    "(" ++ canonical left ++ " " ++ op.symbol ++ " " ++ canonical right ++ ")"
  | axis .root _ _ _ => "/"
  | axis a type qualifier name => a.name ++ "::" ++ type.test qualifier name
  | step left right =>
    match left with
    | axis .root _ _ _ => "/" ++ canonical right
    | step _ _ => "(" ++ canonical left ++ ")/" ++ canonical right
    | _ => canonical left ++ "/" ++ canonical right
  | predicate base condition reverse =>
    let subject := if needsParens reverse base then "(" ++ canonical base ++ ")" else canonical base
    subject ++ "[" ++ canonical condition ++ "]"
  | reference qualifier name => "$" ++ qualify qualifier (name.getD "")
  | call qualifier name args => qualify qualifier name ++ "(" ++ canonicalAll args ++ ")"

/-- The texts of several arguments with commas between them. -/
def canonicalAll : List Expr → String
  | [] => ""
  | [arg] => canonical arg
  | arg :: args => canonical arg ++ ", " ++ canonicalAll args

end

end Expr

end YangConstraint
