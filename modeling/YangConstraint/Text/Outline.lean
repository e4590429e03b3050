/-! Values laid out over lines: each part of a value has lines of its own, indented
below what opens it. -/
namespace YangConstraint

inductive Outline where
  | leaf (text : String)
  /-- Parts with the labels in front of them, between two brackets. -/
  | block (opener closer : String) (parts : List (String × Outline))

namespace Outline

def indentation : String := "    "

/-- The lines of a part: indented, with its label before the first and a comma after the last. -/
def part (label : String) (lines : List String) : List String :=
  match (lines.dropLast, lines.getLast?) with
  | ([], some only) => [indentation ++ label ++ only ++ ","]
  | (first :: inner, some last) =>
    (indentation ++ label ++ first) ::
      (inner.map (indentation ++ ·) ++ [indentation ++ last ++ ","])
  | (_, none) => []

mutual

def lines : Outline → List String
  | leaf text => [text]
  | block opener closer [] => [opener ++ closer]
  | block opener closer (first :: rest) => opener :: (allLines (first :: rest) ++ [closer])

def allLines : List (String × Outline) → List String
  | [] => []
  | (label, outline) :: rest => part label (lines outline) ++ allLines rest

end

/-- A name with an outline of what it holds. -/
def tuple (name : String) (inner : Outline) : Outline := block (name ++ "(") ")" [("", inner)]

/-- A name with labelled fields. -/
def fields (name : String) (parts : List (String × Outline)) : Outline :=
  block (name ++ " \x7b") "\x7d" (parts.map fun part => (part.1 ++ ": ", part.2))

def list (items : List Outline) : Outline := block "[" "]" (items.map ("", ·))

end Outline

end YangConstraint
