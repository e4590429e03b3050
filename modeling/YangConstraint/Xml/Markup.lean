import YangConstraint.Text.Basic
import YangConstraint.Xml.Character

/-! The markup of an XML document, piece by piece. Documents with a document type are not read. -/
namespace YangConstraint.Xml

/-- A name, perhaps with the prefix of a namespace. -/
structure QName where
  space : Option String
  label : String
deriving DecidableEq

inductive Piece where
  /-- A start tag at a byte offset; a closed one is an element of its own. -/
  | opening (start : Nat) (name : QName) (attributes : List (QName × String)) (closed : Bool)
  | closing (name : QName)
  /-- Character data; `blank` tells that it is white space as it is written. -/
  | text (blank : Bool)
  /-- A comment or an instruction. -/
  | aside
deriving DecidableEq

def skipSpaces (cs : List Char) : List Char := cs.dropWhile isSpace

/-- What follows `mark` at the beginning. -/
def past? (mark : String) (cs : List Char) : Option (List Char) :=
  if mark.toList.isPrefixOf cs then some (cs.drop mark.toList.length) else none

/-- The text before the first `mark`, of characters that a document may hold, and
what follows the mark. -/
def until? (mark : String) (cs : List Char) : Option (List Char × List Char) :=
  (Text.cut? mark.toList cs).filter fun parts => parts.1.all isAllowed

def name? (cs : List Char) : Option (QName × List Char) :=
  let (word, rest) := cs.span isNameChar
  let make (space label : List Char) : Option (QName × List Char) :=
    if space.head?.all isNameStart && label.head?.any isNameStart then
      let prefixed := if space.isEmpty then none else some (String.ofList space)
      some (⟨prefixed, String.ofList label⟩, rest)
    else none
  match word.splitOn ':' with
  | [label] => make [] label
  | [space, label] => make space label
  | _ => none

/-- A name, an equals sign, and a text in quotes. -/
def attribute? (cs : List Char) : Option ((QName × List Char) × List Char) := do
  let (name, rest) ← name? cs
  let rest ← past? "=" (skipSpaces rest)
  match skipSpaces rest with
  | quote :: rest =>
    if quote = '"' || quote = '\'' then
      let (value, rest) := rest.span fun c => c ≠ quote && c ≠ '<'
      if value.all isAllowed && rest.head? = some quote then return ((name, value), rest.drop 1)
      else none
    else none
  | [] => none

/-- The attributes of a start tag, whether the tag is closed, and what follows it. -/
def attributes? (cs : List Char) : Option (List (QName × String) × Bool × List Char) := do
  match skipSpaces cs with
  | '>' :: rest => return ([], false, rest)
  | '/' :: '>' :: rest => return ([], true, rest)
  | inner =>
    if cs.head?.any isSpace then
      let ((name, value), rest) ← attribute? inner
      let value ← expand? value
      if rest.length < cs.length then
        let (others, closed, rest) ← attributes? rest
        return ((name, String.ofList value) :: others, closed, rest)
      else none
    else none
termination_by cs.length

/-- The XML declaration, which may stand at the very beginning: a version, then perhaps an encoding
and a note on whether the document stands alone. -/
def declaration? (cs : List Char) : Option (List Char) := do
  let spaced? (cs : List Char) : Option (List Char) :=
    if cs.isEmpty || cs.head?.any isSpace || (past? "?>" cs).isSome then some (skipSpaces cs)
    else none
  let given? (word : String) (cs : List Char) : Option (List Char) :=
    if (past? word cs).isSome then (attribute? cs).map (·.2) else none
  let cs ← spaced? (← given? "version" (← spaced? cs))
  let cs ← if (past? "encoding" cs).isSome then spaced? (← given? "encoding" cs) else some cs
  let cs ← if (past? "standalone" cs).isSome then given? "standalone" cs else some cs
  past? "?>" (skipSpaces cs)

/-- The piece at the beginning, which starts at byte `start`, and what follows it. -/
def piece? (start : Nat) (cs : List Char) : Option (Piece × List Char) :=
  match cs with
  | '<' :: '!' :: rest =>
    match past? "--" rest, past? "[CDATA[" rest with
    | some rest, _ => do
      let (body, rest) ← until? "-->" rest
      if Text.occursIn ['-', '-'] body || body.getLast? = some '-' then none
      else return (.aside, rest)
    | none, some rest => (until? "]]>" rest).map fun parts => (.text false, parts.2)
    | none, none => none
  | '<' :: '?' :: rest =>
    if (past? "xml " rest).isNone && rest.head?.any isNameStart then
      (until? "?>" (rest.dropWhile isNameChar)).map fun parts => (.aside, parts.2)
    else none
  | '<' :: '/' :: rest => do
    let (name, rest) ← name? rest
    let rest ← past? ">" (skipSpaces rest)
    return (.closing name, rest)
  | '<' :: rest => do
    let (name, rest) ← name? rest
    let (attributes, closed, rest) ← attributes? rest
    return (.opening start name attributes closed, rest)
  | cs =>
    let (run, rest) := cs.span (· ≠ '<')
    if run.all isAllowed && !Text.occursIn [']', ']', '>'] run && (expand? run).isSome then
      some (.text (run.all isSpace), rest)
    else none

/-- The pieces of a text that starts at byte `start`. -/
def pieces? (start : Nat) (cs : List Char) : Option (List Piece) := do
  if cs.isEmpty then return []
  let (piece, rest) ← piece? start cs
  if rest.length < cs.length then
    return piece :: (← pieces? (start + (Text.byteSize cs - Text.byteSize rest)) rest)
  else none
termination_by cs.length

/-- The pieces of a document, behind the byte order mark and the declaration that
it may begin with. -/
def markup? (text : String) : Option (List Piece) := do
  let cs := text.toList
  let body := if cs.head? = some '\uFEFF' then cs.drop 1 else cs
  let body ← if (past? "<?xml " body).isSome then declaration? (body.drop 5) else some body
  pieces? (Text.byteSize cs - Text.byteSize body) body

end YangConstraint.Xml
