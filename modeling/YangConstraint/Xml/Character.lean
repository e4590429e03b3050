/-! The characters of XML documents and the references that stand for them. -/
namespace YangConstraint.Xml

def isSpace (c : Char) : Bool := c = ' ' || c = '\t' || c = '\n' || c = '\r'

/-- Whether a document may hold the character. -/
def isAllowed (c : Char) : Bool :=
  if c.toNat < 0x20 then isSpace c else c.toNat ≠ 0xFFFE && c.toNat ≠ 0xFFFF

/-- The code points that may begin a name. -/
def nameStartRanges : List (Nat × Nat) :=
  [(0x3A, 0x3A), (0x41, 0x5A), (0x5F, 0x5F), (0x61, 0x7A), (0xC0, 0xD6), (0xD8, 0xF6),
    (0xF8, 0x2FF), (0x370, 0x37D), (0x37F, 0x1FFF), (0x200C, 0x200D), (0x2070, 0x218F),
    (0x2C00, 0x2FEF), (0x3001, 0xD7FF), (0xF900, 0xFDCF), (0xFDF0, 0xFFFD), (0x10000, 0xEFFFF)]

/-- The code points that may only stand inside a name. -/
def nameInnerRanges : List (Nat × Nat) :=
  [(0x2D, 0x2E), (0x30, 0x39), (0xB7, 0xB7), (0x300, 0x36F), (0x203F, 0x2040)]

def within (ranges : List (Nat × Nat)) (c : Char) : Bool :=
  ranges.any fun range => range.1 ≤ c.toNat && c.toNat ≤ range.2

def isNameStart (c : Char) : Bool := within nameStartRanges c

def isNameChar (c : Char) : Bool := isNameStart c || within nameInnerRanges c

def digit? (base : Nat) (c : Char) : Option Nat :=
  let n :=
    if c.isDigit then c.toNat - '0'.toNat
    else if c.isUpper then c.toNat - 'A'.toNat + 10
    else if c.isLower then c.toNat - 'a'.toNat + 10
    else base
  if n < base then some n else none

/-- The number that digits stand for. There is at least one. -/
def numeral? (base : Nat) (cs : List Char) : Option Nat :=
  if cs.isEmpty then none
  else (cs.mapM (digit? base)).map fun digits => digits.foldl (fun n digit => n * base + digit) 0

/-- The character at a code point of 32 bits; the replacement character where there is none. -/
def ofCodePoint? (n : Nat) : Option Char :=
  if n ≤ 0xFFFFFFFF then
    let c := if n.isValidChar then Char.ofNat n else '\uFFFD'
    if isAllowed c then some c else none
  else none

/-- The character that a reference stands for, from what is between `&` and `;`. -/
def ofReference? : List Char → Option Char
  | '#' :: 'x' :: cs => (numeral? 16 cs).bind ofCodePoint?
  | '#' :: cs => (numeral? 10 cs).bind ofCodePoint?
  | cs =>
    match String.ofList cs with
    | "quot" => some '"'
    | "amp" => some '&'
    | "apos" => some '\''
    | "lt" => some '<'
    | "gt" => some '>'
    | _ => none

/-- The character that a reference stands for, from what follows `&`, and
what follows the reference. -/
def reference? (cs : List Char) : Option (Char × List Char) :=
  match cs.span (· ≠ ';') with
  | (body, _ :: rest) => (ofReference? body).map (·, rest)
  | (_, []) => none

/-- The characters that a text stands for. White space is a space each, a line break of two
characters a single one. -/
def expand? (cs : List Char) : Option (List Char) :=
  match cs with
  | [] => some []
  | '&' :: tail => do
    let (c, rest) ← reference? tail
    if rest.length ≤ tail.length then return c :: (← expand? rest) else none
  | '\r' :: '\n' :: rest => do return ' ' :: (← expand? rest)
  | c :: rest => do return (if isSpace c then ' ' else c) :: (← expand? rest)
termination_by cs.length

end YangConstraint.Xml
