/-! The tokens of JSON texts. -/
namespace YangConstraint

inductive JsonToken where
  | leftBrace
  | rightBrace
  | leftBracket
  | rightBracket
  | colon
  | comma
  | null
  | bool (value : Bool)
  | number (text : String)
  /-- A string; there is no text for one that escapes half a surrogate pair. -/
  | string (value : Option String)
deriving DecidableEq

namespace JsonToken

def isSpace (c : Char) : Bool := c = ' ' || c = '\t' || c = '\n' || c = '\r'

/-- What follows the digits at the beginning, of which there is at least one. -/
def digits? : List Char → Option (List Char)
  | c :: cs => if c.isDigit then some (cs.dropWhile Char.isDigit) else none
  | [] => none

/-- What follows the number at the beginning. -/
def number? (cs : List Char) : Option (List Char) := do
  let whole ← match (if cs.head? = some '-' then cs.drop 1 else cs) with
    | '0' :: rest => if rest.head?.any Char.isDigit then none else some rest
    | rest => digits? rest
  let decimal ← match whole with
    | '.' :: rest => digits? rest
    | rest => some rest
  match decimal with
  | 'e' :: rest | 'E' :: rest =>
    if rest.head? = some '+' || rest.head? = some '-' then digits? (rest.drop 1) else digits? rest
  | rest => return rest

def hexDigit? (c : Char) : Option Nat :=
  if c.isDigit then some (c.toNat - '0'.toNat)
  else if 'a' ≤ c && c ≤ 'f' then some (c.toNat - 'a'.toNat + 10)
  else if 'A' ≤ c && c ≤ 'F' then some (c.toNat - 'A'.toNat + 10)
  else none

def hexDigits? (cs : List Char) : Option Nat :=
  (cs.mapM hexDigit?).map fun digits => digits.foldl (fun n digit => n * 16 + digit) 0

def escaped? : Char → Option Char
  | '"' => some '"'
  | '\\' => some '\\'
  | '/' => some '/'
  | 'b' => some '\x08'
  | 'f' => some '\x0C'
  | 'n' => some '\n'
  | 'r' => some '\r'
  | 't' => some '\t'
  | _ => none

/-- The numbers of the characters up to the closing quote, and what follows it. An escape of four
digits stands for a number that need not be one of a character. -/
def units? : List Char → Option (List Nat × List Char)
  | '"' :: rest => some ([], rest)
  | '\\' :: 'u' :: a :: b :: c :: d :: rest => do
    let unit ← hexDigits? [a, b, c, d]
    let (units, rest) ← units? rest
    return (unit :: units, rest)
  | '\\' :: c :: rest => do
    let c ← escaped? c
    let (units, rest) ← units? rest
    return (c.toNat :: units, rest)
  | c :: rest =>
    if c.toNat < 0x20 then none
    else do
      let (units, rest) ← units? rest
      return (c.toNat :: units, rest)
  | [] => none

/-- The characters that numbers stand for, where two halves of a surrogate pair make one. -/
def ofUnits? : List Nat → Option (List Char)
  | [] => some []
  | high :: low :: rest =>
    if 0xD800 ≤ high ∧ high < 0xDC00 ∧ 0xDC00 ≤ low ∧ low < 0xE000 then
      (ofUnits? rest).map (Char.ofNat (0x10000 + (high - 0xD800) * 0x400 + (low - 0xDC00)) :: ·)
    else if high.isValidChar then (ofUnits? (low :: rest)).map (Char.ofNat high :: ·)
    else none
  | [unit] => if unit.isValidChar then some [Char.ofNat unit] else none

/-- The token at the beginning, and what follows it. -/
def read? : List Char → Option (JsonToken × List Char)
  | '\x7b' :: rest => some (leftBrace, rest)
  | '\x7d' :: rest => some (rightBrace, rest)
  | '[' :: rest => some (leftBracket, rest)
  | ']' :: rest => some (rightBracket, rest)
  | ':' :: rest => some (colon, rest)
  | ',' :: rest => some (comma, rest)
  | 'n' :: 'u' :: 'l' :: 'l' :: rest => some (null, rest)
  | 't' :: 'r' :: 'u' :: 'e' :: rest => some (bool true, rest)
  | 'f' :: 'a' :: 'l' :: 's' :: 'e' :: rest => some (bool false, rest)
  | '"' :: rest =>
    (units? rest).map fun (units, rest) => (string ((ofUnits? units).map String.ofList), rest)
  | cs =>
    (number? cs).map fun rest => (number (String.ofList (cs.take (cs.length - rest.length))), rest)

/-- The tokens of a text. -/
def scan? (cs : List Char) : Option (List JsonToken) := do
  match cs.dropWhile isSpace with
  | [] => return []
  | inner =>
    let (token, rest) ← read? inner
    if rest.length < cs.length then return token :: (← scan? rest) else none
termination_by cs.length

end JsonToken

end YangConstraint
