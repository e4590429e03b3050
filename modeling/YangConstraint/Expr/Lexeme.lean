import YangConstraint.Expr.Token
import YangConstraint.Text.Basic

/-!
The tokens of a text. Which symbol a name or a star is depends on the token before it and on what
follows it, so a lexeme is read with the kind of its predecessor and the rest of the text.
-/
namespace YangConstraint

open Text

namespace Lexeme

def isNameStart (c : Char) : Bool := c.isAlphanum || c = '_'

def isNameChar (c : Char) : Bool := c.isAlphanum || c = '_' || c = '-' || c = '.'

def digits (cs : List Char) : Nat := (cs.takeWhile Char.isDigit).length

def nameChars (cs : List Char) : Nat := (cs.takeWhile isNameChar).length

def fraction : List Char → Nat
  | '.' :: cs => 1 + digits cs
  | _ => 0

/-- The length of an exponent, whose sign and digits may be missing. -/
def exponent : List Char → Nat
  | 'e' :: cs | 'E' :: cs =>
    match cs with
    | '+' :: ds | '-' :: ds => 2 + digits ds
    | _ => 1 + digits cs
  | _ => 0

/-- The length of the number at the beginning of the text. -/
def numeral (cs : List Char) : Nat :=
  let whole := digits cs
  let decimal := whole + fraction (cs.drop whole)
  decimal + exponent (cs.drop decimal)

def skipSpaces (cs : List Char) : List Char := cs.dropWhile (· = ' ')

/-- Whether an opening parenthesis comes next, after spaces. -/
def opensCall (cs : List Char) : Bool := (skipSpaces cs).head? = some '('

/-- Whether `::` comes next, after spaces. -/
def opensAxis (cs : List Char) : Bool := [':', ':'].isPrefixOf (skipSpaces cs)

/-- The operator that a word spells. -/
def wordOperator? : String → Option BinaryOp
  | "or" => some .or
  | "and" => some .and
  | "div" => some .div
  | "mod" => some .mod
  | _ => none

/-- What follows a name and makes it the qualifier of another: a colon and a name, or a
colon and a star. -/
def local? : List Char → Option (List Char)
  | ':' :: c :: cs =>
    if isNameStart c then some (c :: cs.take (nameChars cs))
    else if c = '*' then some ['*']
    else none
  | _ => none

/-- The symbol of a name without a qualifier, which the text `rest` follows. -/
def word (prior : TokenKind) (name : String) (rest : List Char) : Symbol :=
  match (wordOperator? name).filter fun _ => prior.endsOperand with
  | some op => .operator op
  | none =>
    match (Axis.ofName? name).filter fun _ => opensAxis rest with
    | some axis => .axis axis
    | none => .name none name (opensCall rest)

/-- The symbol at a character that starts a name, with the number of characters after that one. -/
def named (prior : TokenKind) (c : Char) (cs : List Char) : Symbol × Nat :=
  let size := nameChars cs
  let name := String.ofList (c :: cs.take size)
  match local? (cs.drop size) with
  | some label =>
    let whole := size + 1 + label.length
    (.name (some name) (String.ofList label) (label ≠ ['*'] && opensCall (cs.drop whole)), whole)
  | none => (word prior name (cs.drop size), size)

/-- The literal that `quote` opens, which without a second quote is the whole rest of the text. -/
def quoted (quote : Char) (cs : List Char) : Symbol × Nat :=
  let value := cs.takeWhile (· ≠ quote)
  let closed := quote ∈ cs
  (.string (String.ofList value) closed, value.length + if closed then 1 else 0)

/-- The symbol at the character `c`, which is no space, with the number of characters after `c` that
belong to it. -/
def read (prior : TokenKind) (c : Char) (cs : List Char) : Symbol × Nat :=
  match c with
  | '(' => (.mark .leftParen, 0)
  | ')' => (.mark .rightParen, 0)
  | '[' => (.mark .leftBracket, 0)
  | ']' => (.mark .rightBracket, 0)
  | '\x7d' => (.mark .rightBrace, 0)
  | '@' => (.mark .atSign, 0)
  | ',' => (.mark .comma, 0)
  | '$' => (.mark .dollar, 0)
  | '+' => (.operator .plus, 0)
  | '-' => (.operator .minus, 0)
  | '=' => (.operator .eq, 0)
  | '|' => (.operator .union, 0)
  | '*' => if prior.endsOperand then (.operator .times, 0) else (.mark .star, 0)
  | '/' => if cs.head? = some '/' then (.mark .slashSlash, 1) else (.mark .slash, 0)
  | '<' => if cs.head? = some '=' then (.operator .le, 1) else (.operator .lt, 0)
  | '>' => if cs.head? = some '=' then (.operator .ge, 1) else (.operator .gt, 0)
  | '!' => if cs.head? = some '=' then (.operator .ne, 1) else (.unknown, 0)
  | ':' => if cs.head? = some ':' then (.mark .colonColon, 1) else (.unknown, 0)
  | '.' =>
    if cs.head? = some '.' then (.mark .dotDot, 1)
    else if cs.head?.any Char.isDigit then (.number, numeral (c :: cs) - 1)
    else (.mark .dot, 0)
  | '"' | '\'' => quoted c cs
  | _ =>
    if c.isDigit then (.number, numeral (c :: cs) - 1)
    else if isNameStart c then named prior c cs
    else (.unknown, 0)

end Lexeme

namespace Token

/-- The tokens of a text that starts at byte `start` after a token of the kind `prior`. -/
def scanFrom (prior : TokenKind) (start : Nat) : List Char → List Token
  | [] => []
  | c :: cs =>
    if c = ' ' then scanFrom prior (start + 1) cs
    else
      let lexeme := Lexeme.read prior c cs
      let spelled := c :: cs.take lexeme.2
      ⟨lexeme.1, start, String.ofList spelled⟩ ::
        scanFrom lexeme.1.kind (start + byteSize spelled) (cs.drop lexeme.2)
termination_by cs => cs.length
decreasing_by all_goals simp; try omega

/-- The tokens of a text up to its end. -/
def scan (text : String) : List Token := scanFrom .unknown 0 text.toList

/-- The end of a text of `size` bytes. -/
def eof (size : Nat) : Token := ⟨.eof, size, ""⟩

end Token

end YangConstraint
