import YangConstraint.Expr.Token

/-! What is wrong with the text of an expression. Offsets count bytes. -/
namespace YangConstraint

inductive Diagnostic where
  | unexpectedToken (offset : Nat) (expected found : TokenKind) (text : String)
  | unterminatedString (offset : Nat)
  | unknownCharacter (offset : Nat) (text : String)
  | expectedNodeTest (offset : Nat) (text : String)
  | predicateNotAllowed (offset : Nat)
  | invalidStep (offset : Nat) (text : String)
  | tooDeep (offset limit : Nat)
  | trailingInput (offset : Nat) (text : String)
deriving DecidableEq

namespace Diagnostic

def offset : Diagnostic → Nat
  | unexpectedToken offset .. => offset
  | unterminatedString offset => offset
  | unknownCharacter offset _ => offset
  | expectedNodeTest offset _ => offset
  | predicateNotAllowed offset => offset
  | invalidStep offset _ => offset
  | tooDeep offset _ => offset
  | trailingInput offset _ => offset

def message : Diagnostic → String
  | unexpectedToken offset expected found text =>
    let wanted := expected.label
    let seen := found.label
    s!"Unexpected token at {offset}: expected {wanted}, found {seen} '{text}'"
  | unterminatedString offset => s!"Unterminated string literal starting at {offset}"
  | unknownCharacter offset text => s!"Unknown character at {offset}: '{text}'"
  | expectedNodeTest offset text => s!"Expected a node test at {offset}, found '{text}'"
  | predicateNotAllowed offset => s!"Predicate not allowed after abbreviated step at {offset}"
  | invalidStep offset text => s!"Expected a location step at {offset}, found '{text}'"
  | tooDeep offset limit => s!"Expression nested deeper than {limit} levels at {offset}"
  | trailingInput offset text => s!"Unparsed input at {offset}: '{text}'"

end Diagnostic

/-- What is wrong with a token by itself. -/
def Token.issue? (token : Token) : Option Diagnostic :=
  match token.symbol with
  | .unknown => some (.unknownCharacter token.start token.text)
  | .string _ false => some (.unterminatedString token.start)
  | _ => none

end YangConstraint
