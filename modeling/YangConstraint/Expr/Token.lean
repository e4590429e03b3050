import YangConstraint.Expr.Axis
import YangConstraint.Expr.Operator

/-! The tokens of an expression. -/
namespace YangConstraint

/-- Punctuation that is no operator. -/
inductive Mark where
  | dot | dotDot
  | slash | slashSlash
  | colonColon
  | leftParen | rightParen
  | leftBracket | rightBracket
  | rightBrace
  | atSign
  | comma
  | star
  | dollar
deriving DecidableEq

inductive TokenKind where
  | unknown
  | operator (op : BinaryOp)
  | mark (m : Mark)
  | number
  | axis
  | name
  | string
  | eof
deriving DecidableEq

/-- A token's kind together with what its text stands for. -/
inductive Symbol where
  | unknown
  | operator (op : BinaryOp)
  | mark (m : Mark)
  | number
  | axis (axis : Axis)
  /-- A name; `callable` tells whether an opening parenthesis follows it. -/
  | name (qualifier : Option String) (label : String) (callable : Bool)
  /-- A literal without its quotes; `closed` tells whether the second quote is there. -/
  | string (value : String) (closed : Bool)
  | eof
deriving DecidableEq

/-- A symbol, the byte offset where it starts, and its source text. -/
structure Token where
  symbol : Symbol
  start : Nat
  text : String
deriving DecidableEq

namespace Mark

def spelling : Mark → String
  | .dot => "."
  | .dotDot => ".."
  | .slash => "/"
  | .slashSlash => "//"
  | .colonColon => "::"
  | .leftParen => "("
  | .rightParen => ")"
  | .leftBracket => "["
  | .rightBracket => "]"
  | .rightBrace => "\x7d"
  | .atSign => "@"
  | .comma => ","
  | .star => "*"
  | .dollar => "$"

/-- The mark's name in diagnostics. -/
def label : Mark → String
  | .dot => "Dot"
  | .dotDot => "DotDot"
  | .slash => "Slash"
  | .slashSlash => "SlashSlash"
  | .colonColon => "ColonColon"
  | .leftParen => "LParens"
  | .rightParen => "RParens"
  | .leftBracket => "LBracket"
  | .rightBracket => "RBracket"
  | .rightBrace => "RBrace"
  | .atSign => "At"
  | .comma => "Comma"
  | .star => "Star"
  | .dollar => "Dollar"

def all : List Mark :=
  [.dot, .dotDot, .slash, .slashSlash, .colonColon, .leftParen, .rightParen, .leftBracket,
    .rightBracket, .rightBrace, .atSign, .comma, .star, .dollar]

theorem mem_all (mark : Mark) : mark ∈ all := by cases mark <;> decide

end Mark

namespace BinaryOp

/-- The operator's name in diagnostics. -/
def label : BinaryOp → String
  | .or => "Or"
  | .and => "And"
  | .eq => "Equal"
  | .ne => "NotEqual"
  | .lt => "Lt"
  | .le => "Le"
  | .gt => "Gt"
  | .ge => "Ge"
  | .plus => "Plus"
  | .minus => "Minus"
  | .times => "Multiply"
  | .div => "Divide"
  | .mod => "Modulo"
  | .union => "Union"

end BinaryOp

namespace TokenKind

def label : TokenKind → String
  | .unknown => "Unknown"
  | .operator op => op.label
  | .mark m => m.label
  | .number => "Number"
  | .axis => "Axis"
  | .name => "Name"
  | .string => "String"
  | .eof => "Eof"

def all : List TokenKind :=
  [.unknown, .number, .axis, .name, .string, .eof] ++ BinaryOp.all.map .operator ++
    Mark.all.map .mark

def ofLabel? (label : String) : Option TokenKind := all.find? (·.label = label)

def isOperator : TokenKind → Bool
  | .operator _ => true
  | _ => false

/-- Whether a token of this kind can end an operand, so that an operator may follow it. -/
def endsOperand : TokenKind → Bool
  | .unknown | .operator _ => false
  | .mark m =>
    m ∉ [Mark.slash, .slashSlash, .atSign, .colonColon, .leftParen, .leftBracket, .comma, .dollar]
  | _ => true

theorem mem_all (kind : TokenKind) : kind ∈ all := by
  cases kind with
  | operator op => simp [all, op.mem_all]
  | mark m => simp [all, m.mem_all]
  | _ => simp [all]

end TokenKind

def Symbol.kind : Symbol → TokenKind
  | .unknown => .unknown
  | .operator op => .operator op
  | .mark m => .mark m
  | .number => .number
  | .axis _ => .axis
  | .name .. => .name
  | .string .. => .string
  | .eof => .eof

namespace Token

def kind (token : Token) : TokenKind := token.symbol.kind

/-- The name that the token carries: also axes and the operators that are words have one. -/
def name? (token : Token) : Option String :=
  match token.symbol with
  | .name _ label _ => some label
  | .axis _ => some token.text
  | .operator op => if op ∈ [.or, .and, .div, .mod] then some token.text else none
  | _ => none

def qualifier? (token : Token) : Option String :=
  match token.symbol with
  | .name qualifier _ _ => qualifier
  | _ => none

def literal? (token : Token) : Option String :=
  match token.symbol with
  | .string value _ => some value
  | _ => none

def axis? (token : Token) : Option Axis :=
  match token.symbol with
  | .axis axis => some axis
  | _ => none

/-- Whether the token is a name that an opening parenthesis follows. -/
def isCallable (token : Token) : Bool :=
  match token.symbol with
  | .name _ _ callable => callable
  | _ => false

/-- Whether the token starts a node-type test such as `text()`. -/
def nodeType? (token : Token) : Option NodeType :=
  match token.symbol with
  | .name none label _ => NodeType.ofKeyword? label
  | _ => none

end Token

end YangConstraint
