/-! The operators of constraint expressions, with their spelling and binding strength. -/
namespace YangConstraint

inductive BinaryOp where
  | or | and
  | eq | ne | lt | le | gt | ge
  | plus | minus | times | div | mod
  | union
deriving DecidableEq

/-- An operator of an expression: one between two operands, or the minus before one. -/
inductive Operator where
  | binary (op : BinaryOp)
  | negate
deriving DecidableEq

namespace BinaryOp

def all : List BinaryOp :=
  [.or, .and, .eq, .ne, .lt, .le, .gt, .ge, .plus, .minus, .times, .div, .mod, .union]

def symbol : BinaryOp → String
  | .or => "or"
  | .and => "and"
  | .eq => "="
  | .ne => "!="
  | .lt => "<"
  | .le => "<="
  | .gt => ">"
  | .ge => ">="
  | .plus => "+"
  | .minus => "-"
  | .times => "*"
  | .div => "div"
  | .mod => "mod"
  | .union => "|"

/-- How tightly the operator binds its operands; the higher binds tighter. -/
def precedence : BinaryOp → Nat
  | .or => 1
  | .and => 2
  | .eq | .ne => 3
  | .lt | .le | .gt | .ge => 4
  | .plus | .minus => 5
  | .times | .div | .mod => 6
  | .union => 8

def isArithmetic : BinaryOp → Bool
  | .plus | .minus | .times | .div | .mod => true
  | _ => false

theorem mem_all (op : BinaryOp) : op ∈ all := by cases op <;> decide

theorem symbol_injective {a b : BinaryOp} (h : a.symbol = b.symbol) : a = b := by
  cases a <;> cases b <;> simp_all [symbol]

theorem precedence_pos (op : BinaryOp) : 0 < op.precedence := by cases op <;> decide

end BinaryOp

namespace Operator

def symbol : Operator → String
  | .binary op => op.symbol
  | .negate => "-"

def precedence : Operator → Nat
  | .binary op => op.precedence
  | .negate => 7

def isArithmetic : Operator → Bool
  | .binary op => op.isArithmetic
  | .negate => true

end Operator

end YangConstraint
