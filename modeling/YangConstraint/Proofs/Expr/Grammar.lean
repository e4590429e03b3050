import Mathlib.Tactic.Common
import YangConstraint.Expr.Basic
import YangConstraint.Expr.Token

/-!
The grammar of expressions over tokens. Each rule also says which tree its phrase stands for.
-/
namespace YangConstraint

inductive Nonterminal where
  /-- Operations of the binary operators of a level or of those that bind tighter. -/
  | operation (level : Nat)
  | unary
  | union
  | path
  | filter
  | primary
  | location
  | relative
  | step
  /-- A node test on an axis, with its predicates. -/
  | tested (axis : Axis)
  | test (axis : Axis)

namespace Nonterminal

/-- The operators of each level, from those that bind least. -/
def operators : (level : Nat) → List BinaryOp
  | 1 => [.or]
  | 2 => [.and]
  | 3 => [.eq, .ne]
  | 4 => [.lt, .le, .gt, .ge]
  | 5 => [.plus, .minus]
  | 6 => [.times, .div, .mod]
  | _ => []

/-- The level of the operators that bind most. -/
def tightest : Nat := 6

/-- What the operators of a level have on their right. -/
def above (level : Nat) : Nonterminal := if level < tightest then operation (level + 1) else unary

def expr : Nonterminal := above 0

/-- The levels are those of the precedences; a union is part of an operand. -/
theorem mem_operators_iff {op : BinaryOp} {level : Nat} :
    op ∈ operators level ↔ op ≠ .union ∧ op.precedence = level := by
  constructor
  · intro h
    rw [operators.eq_def] at h
    split at h <;> simp at h <;> rcases h with rfl | rfl | rfl | rfl <;> decide
  · rintro ⟨hop, rfl⟩
    cases op <;> first | decide | contradiction

end Nonterminal

/-- A slash leads to the path behind it; a double slash leads there through any descendant. -/
inductive Token.Leads (token : Token) (path : Expr) : Expr → Prop where
  | slash (h : token.symbol = .mark .slash) : Leads token path path
  | slashSlash (h : token.symbol = .mark .slashSlash) :
    Leads token path (.step (.axis .descendantOrSelf .any none none) path)

/-- Phrases with commas between them. -/
inductive Separated : List (List Token) → List Token → Prop where
  | none : Separated [] []
  | one (w : List Token) : Separated [w] w
  | more {v w : List Token} {ws : List (List Token)} {t : Token} (u : List Token)
    (ht : t.symbol = .mark .comma) (h : Separated (v :: ws) w) :
    Separated (u :: v :: ws) (u ++ t :: w)

/-- The tokens form a phrase of the grammar that stands for the tree. -/
inductive Phrase : Nonterminal → List Token → Expr → Prop where
  | tighter {level : Nat} {w : List Token} {e : Expr} (h : Phrase (.above level) w e) :
    Phrase (.operation level) w e
  | binary {level : Nat} {op : BinaryOp} {t : Token} {u v : List Token} {a b : Expr}
    (hop : op ∈ Nonterminal.operators level) (hu : Phrase (.operation level) u a)
    (ht : t.symbol = .operator op) (hv : Phrase (.above level) v b) :
    Phrase (.operation level) (u ++ t :: v) (.operator (.binary op) a b)
  | ofUnion {w : List Token} {e : Expr} (h : Phrase .union w e) : Phrase .unary w e
  | negate {t : Token} {w : List Token} {e : Expr} (ht : t.symbol = .operator .minus)
    (h : Phrase .unary w e) : Phrase .unary (t :: w) (.operator .negate e .hole)
  | ofPath {w : List Token} {e : Expr} (h : Phrase .path w e) : Phrase .union w e
  | union {t : Token} {u v : List Token} {a b : Expr} (hu : Phrase .union u a)
    (ht : t.symbol = .operator .union) (hv : Phrase .path v b) :
    Phrase .union (u ++ t :: v) (.operator (.binary .union) a b)
  | ofLocation {w : List Token} {e : Expr} (h : Phrase .location w e) : Phrase .path w e
  | ofFilter {w : List Token} {e : Expr} (h : Phrase .filter w e) : Phrase .path w e
  | filterPath {t : Token} {u v : List Token} {a b path : Expr} (hu : Phrase .filter u a)
    (ht : t.Leads b path) (hv : Phrase .relative v b) : Phrase .path (u ++ t :: v) (.step a path)
  | ofPrimary {w : List Token} {e : Expr} (h : Phrase .primary w e) : Phrase .filter w e
  | filtered {s t : Token} {u v : List Token} {a c : Expr} (hu : Phrase .filter u a)
    (hs : s.symbol = .mark .leftBracket) (hv : Phrase .expr v c)
    (ht : t.symbol = .mark .rightBracket) :
    Phrase .filter (u ++ s :: (v ++ [t])) (.predicate a c false)
  | string {t : Token} {value : String} {closed : Bool} (ht : t.symbol = .string value closed) :
    Phrase .primary [t] (.string value)
  | number {t : Token} (ht : t.symbol = .number) : Phrase .primary [t] (.number t.text)
  | reference {s t : Token} {qualifier : Option String} {label : String} {callable : Bool}
    (hs : s.symbol = .mark .dollar) (ht : t.symbol = .name qualifier label callable) :
    Phrase .primary [s, t] (.reference qualifier (some label))
  | parens {s t : Token} {w : List Token} {e : Expr} (hs : s.symbol = .mark .leftParen)
    (h : Phrase .expr w e) (ht : t.symbol = .mark .rightParen) : Phrase .primary (s :: (w ++ [t])) e
  /-- A call. The name is no wildcard, and no keyword of a node test. -/
  | call {n s t : Token} {qualifier : Option String} {label : String} {callable : Bool}
    {args : List (List Token × Expr)} {w : List Token}
    (hn : n.symbol = .name qualifier label callable) (hw : label ≠ "*") (hk : n.nodeType? = none)
    (hs : s.symbol = .mark .leftParen) (hargs : ∀ arg ∈ args, Phrase .expr arg.1 arg.2)
    (h : Separated (args.map (·.1)) w) (ht : t.symbol = .mark .rightParen) :
    Phrase .primary (n :: s :: (w ++ [t])) (.call qualifier label (args.map (·.2)))
  | root {t : Token} (ht : t.symbol = .mark .slash) :
    Phrase .location [t] (.axis .root .any none none)
  | rootPath {t : Token} {w : List Token} {e path : Expr} (ht : t.Leads e path)
    (h : Phrase .relative w e) : Phrase .location (t :: w) (.step (.axis .root .any none none) path)
  | ofRelative {w : List Token} {e : Expr} (h : Phrase .relative w e) : Phrase .location w e
  | ofStep {w : List Token} {e : Expr} (h : Phrase .step w e) : Phrase .relative w e
  | stepPath {t : Token} {u v : List Token} {a b path : Expr} (hu : Phrase .step u a)
    (ht : t.Leads b path) (hv : Phrase .relative v b) :
    Phrase .relative (u ++ t :: v) (.step a path)
  | dot {t : Token} (ht : t.symbol = .mark .dot) : Phrase .step [t] (.axis .self .any none none)
  | dotDot {t : Token} (ht : t.symbol = .mark .dotDot) :
    Phrase .step [t] (.axis .parent .any none none)
  | child {w : List Token} {e : Expr} (h : Phrase (.tested .child) w e) : Phrase .step w e
  | attribute {t : Token} {w : List Token} {e : Expr} (ht : t.symbol = .mark .atSign)
    (h : Phrase (.tested .attribute) w e) : Phrase .step (t :: w) e
  | axis {s t : Token} {axis : Axis} {w : List Token} {e : Expr} (hs : s.symbol = .axis axis)
    (ht : t.symbol = .mark .colonColon) (h : Phrase (.tested axis) w e) :
    Phrase .step (s :: t :: w) e
  | ofTest {axis : Axis} {w : List Token} {e : Expr} (h : Phrase (.test axis) w e) :
    Phrase (.tested axis) w e
  | predicate {axis : Axis} {s t : Token} {u v : List Token} {a c : Expr}
    (hu : Phrase (.tested axis) u a) (hs : s.symbol = .mark .leftBracket) (hv : Phrase .expr v c)
    (ht : t.symbol = .mark .rightBracket) :
    Phrase (.tested axis) (u ++ s :: (v ++ [t])) (.predicate a c axis.isReverse)
  | name {axis : Axis} {t : Token} {qualifier : Option String} {label : String} {callable : Bool}
    (ht : t.symbol = .name qualifier label callable) :
    Phrase (.test axis) [t]
      (.axis axis axis.principal qualifier (if label = "*" then none else some label))
  | star {axis : Axis} {t : Token} (ht : t.symbol = .mark .star) :
    Phrase (.test axis) [t] (.axis axis axis.principal none none)
  | type {axis : Axis} {n s t : Token} {type : NodeType} (hn : n.nodeType? = some type)
    (hs : s.symbol = .mark .leftParen) (ht : t.symbol = .mark .rightParen) :
    Phrase (.test axis) [n, s, t] (.axis axis type none none)
  | instruction {axis : Axis} {n s l t : Token} {literal : String} {closed : Bool}
    (hn : n.nodeType? = some .processingInstruction) (hs : s.symbol = .mark .leftParen)
    (hl : l.symbol = .string literal closed) (ht : t.symbol = .mark .rightParen) :
    Phrase (.test axis) [n, s, l, t] (.axis axis .processingInstruction none (some literal))

namespace Phrase

variable {level floor : Nat} {w : List Token} {e : Expr}

/-- A unary operand is an operand of every operator. -/
theorem above_of_unary (h : Phrase .unary w e) : Phrase (.above level) w e := by
  induction hn : Nonterminal.tightest - level generalizing level with
  | zero =>
    have : ¬ level < Nonterminal.tightest := by omega
    simpa [Nonterminal.above, this] using h
  | succ n ih =>
    have hl : level < Nonterminal.tightest := by omega
    rw [Nonterminal.above, if_pos hl]
    exact .tighter (ih (by omega))

theorem above_of_operation (h : Phrase (.operation level) w e) (hf : floor < level)
    (hl : level ≤ Nonterminal.tightest) : Phrase (.above floor) w e := by
  induction hn : level - 1 - floor generalizing floor with
  | zero =>
    have : level = floor + 1 := by omega
    subst this
    rwa [Nonterminal.above, if_pos (by omega)]
  | succ n ih =>
    rw [Nonterminal.above, if_pos (by omega)]
    exact .tighter (ih (by omega) (by omega))

/-- Operators that bind tighter may stand where those of a level are expected. -/
theorem operation_of_operation (h : Phrase (.operation level) w e) (hf : floor ≤ level)
    (hl : level ≤ Nonterminal.tightest) : Phrase (.operation floor) w e := by
  rcases Nat.lt_or_eq_of_le hf with hf | rfl
  · exact .tighter (above_of_operation h hf hl)
  · exact h

end Phrase

end YangConstraint
