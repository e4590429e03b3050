import YangConstraint.Expr.Builder
import YangConstraint.Expr.Reader

/-!
The grammar of expressions as productions over a reader. A production never fails: it records what
is wrong and goes on with what it has. The productions that nest form levels, of which each calls
only the one below, so that the number of levels bounds how deep they nest.
-/
namespace YangConstraint

/-- How many levels of subexpressions and relative paths an expression may have. -/
def maxDepth : Nat := 128

/-- A computation that moves a reader on. One that reads a node gives none where there is none. -/
abbrev Reading (m : Type → Type) := StateT Reader m

/-- The productions that take one level of nesting each time. -/
structure Level (m : Type → Type) (α : Type) where
  /-- An operand and the operators after it that bind tighter than `floor`. -/
  expr (floor : Nat) : Reading m (Option α)
  /-- The operators after an operand that bind tighter than `floor`. -/
  operators (floor : Nat) (left : Option α) : Reading m (Option α)
  /-- The unions after a path. -/
  unions (left : Option α) : Reading m (Option α)
  /-- The predicates after a step or a primary. -/
  predicates (reverse : Bool) (base : Option α) : Reading m (Option α)
  relativePath : Reading m (Option α)

namespace Token

/-- Whether the token begins a location step. -/
def startsStep (token : Token) : Bool :=
  match token.symbol with
  | .mark m => m ∈ [Mark.dot, .dotDot, .atSign, .star]
  | .axis _ | .name .. => true
  | _ => false

/-- Whether the token begins a primary expression. -/
def startsPrimary (token : Token) : Bool :=
  match token.symbol with
  | .string .. | .number | .mark .dollar | .mark .leftParen => true
  | .name _ _ callable => callable && token.nodeType?.isNone
  | _ => false

end Token

namespace Production

variable {m : Type → Type} [Monad m] {α : Type}

def current : Reading m Token := do return (← get).current

def kind : Reading m TokenKind := do return (← get).kind

def advance : Reading m Unit := modify Reader.advance

def pass (expected : TokenKind) : Reading m Unit := modify (Reader.pass expected)

/-- Records an issue at the current token. -/
def record (issue : Token → Diagnostic) : Reading m Unit :=
  modify fun r => r.record (issue r.current)

/-- Goes on one level below, or stays at `refused` when there is none. -/
def deepen (inner : Option (Level m α)) (refused : Option α)
    (next : Level m α → Reading m (Option α)) : Reading m (Option α) :=
  match inner with
  | some inner => next inner
  | none => do
    record fun token => .tooDeep token.start maxDepth
    return refused

variable (b : Builder m α) (inner : Level m α)

/-- `.` and `..`, which take no predicates. -/
def abbreviated (axis : Axis) : Reading m (Option α) := do
  advance
  let node ← b.axis axis .any none none
  if (← kind) = .mark .leftBracket then
    record fun token => .predicateNotAllowed token.start
    return none
  return some node

/-- The literal that a test for processing instructions may hold. -/
def instructionName : Reading m (Option String) := do
  if (← kind) = .mark .rightParen then return none
  let literal := (← current).literal?
  pass .string
  return literal

def nodeTest (axis : Axis) : Reading m (Option α) := do
  let token ← current
  match token.symbol with
  | .name qualifier label callable =>
    match token.nodeType?.filter fun _ => callable with
    | some type =>
      advance
      pass (.mark .leftParen)
      let literal ← if type = .processingInstruction then instructionName else pure none
      pass (.mark .rightParen)
      return some (← b.axis axis type none literal)
    | none =>
      advance
      return some
        (← b.axis axis axis.principal qualifier (if label = "*" then none else some label))
  | .mark .star =>
    advance
    return some (← b.axis axis axis.principal none none)
  | _ =>
    record fun token => .expectedNodeTest token.start token.text
    return some (← b.axis axis .element none none)

/-- A node test with its predicates. -/
def tested (axis : Axis) : Reading m (Option α) := do
  inner.predicates axis.isReverse (← nodeTest b axis)

/-- A step; without an axis it leads to children. -/
def step : Reading m (Option α) := do
  match (← current).symbol with
  | .mark .dot => abbreviated b .self
  | .mark .dotDot => abbreviated b .parent
  | .mark .atSign =>
    advance
    tested b inner .attribute
  | .axis axis =>
    advance
    pass (.mark .colonColon)
    tested b inner axis
  | _ => tested b inner .child

/-- What `//` stands for: any descendant, and the path that goes on from it. -/
def descendants : Reading m α := do
  let any ← b.axis .descendantOrSelf .any none none
  b.step (some any) (← inner.relativePath)

/-- The rest of the path that `left` begins. -/
def continued (left : Option α) : Reading m (Option α) := do
  match ← kind with
  | .mark .slash =>
    advance
    return some (← b.step left (← inner.relativePath))
  | .mark .slashSlash =>
    advance
    return some (← b.step left (some (← descendants b inner)))
  | _ => return left

def relativePath : Reading m (Option α) := do
  if (← current).startsStep then
    continued b inner (← step b inner)
  else
    record fun token => .invalidStep token.start token.text
    return none

def locationPath : Reading m (Option α) := do
  match ← kind with
  | .mark .slash =>
    advance
    let root ← b.axis .root .any none none
    if (← current).startsStep then
      return some (← b.step (some root) (← inner.relativePath))
    return some root
  | .mark .slashSlash =>
    advance
    let root ← b.axis .root .any none none
    return some (← b.step (some root) (some (← descendants b inner)))
  | _ => inner.relativePath

/-- The arguments of a call, at most `limit` of them; one that could not be read is left out. -/
def arguments : (limit : Nat) → Reading m (List α)
  | 0 => return []
  | limit + 1 => do
    let arg ← inner.expr 0
    if (← kind) = .mark .comma then
      advance
      return arg.toList ++ (← arguments limit)
    return arg.toList

/-- A call; each further argument follows a comma, so there are no more of them than tokens. -/
def call (qualifier : Option String) (name : String) : Reading m (Option α) := do
  advance
  pass (.mark .leftParen)
  let args ←
    if (← kind) = .mark .rightParen then pure []
    else arguments inner ((← get).rest.length + 1)
  pass (.mark .rightParen)
  return some (← b.call qualifier name args)

def primary : Reading m (Option α) := do
  let token ← current
  match token.symbol with
  | .string value _ =>
    advance
    return some (← b.string value)
  | .number =>
    advance
    return some (← b.number token.text)
  | .mark .dollar =>
    advance
    let symbol := (← current).symbol
    pass .name
    match symbol with
    | .name qualifier label _ => return some (← b.reference qualifier (some label))
    | _ => return some (← b.reference none none)
  | .mark .leftParen =>
    advance
    let node ← inner.expr 0
    pass (.mark .rightParen)
    return node
  | .name qualifier label _ => call b inner qualifier label
  | _ => return none

def path : Reading m (Option α) := do
  if (← current).startsPrimary then
    continued b inner (← inner.predicates false (← primary b inner))
  else
    locationPath b inner

/-- The operand at the beginning of an expression, with a minus or in unions. -/
def operand : Reading m (Option α) := do
  if (← kind) = .operator .minus then
    advance
    return some (← b.operator .negate (← inner.expr Operator.negate.precedence) none)
  else
    inner.unions (← path b inner)

/-- The condition between the brackets of a predicate. -/
def condition : Reading m (Option α) := do
  pass (.mark .leftBracket)
  let node ← inner.expr 0
  pass (.mark .rightBracket)
  return node

end Production

namespace Level

open Production

variable {m : Type → Type} [Monad m] {α : Type}

/-- The level above `inner`, or the lowest one. -/
def above (b : Builder m α) (inner : Option (Level m α)) : Level m α where
  expr floor := deepen inner none fun inner => do
    inner.operators floor (← operand b inner)
  operators floor left := do
    match ← kind with
    | .operator op =>
      if op.precedence ≤ floor then return left
      deepen inner left fun inner => do
        advance
        let right ← inner.expr op.precedence
        inner.operators floor (some (← b.operator (.binary op) left right))
    | _ => return left
  unions left := do
    if (← kind) = .operator .union then
      deepen inner left fun inner => do
        advance
        let right ← path b inner
        inner.unions (some (← b.operator (.binary .union) left right))
    else return left
  predicates reverse base := do
    if (← kind) = .mark .leftBracket then
      deepen inner base fun inner => do
        let condition ← condition inner
        inner.predicates reverse (some (← b.predicate base condition reverse))
    else return base
  relativePath := deepen inner none fun inner => Production.relativePath b inner

/-- The level with `room` others below it. -/
def ofRoom (b : Builder m α) : (room : Nat) → Level m α
  | 0 => above b none
  | room + 1 => above b (some (ofRoom b room))

end Level

end YangConstraint
