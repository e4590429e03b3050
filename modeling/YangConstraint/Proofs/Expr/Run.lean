import Mathlib.Tactic.Common
import YangConstraint.Expr.Parse

/-! What each production does when it runs, by what its reader has before it. -/
namespace YangConstraint

namespace Symbol

variable {s : Symbol}

theorem kind_eq_mark_iff {m : Mark} : s.kind = .mark m ↔ s = .mark m := by
  cases s <;> simp [kind]

theorem kind_eq_operator_iff {op : BinaryOp} : s.kind = .operator op ↔ s = .operator op := by
  cases s <;> simp [kind]

theorem kind_eq_string_iff : s.kind = .string ↔ ∃ value closed, s = .string value closed := by
  cases s <;> simp [kind]

theorem kind_eq_name_iff :
    s.kind = .name ↔ ∃ qualifier label callable, s = .name qualifier label callable := by
  cases s <;> simp [kind]

end Symbol

namespace Reader

variable {r : Reader}

theorem kind_eq_mark_iff {m : Mark} : r.kind = .mark m ↔ r.current.symbol = .mark m :=
  Symbol.kind_eq_mark_iff

theorem kind_eq_operator_iff {op : BinaryOp} :
    r.kind = .operator op ↔ r.current.symbol = .operator op := Symbol.kind_eq_operator_iff

end Reader

variable {α β γ : Type} {r : Reader}

theorem run_bind (x : Reading Id β) (next : β → Reading Id γ) :
    (x >>= next) r = next (x r).1 (x r).2 := rfl

namespace Production

variable {b : Builder Id α} {L : Level Id α} {axis : Axis} {left : Option α} {m : Mark}
  {qualifier : Option String} {label : String} {callable : Bool}

theorem run_kind : kind (m := Id) r = (r.kind, r) := rfl

theorem run_current : current (m := Id) r = (r.current, r) := rfl

theorem run_advance : advance (m := Id) r = ((), r.advance) := rfl

theorem abbreviated_bracket (h : r.advance.kind = .mark .leftBracket) :
    abbreviated b axis r =
      (none, r.advance.record (.predicateNotAllowed r.advance.current.start)) := by
  show (if r.advance.kind = .mark .leftBracket then _ else _ : Reading Id (Option α)) r.advance = _
  rw [if_pos h]
  rfl

theorem abbreviated_other (h : r.advance.kind ≠ .mark .leftBracket) :
    abbreviated b axis r = (some (b.axis axis .any none none), r.advance) := by
  show (if r.advance.kind = .mark .leftBracket then _ else _ : Reading Id (Option α)) r.advance = _
  rw [if_neg h]
  rfl

theorem instructionName_close (h : r.kind = .mark .rightParen) :
    instructionName (m := Id) r = (none, r) := by
  simp only [instructionName, run_bind, run_kind, h]
  rfl

theorem instructionName_literal (h : r.kind ≠ .mark .rightParen) :
    instructionName (m := Id) r = (r.current.literal?, r.pass .string) := by
  show (if r.kind = .mark .rightParen then _ else _ : Reading Id (Option String)) r = _
  rw [if_neg h]
  rfl

theorem nodeTest_type {type : NodeType} (h : r.current.symbol = .name qualifier label true)
    (ht : r.current.nodeType? = some type) (hp : type ≠ .processingInstruction) :
    nodeTest b axis r = (some (b.axis axis type none none),
      (r.advance.pass (.mark .leftParen)).pass (.mark .rightParen)) := by
  simp only [nodeTest, run_bind, run_current, h, ht, Option.filter, if_true, hp]
  rfl

theorem nodeTest_instruction (h : r.current.symbol = .name qualifier label true)
    (ht : r.current.nodeType? = some .processingInstruction) :
    nodeTest b axis r =
      let literal := instructionName (m := Id) (r.advance.pass (.mark .leftParen))
      (some (b.axis axis .processingInstruction none literal.1),
        literal.2.pass (.mark .rightParen)) := by
  simp only [nodeTest, run_bind, run_current, h, ht, Option.filter, if_true]
  rfl

theorem nodeTest_name (h : r.current.symbol = .name qualifier label callable)
    (ht : r.current.nodeType? = none ∨ callable = false) :
    nodeTest b axis r =
      (some (b.axis axis axis.principal qualifier (if label = "*" then none else some label)),
        r.advance) := by
  have hf : (r.current.nodeType?.filter fun _ => callable) = none := by
    rcases ht with ht | ht <;> simp [ht]
  simp only [nodeTest, run_bind, run_current, h, hf]
  rfl

theorem nodeTest_star (h : r.current.symbol = .mark .star) :
    nodeTest b axis r = (some (b.axis axis axis.principal none none), r.advance) := by
  simp only [nodeTest, run_bind, run_current, h]
  rfl

theorem nodeTest_other (hn : r.kind ≠ .name) (hs : r.kind ≠ .mark .star) :
    nodeTest b axis r = (some (b.axis axis .element none none),
      r.record (.expectedNodeTest r.current.start r.current.text)) := by
  rw [nodeTest, run_bind, run_current]
  cases h : r.current.symbol with
  | name => exact absurd (Symbol.kind_eq_name_iff.2 ⟨_, _, _, h⟩) hn
  | mark m => cases m <;> first | rfl | exact absurd (Reader.kind_eq_mark_iff.2 h) hs
  | _ => rfl

theorem step_dot (h : r.current.symbol = .mark .dot) : step b L r = abbreviated b .self r := by
  simp only [step, run_bind, run_current, h]

theorem step_dotDot (h : r.current.symbol = .mark .dotDot) :
    step b L r = abbreviated b .parent r := by
  simp only [step, run_bind, run_current, h]

theorem step_atSign (h : r.current.symbol = .mark .atSign) :
    step b L r = tested b L .attribute r.advance := by
  simp only [step, run_bind, run_current, h]
  rfl

theorem step_axis (h : r.current.symbol = .axis axis) :
    step b L r = tested b L axis (r.advance.pass (.mark .colonColon)) := by
  simp only [step, run_bind, run_current, h]
  rfl

theorem step_child (h : r.kind = .name ∨ r.kind = .mark .star) :
    step b L r = tested b L .child r := by
  rcases h with h | h
  · obtain ⟨_, _, _, hs⟩ := Symbol.kind_eq_name_iff.1 h
    simp only [step, run_bind, run_current, hs]
  · simp only [step, run_bind, run_current, Reader.kind_eq_mark_iff.1 h]

theorem tested_eq : tested b L axis r =
    L.predicates axis.isReverse (nodeTest b axis r).1 (nodeTest b axis r).2 := rfl

theorem continued_slash (h : r.kind = .mark .slash) : continued b L left r =
    (some (b.step left (L.relativePath r.advance).1), (L.relativePath r.advance).2) := by
  simp only [continued, run_bind, run_kind, h]
  rfl

theorem continued_slashSlash (h : r.kind = .mark .slashSlash) : continued b L left r =
    (some (b.step left (some (b.step (some (b.axis .descendantOrSelf .any none none))
      (L.relativePath r.advance).1))), (L.relativePath r.advance).2) := by
  simp only [continued, run_bind, run_kind, h]
  rfl

theorem continued_other (hs : r.kind ≠ .mark .slash) (hss : r.kind ≠ .mark .slashSlash) :
    continued b L left r = (left, r) := by
  rw [continued, run_bind, run_kind]
  cases h : r.kind with
  | mark m => cases m <;> first | rfl | exact absurd h hs | exact absurd h hss
  | _ => rfl

theorem relativePath_step (h : r.current.startsStep = true) :
    relativePath b L r = continued b L (step b L r).1 (step b L r).2 := by
  simp only [relativePath, run_bind, run_current, h]
  rfl

theorem relativePath_other (h : r.current.startsStep = false) : relativePath b L r =
    (none, r.record (.invalidStep r.current.start r.current.text)) := by
  simp only [relativePath, run_bind, run_current, h]
  rfl

theorem locationPath_root (h : r.kind = .mark .slash) (hs : r.advance.current.startsStep = false) :
    locationPath b L r = (some (b.axis .root .any none none), r.advance) := by
  simp only [locationPath, run_bind, run_kind, h]
  show (if r.advance.current.startsStep = true then _ else _ : Reading Id (Option α)) r.advance = _
  rw [hs]
  rfl

theorem locationPath_slash (h : r.kind = .mark .slash) (hs : r.advance.current.startsStep = true) :
    locationPath b L r = (some (b.step (some (b.axis .root .any none none))
      (L.relativePath r.advance).1), (L.relativePath r.advance).2) := by
  simp only [locationPath, run_bind, run_kind, h]
  show (if r.advance.current.startsStep = true then _ else _ : Reading Id (Option α)) r.advance = _
  rw [hs]
  rfl

theorem locationPath_slashSlash (h : r.kind = .mark .slashSlash) :
    locationPath b L r = (some (b.step (some (b.axis .root .any none none))
      (some (b.step (some (b.axis .descendantOrSelf .any none none))
        (L.relativePath r.advance).1))), (L.relativePath r.advance).2) := by
  simp only [locationPath, run_bind, run_kind, h]
  rfl

theorem locationPath_other (hs : r.kind ≠ .mark .slash) (hss : r.kind ≠ .mark .slashSlash) :
    locationPath b L r = L.relativePath r := by
  rw [locationPath, run_bind, run_kind]
  cases h : r.kind with
  | mark m => cases m <;> first | rfl | exact absurd h hs | exact absurd h hss
  | _ => rfl

theorem arguments_comma {limit : Nat} (h : (L.expr 0 r).2.kind = .mark .comma) :
    arguments L (limit + 1) r =
      ((L.expr 0 r).1.toList ++ (arguments L limit (L.expr 0 r).2.advance).1,
        (arguments L limit (L.expr 0 r).2.advance).2) := by
  simp only [arguments, run_bind, run_kind, h]
  rfl

theorem arguments_last {limit : Nat} (h : (L.expr 0 r).2.kind ≠ .mark .comma) :
    arguments L (limit + 1) r = ((L.expr 0 r).1.toList, (L.expr 0 r).2) := by
  show (if (L.expr 0 r).2.kind = .mark .comma then _ else _ : Reading Id (List α))
    (L.expr 0 r).2 = _
  rw [if_neg h]
  rfl

theorem call_close (h : (r.advance.pass (.mark .leftParen)).kind = .mark .rightParen) :
    call b L qualifier label r = (some (b.call qualifier label []),
      (r.advance.pass (.mark .leftParen)).pass (.mark .rightParen)) := by
  show (if (r.advance.pass (.mark .leftParen)).kind = .mark .rightParen then _ else _ :
    Reading Id (Option α)) (r.advance.pass (.mark .leftParen)) = _
  rw [if_pos h]
  rfl

theorem call_arguments (h : (r.advance.pass (.mark .leftParen)).kind ≠ .mark .rightParen) :
    call b L qualifier label r =
      let opened := r.advance.pass (.mark .leftParen)
      let args := arguments L (opened.rest.length + 1) opened
      (some (b.call qualifier label args.1), args.2.pass (.mark .rightParen)) := by
  show (if (r.advance.pass (.mark .leftParen)).kind = .mark .rightParen then _ else _ :
    Reading Id (Option α)) (r.advance.pass (.mark .leftParen)) = _
  rw [if_neg h]
  rfl

theorem primary_string {value : String} {closed : Bool}
    (h : r.current.symbol = .string value closed) :
    primary b L r = (some (b.string value), r.advance) := by
  simp only [primary, run_bind, run_current, h]
  rfl

theorem primary_number (h : r.current.symbol = .number) :
    primary b L r = (some (b.number r.current.text), r.advance) := by
  simp only [primary, run_bind, run_current, h]
  rfl

theorem primary_reference (h : r.current.symbol = .mark .dollar)
    (hn : r.advance.current.symbol = .name qualifier label callable) :
    primary b L r = (some (b.reference qualifier (some label)), r.advance.pass .name) := by
  simp only [primary, run_bind, run_current, run_advance, h, hn]
  rfl

theorem primary_dollar (h : r.current.symbol = .mark .dollar) :
    (primary b L r).2 = r.advance.pass .name := by
  simp only [primary, run_bind, run_current, run_advance, h]
  cases r.advance.current.symbol <;> rfl

theorem primary_parens (h : r.current.symbol = .mark .leftParen) :
    primary b L r = ((L.expr 0 r.advance).1, (L.expr 0 r.advance).2.pass (.mark .rightParen)) := by
  simp only [primary, run_bind, run_current, h]
  rfl

theorem primary_name (h : r.current.symbol = .name qualifier label callable) :
    primary b L r = call b L qualifier label r := by
  simp only [primary, run_bind, run_current, h]

theorem path_primary (h : r.current.startsPrimary = true) : path b L r =
    let base := primary b L r
    let filter := L.predicates false base.1 base.2
    continued b L filter.1 filter.2 := by
  simp only [path, run_bind, run_current, h]
  rfl

theorem path_location (h : r.current.startsPrimary = false) : path b L r = locationPath b L r := by
  simp only [path, run_bind, run_current, h]
  rfl

theorem operand_minus (h : r.kind = .operator .minus) : operand b L r =
    (some (b.operator .negate (L.expr Operator.negate.precedence r.advance).1 none),
      (L.expr Operator.negate.precedence r.advance).2) := by
  simp only [operand, run_bind, run_kind, h]
  rfl

theorem operand_other (h : r.kind ≠ .operator .minus) :
    operand b L r = L.unions (path b L r).1 (path b L r).2 := by
  show (if r.kind = .operator .minus then _ else _ : Reading Id (Option α)) r = _
  rw [if_neg h]
  rfl

theorem condition_eq : condition L r = ((L.expr 0 (r.pass (.mark .leftBracket))).1,
    (L.expr 0 (r.pass (.mark .leftBracket))).2.pass (.mark .rightBracket)) := rfl

end Production

namespace Level

open Production

variable {b : Builder Id α} {L : Level Id α} {inner : Option (Level Id α)} {floor : Nat}
  {left : Option α} {op : BinaryOp} {reverse : Bool}

theorem expr_some : (above b (some L)).expr floor r =
    L.operators floor (operand b L r).1 (operand b L r).2 := rfl

theorem operators_none (h : r.kind = .operator op) (hf : floor < op.precedence) :
    (above b none).operators floor left r =
      (left, r.record (.tooDeep r.current.start maxDepth)) := by
  simp only [above, run_bind, run_kind, h]
  rw [if_neg (Nat.not_le.2 hf)]
  rfl

theorem operators_some (h : r.kind = .operator op) (hf : floor < op.precedence) :
    (above b (some L)).operators floor left r =
      let right := L.expr op.precedence r.advance
      L.operators floor (some (b.operator (.binary op) left right.1)) right.2 := by
  simp only [above, run_bind, run_kind, h]
  rw [if_neg (Nat.not_le.2 hf)]
  rfl

theorem operators_other (h : ∀ op, r.kind = .operator op → op.precedence ≤ floor) :
    (above b inner).operators floor left r = (left, r) := by
  simp only [above, run_bind, run_kind]
  cases hk : r.kind with
  | operator op =>
    show (if op.precedence ≤ floor then _ else _ : Reading Id (Option α)) r = _
    rw [if_pos (h op hk)]
    rfl
  | _ => rfl

theorem unions_none (h : r.kind = .operator .union) : (above b none).unions left r =
    (left, r.record (.tooDeep r.current.start maxDepth)) := by
  simp only [above, run_bind, run_kind, h]
  rfl

theorem unions_some (h : r.kind = .operator .union) : (above b (some L)).unions left r =
    let right := path b L r.advance
    L.unions (some (b.operator (.binary .union) left right.1)) right.2 := by
  simp only [above, run_bind, run_kind, h]
  rfl

theorem unions_other (h : r.kind ≠ .operator .union) :
    (above b inner).unions left r = (left, r) := by
  show (if r.kind = .operator .union then _ else _ : Reading Id (Option α)) r = _
  rw [if_neg h]
  rfl

theorem predicates_none (h : r.kind = .mark .leftBracket) :
    (above b none).predicates reverse left r =
      (left, r.record (.tooDeep r.current.start maxDepth)) := by
  simp only [above, run_bind, run_kind, h]
  rfl

theorem predicates_some (h : r.kind = .mark .leftBracket) :
    (above b (some L)).predicates reverse left r =
      let condition := condition L r
      L.predicates reverse (some (b.predicate left condition.1 reverse)) condition.2 := by
  simp only [above, run_bind, run_kind, h]
  rfl

theorem predicates_other (h : r.kind ≠ .mark .leftBracket) :
    (above b inner).predicates reverse left r = (left, r) := by
  show (if r.kind = .mark .leftBracket then _ else _ : Reading Id (Option α)) r = _
  rw [if_neg h]
  rfl

end Level

end YangConstraint
