import Mathlib.Tactic.Ring
import YangConstraint.Proofs.Expr.Branch
import YangConstraint.Proofs.Expr.Run

/-!
How heavy the branches of a parsed tree can be. Each level of nesting is spent by one production at
a time, and what the left operand of an operator has spent is given back behind it, so that the
trees of the levels add up.
-/
namespace YangConstraint

variable {β γ : Type}

/-- Whatever stands before the reader, what the reading gives has the property. -/
def Yields (x : Reading Id β) (P : β → Prop) : Prop := ∀ r, P (x r).1

namespace Yields

variable {x : Reading Id β} {f : β → Reading Id γ} {P : β → Prop} {Q : γ → Prop}

theorem pure {a : β} (h : P a) : Yields (Pure.pure a) P := fun _ => h

theorem lift {a : Id β} (h : P a) : Yields (liftM a) P := fun _ => h

theorem bind (h : Yields x P) (hf : ∀ a, P a → Yields (f a) Q) : Yields (x >>= f) Q :=
  fun r => hf _ (h r) _

theorem any (x : Reading Id β) : Yields x fun _ => True := fun _ => trivial

/-- What comes first may give anything. -/
theorem next (hf : ∀ a, Yields (f a) Q) : Yields (x >>= f) Q := (any x).bind fun a _ => hf a

theorem imp {R : β → Prop} (h : Yields x P) (hpr : ∀ a, P a → R a) : Yields x R :=
  fun r => hpr _ (h r)

end Yields

/-- Whether a node has a form that has nothing below it. -/
def Expr.isLeaf : Expr → Bool
  | string _ | number _ | axis .. | reference .. => true
  | _ => false

/-- A number for each tree. The number of a node is bounded by those of the nodes below it. -/
structure Measure where
  of : Expr → Nat
  /-- What an operator adds to its left operand. -/
  left : Nat
  /-- What an operator adds to its right operand. -/
  right : Nat
  /-- What a minus adds to its operand. -/
  minus : Nat
  /-- What a node of any other form adds. -/
  other : Nat
  hole : of .hole = 0
  binary {op : BinaryOp} {l r : Expr} :
    of (.operator (.binary op) l r) ≤ max (left + of l) (right + of r)
  negate {operand : Expr} : of (.operator .negate operand .hole) ≤ minus + of operand
  step {l r : Expr} : of (.step l r) ≤ other + max (of l) (of r)
  predicate {l r : Expr} {reverse : Bool} : of (.predicate l r reverse) ≤ other + max (of l) (of r)
  call {qualifier : Option String} {name : String} {args : List Expr} {n : Nat}
    (h : ∀ arg ∈ args, of arg ≤ n) :
    of (.call qualifier name args) ≤ other + n
  leaf {e : Expr} (h : e.isLeaf = true) : of e ≤ other

/-- The tree, if there is one, measures at most `n`. -/
def Measure.Bounds (μ : Measure) (n : Nat) (node : Option Expr) : Prop :=
  μ.of (Expr.ofOption node) ≤ n

namespace Measure.Bounds

variable {μ : Measure} {m n : Nat} {node left right : Option Expr}

theorem mono (h : μ.Bounds m node) (hmn : m ≤ n) : μ.Bounds n node := Nat.le_trans h hmn

/-- A node that is built measures what its parts do. -/
theorem built {a : Id Expr} (h : μ.Bounds n (some a)) :
    Yields (do return some (← a)) (μ.Bounds n) :=
  fun _ => h

theorem none : μ.Bounds n none := Nat.le_of_eq μ.hole |>.trans (Nat.zero_le n)

theorem binary {op : BinaryOp} (hl : μ.Bounds m left) (hr : μ.Bounds n right) :
    μ.Bounds (max (μ.left + m) (μ.right + n))
      (some (Expr.builder.operator (.binary op) left right)) := by
  refine Nat.le_trans μ.binary ?_
  rw [Bounds] at hl hr
  omega

theorem negate (h : μ.Bounds n node) :
    μ.Bounds (μ.minus + n) (some (Expr.builder.operator .negate node Option.none)) :=
  Nat.le_trans μ.negate (Nat.add_le_add_left h _)

theorem step (hl : μ.Bounds m left) (hr : μ.Bounds n right) :
    μ.Bounds (μ.other + max m n) (some (Expr.builder.step left right)) := by
  refine Nat.le_trans μ.step ?_
  rw [Bounds] at hl hr
  omega

theorem predicate {reverse : Bool} (hl : μ.Bounds m left) (hr : μ.Bounds n right) :
    μ.Bounds (μ.other + max m n) (some (Expr.builder.predicate left right reverse)) := by
  refine Nat.le_trans μ.predicate ?_
  rw [Bounds] at hl hr
  omega

theorem call {qualifier : Option String} {name : String} {args : List Expr}
    (h : ∀ arg ∈ args, μ.Bounds n (some arg)) :
    μ.Bounds (μ.other + n) (some (Expr.builder.call qualifier name args)) := μ.call h

theorem leaf {e : Expr} (h : e.isLeaf = true) : μ.Bounds μ.other (some e) := μ.leaf h

theorem axis {axis : Axis} {type : NodeType} {qualifier name : Option String} :
    μ.Bounds μ.other (some (Expr.builder.axis axis type qualifier name)) := .leaf rfl

end Measure.Bounds

/-- What an expression can measure with `room` levels below it. The levels below serve an operand,
then as many unions, then as many other operators. -/
def Measure.capacity (μ : Measure) : (room : Nat) → Nat
  | 0 => 0
  | room + 1 => μ.capacity room +
      max (room * μ.left + μ.minus) (2 * (room * μ.left) + (μ.right - μ.minus)) +
        (room + 3) * μ.other

namespace Level

/-- What the productions of a level with `room` others below it give measures no
more than they hold. -/
structure Holds (μ : Measure) (room : Nat) (L : Level Id Expr) : Prop where
  expr (floor : Nat) : Yields (L.expr floor) (μ.Bounds (μ.capacity room))
  operators (floor : Nat) {left : Option Expr} {n : Nat}
    (h : μ.Bounds n left) : Yields (L.operators floor left)
    (μ.Bounds (room * μ.left + max n (μ.capacity room + (μ.right - μ.minus))))
  unions {left : Option Expr} {n : Nat} (h : μ.Bounds n left) : Yields (L.unions left)
    (μ.Bounds
      (room * μ.left + max n (μ.capacity room + (μ.right - μ.minus) + (room + 3) * μ.other)))
  predicates (reverse : Bool) {base : Option Expr} {n : Nat} (h : μ.Bounds n base) :
    Yields (L.predicates reverse base) (μ.Bounds (room * μ.other + max n (μ.capacity room)))
  relativePath : Yields L.relativePath (μ.Bounds (μ.capacity room))

end Level

namespace Production

variable {μ : Measure} {room n : Nat} {L : Level Id Expr} {axis : Axis} {left : Option Expr}

theorem yields_abbreviated : Yields (abbreviated Expr.builder axis) (μ.Bounds μ.other) := by
  refine .next fun _ => .bind (.lift (P := fun e => μ.Bounds μ.other (some e)) .axis) fun e he =>
    .next fun _ => ?_
  split
  · exact .next fun _ => .pure .none
  · exact .pure he

theorem yields_nodeTest : Yields (nodeTest Expr.builder axis) (μ.Bounds μ.other) := by
  have hleaf : ∀ {type : NodeType} {qualifier name : Option String},
      Yields (do return some (← Expr.builder.axis axis type qualifier name)) (μ.Bounds μ.other) :=
        .built .axis
  refine .next fun token => ?_
  split
  · split
    · refine .next fun _ => .next fun _ => ?_
      split <;> exact .next fun _ => .next fun _ => hleaf
    · exact .next fun _ => hleaf
  · exact .next fun _ => hleaf
  · exact .next fun _ => hleaf

theorem yields_tested (h : L.Holds μ room) :
    Yields (tested Expr.builder L axis)
      (μ.Bounds (room * μ.other + max μ.other (μ.capacity room))) :=
  .bind yields_nodeTest fun _ he => h.predicates _ he

theorem yields_step (h : L.Holds μ room) :
    Yields (step Expr.builder L) (μ.Bounds (room * μ.other + max μ.other (μ.capacity room))) := by
  have hshort : ∀ {axis : Axis}, Yields (abbreviated Expr.builder axis)
      (μ.Bounds (room * μ.other + max μ.other (μ.capacity room))) :=
    yields_abbreviated.imp fun _ he => he.mono (by omega)
  refine .next fun token => ?_
  split
  · exact hshort
  · exact hshort
  · exact .next fun _ => yields_tested h
  · exact .next fun _ => .next fun _ => yields_tested h
  · exact yields_tested h

theorem yields_descendants (h : L.Holds μ room) : Yields (descendants Expr.builder L)
    fun e => μ.Bounds (μ.other + max μ.other (μ.capacity room)) (some e) :=
  .bind (.lift (P := fun e => μ.Bounds μ.other (some e)) .axis) fun _ ha =>
    .bind h.relativePath fun _ he => .lift (.step ha he)

/-- The rest of a path adds one node in front, or two of which the second
stands for any descendant. -/
theorem yields_continued (h : L.Holds μ room) (hl : μ.Bounds n left) :
    Yields (continued Expr.builder L left)
      (μ.Bounds (μ.other + max n (μ.other + max μ.other (μ.capacity room)))) := by
  refine .next fun kind => ?_
  split
  · exact .next fun _ => .bind h.relativePath fun _ hr => .built (.step hl (hr.mono (by omega)))
  · exact .next fun _ => .bind (yields_descendants h) fun _ hr => .built (.step hl hr)
  · exact .pure (hl.mono (by omega))

theorem yields_relativePath (h : L.Holds μ room) :
    Yields (relativePath Expr.builder L) (μ.Bounds ((room + 3) * μ.other + μ.capacity room)) := by
  refine .next fun token => ?_
  split
  · refine .bind (yields_step h) fun _ he => (yields_continued h he).imp fun _ hp => hp.mono ?_
    rw [Nat.add_mul]
    omega
  · exact .next fun _ => .pure .none

theorem yields_locationPath (h : L.Holds μ room) :
    Yields (locationPath Expr.builder L) (μ.Bounds ((room + 3) * μ.other + μ.capacity room)) := by
  have hroot : Yields (liftM (Expr.builder.axis .root .any none none) : Reading Id Expr)
      fun e => μ.Bounds μ.other (some e) := .lift .axis
  have hroom : (room + 3) * μ.other = room * μ.other + 3 * μ.other := Nat.add_mul ..
  refine .next fun kind => ?_
  split
  · refine .next fun _ => .bind hroot fun root ha => .next fun _ => ?_
    split
    · exact .bind h.relativePath fun _ hr => .built ((Measure.Bounds.step ha hr).mono (by omega))
    · exact .pure (ha.mono (by omega))
  · exact .next fun _ => .bind hroot fun _ ha => .bind (yields_descendants h) fun _ hr =>
      .built ((Measure.Bounds.step ha hr).mono (by omega))
  · exact h.relativePath.imp fun _ he => he.mono (by omega)

theorem yields_arguments (h : L.Holds μ room) (limit : Nat) :
    Yields (arguments L limit) fun args => ∀ arg ∈ args, μ.Bounds (μ.capacity room) (some arg) := by
  have hlist : ∀ {node : Option Expr}, μ.Bounds (μ.capacity room) node →
      ∀ arg ∈ node.toList, μ.Bounds (μ.capacity room) (some arg) := by
    intro node hn arg harg
    rwa [Option.mem_toList.1 harg] at hn
  induction limit with
  | zero => exact .pure fun arg harg => absurd harg List.not_mem_nil
  | succ limit ih =>
    refine .bind (h.expr 0) fun first hf => .next fun kind => ?_
    split
    · refine .next fun _ => .bind ih fun rest hr => .pure fun arg harg => ?_
      exact (List.mem_append.1 harg).elim (hlist hf arg) (hr arg)
    · exact .pure (hlist hf)

theorem yields_call (h : L.Holds μ room) {qualifier : Option String} {name : String} :
    Yields (call Expr.builder L qualifier name) (μ.Bounds (μ.other + μ.capacity room)) := by
  refine .next fun _ => .next fun _ => .next fun kind => ?_
  split
  · exact .bind (.pure (P := fun args => ∀ arg ∈ args, μ.Bounds (μ.capacity room) (some arg))
      fun arg harg => absurd harg List.not_mem_nil) fun _ hargs =>
        .next fun _ => .built (.call hargs)
  · exact .next fun _ => .bind (yields_arguments h _) fun _ hargs =>
      .next fun _ => .built (.call hargs)

theorem yields_primary (h : L.Holds μ room) :
    Yields (primary Expr.builder L) (μ.Bounds (μ.other + μ.capacity room)) := by
  have hleaf : μ.other ≤ μ.other + μ.capacity room := Nat.le_add_right ..
  refine .next fun token => ?_
  split
  · exact .next fun _ => .built (.mono (.leaf rfl) hleaf)
  · exact .next fun _ => .built (.mono (.leaf rfl) hleaf)
  · refine .next fun _ => .next fun _ => .next fun _ => ?_
    split <;> exact .built (.mono (.leaf rfl) hleaf)
  · exact .next fun _ => .bind (h.expr 0) fun _ he => .next fun _ => .pure (he.mono (by omega))
  · exact yields_call h
  · exact .pure .none

theorem yields_path (h : L.Holds μ room) :
    Yields (path Expr.builder L) (μ.Bounds (μ.capacity room + (room + 3) * μ.other)) := by
  have hroom : (room + 3) * μ.other = room * μ.other + 3 * μ.other := Nat.add_mul ..
  refine .next fun token => ?_
  split
  · refine .bind (yields_primary h) fun _ hp => .bind (h.predicates _ hp) fun _ hf => ?_
    exact (yields_continued h hf).imp fun _ he => he.mono (by omega)
  · exact (yields_locationPath h).imp fun _ he => he.mono (by omega)

theorem yields_operand (h : L.Holds μ room) : Yields (operand Expr.builder L) (μ.Bounds
    (μ.capacity room + max μ.minus (room * μ.left + (μ.right - μ.minus)) +
      (room + 3) * μ.other)) := by
  refine .next fun kind => ?_
  split
  · exact .next fun _ => .bind (h.expr _) fun _ he => .built (he.negate.mono (by omega))
  · exact .bind (yields_path h) fun _ hp => (h.unions hp).imp fun _ he => he.mono (by omega)

theorem yields_condition (h : L.Holds μ room) : Yields (condition L) (μ.Bounds (μ.capacity room)) :=
  .next fun _ => .bind (h.expr 0) fun _ he => .next fun _ => .pure he

end Production

namespace Level

open Production

variable {μ : Measure} {room : Nat} {L : Level Id Expr}

theorem holds_none : (above Expr.builder none).Holds μ 0 where
  expr _ := .next fun _ => .pure .none
  operators floor left n h := by
    refine .next fun kind => ?_
    split
    · split
      · exact .pure (h.mono (by omega))
      · exact .next fun _ => .pure (h.mono (by omega))
    · exact .pure (h.mono (by omega))
  unions {left n} h := by
    refine .next fun kind => ?_
    split
    · exact .next fun _ => .pure (h.mono (by omega))
    · exact .pure (h.mono (by omega))
  predicates reverse base n h := by
    refine .next fun kind => ?_
    split
    · exact .next fun _ => .pure (h.mono (by omega))
    · exact .pure (h.mono (by omega))
  relativePath := .next fun _ => .pure .none

theorem holds_above (h : L.Holds μ room) : (above Expr.builder (some L)).Holds μ (room + 1) := by
  have hleft : (room + 1) * μ.left = room * μ.left + μ.left := Nat.succ_mul ..
  have hother : (room + 1) * μ.other = room * μ.other + μ.other := Nat.succ_mul ..
  have hpath : (room + 3) * μ.other ≤ (room + 1 + 3) * μ.other := Nat.mul_le_mul_right _ (by omega)
  have hcap : μ.capacity (room + 1) = μ.capacity room +
      max (room * μ.left + μ.minus) (2 * (room * μ.left) + (μ.right - μ.minus)) +
        (room + 3) * μ.other := rfl
  constructor
  case expr =>
    intro floor
    exact .bind (yields_operand h) fun _ he => (h.operators floor he).imp fun _ hn =>
      hn.mono (by omega)
  case operators =>
    intro floor left n hl
    refine .next fun kind => ?_
    split
    · split
      · exact .pure (hl.mono (by omega))
      · refine .next fun _ => .bind (h.expr _) fun _ hr => .bind
          (.lift (P := fun e => μ.Bounds _ (some e)) (.binary hl hr)) fun _ he => ?_
        exact (h.operators floor he).imp fun _ hn => hn.mono (by omega)
    · exact .pure (hl.mono (by omega))
  case unions =>
    intro left n hl
    refine .next fun kind => ?_
    split
    · refine .next fun _ => .bind (yields_path h) fun _ hr => .bind
        (.lift (P := fun e => μ.Bounds _ (some e)) (.binary hl hr)) fun _ he => ?_
      exact (h.unions he).imp fun _ hn => hn.mono (by omega)
    · exact .pure (hl.mono (by omega))
  case predicates =>
    intro reverse base n hb
    refine .next fun kind => ?_
    split
    · refine .bind (yields_condition h) fun _ hc => .bind
        (.lift (P := fun e => μ.Bounds _ (some e)) (.predicate hb hc)) fun _ he => ?_
      exact (h.predicates reverse he).imp fun _ hn => hn.mono (by omega)
    · exact .pure (hb.mono (by omega))
  case relativePath => exact (yields_relativePath h).imp fun _ he => he.mono (by omega)

theorem holds_ofRoom (room : Nat) : (ofRoom Expr.builder room).Holds μ room := by
  induction room with
  | zero => exact holds_none
  | succ room ih => exact holds_above ih

end Level

theorem Measure.of_parse (μ : Measure) {text : String} {e : Expr}
    (h : (Expr.parse text).result = some e) :
    μ.of e ≤ μ.capacity maxDepth := by
  have he : μ.Bounds (μ.capacity maxDepth) (Expr.parse text).result :=
    (Level.holds_ofRoom maxDepth).expr 0 (Reader.start text)
  rwa [h] at he

/-! ### The weight of the branches -/

namespace Expr

variable {k : Weights} {op : BinaryOp} {left right operand e : Expr} {args : List Expr} {n : Nat}

theorem heaviest_binary_le : (operator (.binary op) left right).heaviest k ≤
    max (k.operator + left.heaviest k) (k.operator + right.heaviest k) := by
  rw [heaviest]
  omega

theorem heaviest_negate_le :
    (operator .negate operand hole).heaviest k ≤ k.operator + operand.heaviest k := by
  rw [heaviest, heaviest_hole, Nat.max_zero]

theorem heaviest_step :
    (step left right).heaviest k = k.other + max (left.heaviest k) (right.heaviest k) := by
  rw [heaviest]

theorem heaviest_predicate {reverse : Bool} :
    (predicate left right reverse).heaviest k =
      k.other + max (left.heaviest k) (right.heaviest k) := by
  rw [heaviest]

theorem heaviest_call_le {qualifier : Option String} {name : String}
    (h : ∀ arg ∈ args, arg.heaviest k ≤ n) :
    (call qualifier name args).heaviest k ≤ k.other + n := by
  rw [heaviest]
  exact Nat.add_le_add_left (heaviestAll_le_iff.2 h) _

theorem heaviest_leaf_le (h : e.isLeaf = true) : e.heaviest k ≤ k.other := by
  cases e <;> simp_all [isLeaf, heaviest]

end Expr

/-- The weight of the heaviest branch. -/
def Weights.measure (k : Weights) : Measure where
  of e := e.heaviest k
  left := k.operator
  right := k.operator
  minus := k.operator
  other := k.other
  hole := Expr.heaviest_hole
  binary := Expr.heaviest_binary_le
  negate := Expr.heaviest_negate_le
  step := Nat.le_of_eq Expr.heaviest_step
  predicate := Nat.le_of_eq Expr.heaviest_predicate
  call := Expr.heaviest_call_le
  leaf := Expr.heaviest_leaf_le

/-- With `room + 1` levels, operators alone nest in each of two loops that
the levels below serve. -/
theorem capacity_operators (room : Nat) :
    (Weights.measure ⟨1, 0⟩).capacity (room + 1) = room * (room + 1) + 1 := by
  induction room with
  | zero => rfl
  | succ room ih =>
    rw [Measure.capacity, ih]
    simp only [Weights.measure]
    rw [Nat.max_eq_right (by omega)]
    ring

theorem heaviest_of_parse {k : Weights} {text : String} {e : Expr}
    (h : (Expr.parse text).result = some e) : e.heaviest k ≤ k.measure.capacity maxDepth :=
  k.measure.of_parse h

end YangConstraint
