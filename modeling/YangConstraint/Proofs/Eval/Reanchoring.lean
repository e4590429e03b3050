import Mathlib.Tactic.Common
import YangConstraint.Eval.Basic

/-!
What sets the flag of a scope. A named child test does, where it is evaluated from the context node
in a container; nothing else does, nothing takes the flag back, and a location path keeps its own
flag to itself.
-/
namespace YangConstraint

namespace Expr

mutual

/-- The nodes of a tree that are not inside a location path; a path counts as a whole. -/
def outer : Expr → List Expr
  | operator op left right => operator op left right :: (outer left ++ outer right)
  | predicate base condition reverse =>
    predicate base condition reverse :: (outer base ++ outer condition)
  | call qualifier name args => call qualifier name args :: outerAll args
  | e => [e]

def outerAll : List Expr → List Expr
  | [] => []
  | e :: es => outer e ++ outerAll es

end

/-- Whether the node is a test for children of a name. -/
def isNamedChild : Expr → Bool
  | axis .child _ _ (some _) => true
  | _ => false

def isPredicate : Expr → Bool
  | predicate .. => true
  | _ => false

def isStep : Expr → Bool
  | step .. => true
  | _ => false

variable {e arg : Expr} {args before rest : List Expr}

theorem mem_outer_self (e : Expr) : e ∈ e.outer := by
  cases e <;> simp [outer]

theorem outer_subset_outerAll (h : arg ∈ args) : arg.outer ⊆ outerAll args := by
  induction args with
  | nil => cases h
  | cons first args ih =>
    rw [outerAll]
    rcases List.mem_cons.1 h with rfl | h
    · exact List.subset_append_left _ _
    · exact fun part hp => List.mem_append_right _ (ih h hp)

end Expr

/-- A computation leaves the flag set where it finds it set or where `hit` tells
so, and only there. -/
def SetsIf {α : Type} (x : StateM Scope α) (hit : Scope → Prop) : Prop :=
  ∀ scope, (x.run scope).2.reanchored = true ↔ scope.reanchored = true ∨ hit scope

namespace SetsIf

variable {α β : Type} {x y : StateM Scope α} {f : α → StateM Scope β} {p q : Scope → Prop}
  {r : α → Scope → Prop}

theorem congr (h : SetsIf x p) (hpq : ∀ scope, q scope ↔ p scope) : SetsIf x q := by
  intro scope
  rw [h scope, hpq scope]

theorem pure (a : α) (hp : ∀ scope, ¬ p scope) : SetsIf (Pure.pure a) p := by
  intro scope
  exact (or_iff_left (hp scope)).symm

/-- What follows is done in the scope that is left behind. -/
theorem bind (hx : SetsIf x p) (hf : ∀ a, SetsIf (f a) (r a)) :
    SetsIf (x >>= f) fun scope => p scope ∨ r (x.run scope).1 (x.run scope).2 := by
  intro scope
  show ((f (x.run scope).1).run (x.run scope).2).2.reanchored = true ↔ _
  rw [hf, hx, or_assoc]

theorem ite {c : Prop} [Decidable c] (hx : c → SetsIf x p) (hy : ¬ c → SetsIf y p) :
    SetsIf (if c then x else y) p := by
  split
  · exact hx ‹_›
  · exact hy ‹_›

/-- What is done with the result does not matter where that leaves the scope alone. -/
theorem map (hx : SetsIf x p) (g : α → β) : SetsIf (do return g (← x)) p := hx

/-- Where nothing is hit, the scope stays as it is. -/
theorem run_eq (h : SetsIf x p) {scope : Scope} (hp : ¬ p scope) : (x.run scope).2 = scope := by
  have hflag := h scope
  rw [or_iff_left hp, Bool.coe_iff_coe] at hflag
  exact congrArg Scope.mk hflag

end SetsIf

namespace Context

/-- To evaluate an expression, outside its location paths, a node is evaluated from a path. Nodes
whose names stand for features are left out. -/
inductive Evaluates (ctx : Context) :
    Expr → Option String → Scope → Expr → Option String → Prop where
  | self (e : Expr) (start : Option String) (scope : Scope) : Evaluates ctx e start scope e start
  | left {op : Operator} {l r part : Expr} {start path : Option String} {scope : Scope}
    (hop : op ≠ .binary .union) (h : Evaluates ctx l start scope part path) :
    Evaluates ctx (.operator op l r) start scope part path
  | right {op : Operator} {l r part : Expr} {start path : Option String} {scope : Scope}
    (hop : op ≠ .binary .union)
    (h : Evaluates ctx r start ((evaluate ctx l start).run scope).2 part path) :
    Evaluates ctx (.operator op l r) start scope part path
  | base {base condition part : Expr} {reverse : Bool} {start path : Option String} {scope : Scope}
    (h : Evaluates ctx base start scope part path) :
    Evaluates ctx (.predicate base condition reverse) start scope part path
  | condition {base condition part : Expr} {reverse : Bool} {start path : Option String}
    {scope : Scope} (hc : condition.isHole = false)
    (hb : ((evaluate ctx base start).run scope).1.holds = true)
    (h : Evaluates ctx condition ((evaluate ctx base start).run scope).1.value?
      ((evaluate ctx base start).run scope).2 part path) :
    Evaluates ctx (.predicate base condition reverse) start scope part path
  | arg {f : Function} {qualifier : Option String} {name : String} {before rest : List Expr}
    {arg part : Expr} {start path : Option String} {scope : Scope}
    (hname : Function.ofName? name = some f) (hf : f ≠ .ifFeature)
    (hcount : f.evaluates (before ++ arg :: rest).length = true)
    (h : Evaluates ctx arg start ((evaluateAll ctx before start).run scope).2 part path) :
    Evaluates ctx (.call qualifier name (before ++ arg :: rest)) start scope part path

/-- The evaluation of an expression comes to a named child test at the context node, which lies in a
container, while names stand for nodes. -/
def Anchors (ctx : Context) (e : Expr) (start : Option String) (scope : Scope) : Prop :=
  ctx.ofFeatures = false ∧ ctx.inContainer = true ∧
    ∃ test : Expr, test.isNamedChild = true ∧ ctx.Evaluates e start scope test (some ctx.path)

/-- One of the expressions that are evaluated one after the other comes to such a test. -/
def AnchorsAll (ctx : Context) (es : List Expr) (start : Option String) (scope : Scope) : Prop :=
  ∃ before e rest, es = before ++ e :: rest ∧
    ctx.Anchors e start ((evaluateAll ctx before start).run scope).2

variable {ctx : Context} {e left right base condition : Expr} {es args : List Expr} {op : Operator}
  {f : Function} {name : String} {qualifier start : Option String} {reverse : Bool} {scope : Scope}

theorem mem_outer_of_evaluates {part : Expr} {path : Option String}
    (h : ctx.Evaluates e start scope part path) :
    part ∈ e.outer := by
  induction h with
  | self e => exact e.mem_outer_self
  | left _ _ ih => exact List.mem_cons_of_mem _ (List.mem_append_left _ ih)
  | right _ _ ih => exact List.mem_cons_of_mem _ (List.mem_append_right _ ih)
  | base _ ih => exact List.mem_cons_of_mem _ (List.mem_append_left _ ih)
  | condition _ _ _ ih => exact List.mem_cons_of_mem _ (List.mem_append_right _ ih)
  | @arg _ _ _ before rest arg _ _ _ _ _ _ _ _ ih =>
    have harg : arg ∈ before ++ arg :: rest := List.mem_append_right _ (.head _)
    exact List.mem_cons_of_mem _ (Expr.outer_subset_outerAll harg ih)

/-- Only the condition of a predicate is evaluated from another path. -/
theorem path_of_evaluates {part : Expr} {path : Option String}
    (h : ctx.Evaluates e start scope part path) (hp : ∀ node ∈ e.outer, node.isPredicate = false) :
    path = start := by
  induction h with
  | self => rfl
  | left _ _ ih =>
    exact ih fun node hn => hp node (List.mem_cons_of_mem _ (List.mem_append_left _ hn))
  | right _ _ ih =>
    exact ih fun node hn => hp node (List.mem_cons_of_mem _ (List.mem_append_right _ hn))
  | base => exact absurd (hp _ (.head _)) (by simp [Expr.isPredicate])
  | condition => exact absurd (hp _ (.head _)) (by simp [Expr.isPredicate])
  | @arg _ _ _ before rest arg _ _ _ _ _ _ _ _ ih =>
    have harg : arg ∈ before ++ arg :: rest := List.mem_append_right _ (.head _)
    exact ih fun node hn => hp node (List.mem_cons_of_mem _ (Expr.outer_subset_outerAll harg hn))

theorem not_anchors_self (he : e.isNamedChild = false)
    (hself : ∀ part path, ctx.Evaluates e start scope part path → part = e) :
    ¬ ctx.Anchors e start scope := by
  rintro ⟨-, -, test, ht, h⟩
  rw [hself test _ h, he] at ht
  cases ht

/-- The right operand is evaluated in the scope that the left one leaves. -/
theorem anchors_operator (hop : op ≠ .binary .union) :
    ctx.Anchors (.operator op left right) start scope ↔
      ctx.Anchors left start scope ∨
      ctx.Anchors right start ((evaluate ctx left start).run scope).2 := by
  constructor
  · rintro ⟨hf, hc, test, ht, h⟩
    cases h with
    | self => cases ht
    | left _ h => exact .inl ⟨hf, hc, test, ht, h⟩
    | right _ h => exact .inr ⟨hf, hc, test, ht, h⟩
  · rintro (⟨hf, hc, test, ht, h⟩ | ⟨hf, hc, test, ht, h⟩)
    · exact ⟨hf, hc, test, ht, .left hop h⟩
    · exact ⟨hf, hc, test, ht, .right hop h⟩

theorem anchors_predicate : ctx.Anchors (.predicate base condition reverse) start scope ↔
    ctx.Anchors base start scope ∨
      let outcome := (evaluate ctx base start).run scope
      (condition.isHole || !outcome.1.holds) = false ∧
      ctx.Anchors condition outcome.1.value? outcome.2 := by
  constructor
  · rintro ⟨hf, hc, test, ht, h⟩
    cases h with
    | self => cases ht
    | base h => exact .inl ⟨hf, hc, test, ht, h⟩
    | condition hhole hb h => exact .inr ⟨by simp [hhole, hb], hf, hc, test, ht, h⟩
  · rintro (⟨hf, hc, test, ht, h⟩ | ⟨hcond, hf, hc, test, ht, h⟩)
    · exact ⟨hf, hc, test, ht, .base h⟩
    · rw [Bool.or_eq_false_iff, Bool.not_eq_false'] at hcond
      exact ⟨hf, hc, test, ht, .condition hcond.1 hcond.2 h⟩

/-- The arguments of a function are evaluated one after the other, where it evaluates them. -/
theorem anchors_call (hname : Function.ofName? name = some f) :
    ctx.Anchors (.call qualifier name args) start scope ↔
      f ≠ .ifFeature ∧ f.evaluates args.length = true ∧ ctx.AnchorsAll args start scope := by
  constructor
  · rintro ⟨hf, hc, test, ht, h⟩
    cases h with
    | self => cases ht
    | @arg g _ _ before rest arg _ _ _ _ hg hne hcount h =>
      obtain rfl : f = g := Option.some.inj (hname.symm.trans hg)
      exact ⟨hne, hcount, before, arg, rest, rfl, hf, hc, test, ht, h⟩
  · rintro ⟨hne, hcount, before, arg, rest, rfl, hf, hc, test, ht, h⟩
    exact ⟨hf, hc, test, ht, .arg hname hne hcount h⟩

theorem anchors_axis {a : Axis} {type : NodeType} {label : Option String} :
    ctx.Anchors (.axis a type qualifier label) start scope ↔
      ctx.ofFeatures = false ∧ ctx.inContainer = true ∧
        (Expr.axis a type qualifier label).isNamedChild = true ∧ start = some ctx.path := by
  constructor
  · rintro ⟨hf, hc, test, ht, h⟩
    cases h with
    | self => exact ⟨hf, hc, ht, rfl⟩
  · rintro ⟨hf, hc, ht, rfl⟩
    exact ⟨hf, hc, _, ht, .self ..⟩

theorem not_anchorsAll_nil : ¬ ctx.AnchorsAll [] start scope := by
  rintro ⟨before, e, rest, h, -⟩
  simp at h

theorem anchorsAll_cons : ctx.AnchorsAll (e :: es) start scope ↔
    ctx.Anchors e start scope ∨ ctx.AnchorsAll es start ((evaluate ctx e start).run scope).2 := by
  constructor
  · rintro ⟨before, arg, rest, hes, h⟩
    cases before with
    | nil =>
      obtain ⟨rfl, rfl⟩ := List.cons.inj hes
      exact .inl h
    | cons first before =>
      obtain ⟨rfl, rfl⟩ := List.cons.inj hes
      exact .inr ⟨before, arg, rest, rfl, h⟩
  · rintro (h | ⟨before, arg, rest, rfl, h⟩)
    · exact ⟨[], e, es, rfl, h⟩
    · exact ⟨e :: before, arg, rest, rfl, h⟩

/-- A named child test at the context node sets the flag where it lies in a container. -/
theorem setsIf_child (name : String) : SetsIf (ctx.child start name) fun _ =>
    ctx.inContainer = true ∧ start = some ctx.path := by
  rintro ⟨reanchored⟩
  show (ctx.child start name ⟨reanchored⟩).2.reanchored = true ↔ _
  by_cases hstart : start = some ctx.path <;> cases hc : ctx.inContainer <;> cases reanchored <;>
    simp [child, hstart, hc]

theorem setsIf_along (a : Axis) (type : NodeType) (label : Option String) :
    SetsIf (ctx.along start a label) (ctx.Anchors (.axis a type qualifier label) start) := by
  refine .congr (p := fun _ => ctx.ofFeatures = false ∧ ctx.inContainer = true ∧
    (Expr.axis a type qualifier label).isNamedChild = true ∧ start = some ctx.path) ?_ fun _ =>
      anchors_axis
  rw [along.eq_def]
  split
  case h_3 =>
    split
    · exact .pure _ fun _ h => by simp_all
    · exact (setsIf_child _).congr fun _ => by simp_all [Expr.isNamedChild]
  all_goals exact .pure _ fun _ h => by simp_all [Expr.isNamedChild]

end Context

mutual

/-- An expression sets the flag just if its evaluation comes to a named child test
at the context node. -/
theorem setsIf_evaluate (ctx : Context) (e : Expr) (start : Option String) :
    SetsIf (evaluate ctx e start) (ctx.Anchors e start) := by
  cases e with
  | hole | string _ | number _ | reference _ _ =>
    rw [evaluate]
    refine .pure _ fun _ => Context.not_anchors_self rfl fun part path h => ?_
    cases h
    rfl
  | operator op left right =>
    rw [evaluate]
    refine .ite (fun hop => .pure _ fun _ => Context.not_anchors_self rfl fun part path h => ?_)
      fun hop => ?_
    · cases h with
      | self => rfl
      | left hne => exact absurd hop hne
      | right hne => exact absurd hop hne
    · refine .congr (.bind (setsIf_evaluate ctx left start) (r := fun _ => ctx.Anchors right start)
        fun l => ?_) fun _ => Context.anchors_operator hop
      exact (setsIf_evaluate ctx right start).map _
  | axis a type qualifier name =>
    rw [evaluate]
    exact Context.setsIf_along a type name
  | step left right =>
    rw [evaluate]
    have hnone (scope : Scope) : ¬ ctx.Anchors (.step left right) start scope :=
      Context.not_anchors_self rfl fun part path h => by
        cases h
        rfl
    exact .ite (fun _ => .pure _ hnone) fun _ => .pure _ hnone
  | predicate base condition reverse =>
    rw [evaluate]
    refine .congr (.bind (setsIf_evaluate ctx base start) (r := fun outcome scope =>
      (condition.isHole || !outcome.holds) = false ∧ ctx.Anchors condition outcome.value? scope)
      fun outcome => ?_) fun _ => Context.anchors_predicate
    refine .ite (fun h => .pure _ fun _ hp => by simp [h] at hp) fun h => ?_
    rw [Bool.not_eq_true] at h
    exact ((setsIf_evaluate ctx condition outcome.value?).map _).congr fun _ => and_iff_right h
  | call qualifier name args =>
    rw [evaluate]
    split
    · rename_i hname
      refine .pure _ fun _ => Context.not_anchors_self rfl fun part path h => ?_
      cases h with
      | self => rfl
      | arg hg => rw [hname] at hg; cases hg
    · rename_i f hname
      refine .ite (fun hcount => ?_) fun hcount => ?_
      · refine ((setsIf_evaluateAll _ args start).map _).congr fun scope => ?_
        rw [Context.anchors_call hname]
        split
        · rename_i hf
          have hnone : ¬ ctx.forFeatures.AnchorsAll args start scope := by
            rintro ⟨-, -, -, -, hf, -⟩
            cases hf
          simp [hf, hnone]
        · rename_i hf
          simp [hf, hcount]
      · refine .pure _ fun scope h => ?_
        rw [Context.anchors_call hname] at h
        exact hcount h.2.1

theorem setsIf_evaluateAll (ctx : Context) (es : List Expr) (start : Option String) :
    SetsIf (evaluateAll ctx es start) (ctx.AnchorsAll es start) := by
  cases es with
  | nil =>
    rw [evaluateAll]
    exact .pure _ fun _ => Context.not_anchorsAll_nil
  | cons e es =>
    rw [evaluateAll]
    refine .congr (.bind (setsIf_evaluate ctx e start) (r := fun _ => ctx.AnchorsAll es start)
      fun outcome => ?_) fun _ => Context.anchorsAll_cons
    exact (setsIf_evaluateAll ctx es start).map _

end

/-- An evaluation never takes the flag back. It sets the flag just if it comes to a named child
test, outside all location paths, from the path of the context node, and that node lies in a
container. Among features, for a location path, and for a tree without predicates that does not
start at the context node it leaves the scope as it is. -/
theorem evaluate_scope (ctx : Context) (e : Expr) (start : Option String) (scope : Scope) :
    let after := ((evaluate ctx e start).run scope).2
    (after.reanchored = true ↔ scope.reanchored = true ∨
      ctx.ofFeatures = false ∧ ctx.inContainer = true ∧
        ∃ test ∈ e.outer, test.isNamedChild = true ∧
          ctx.Evaluates e start scope test (some ctx.path)) ∧
    (ctx.ofFeatures = true → after = scope) ∧
    (e.isStep = true → after = scope) ∧
    ((∀ node ∈ e.outer, node.isPredicate = false) → start ≠ some ctx.path → after = scope) := by
  intro after
  have hsets : SetsIf (evaluate ctx e start) (ctx.Anchors e start) := setsIf_evaluate ctx e start
  refine ⟨?_, fun hf => hsets.run_eq ?_, fun hstep => hsets.run_eq ?_, fun hp hs => hsets.run_eq ?_⟩
  · rw [hsets scope, Context.Anchors]
    refine or_congr_right (and_congr_right
      fun _ => and_congr_right fun _ => exists_congr fun test => ?_)
    exact ⟨fun ⟨ht, h⟩ => ⟨Context.mem_outer_of_evaluates h, ht, h⟩, fun ⟨_, ht, h⟩ => ⟨ht, h⟩⟩
  · rintro ⟨hnone, -⟩
    rw [hf] at hnone
    cases hnone
  · rintro ⟨-, -, test, ht, h⟩
    cases e with
    | step left right =>
      cases h
      cases ht
    | _ => cases hstep
  · rintro ⟨-, -, test, -, h⟩
    exact hs (Context.path_of_evaluates h hp).symm

/-- The tree of `current()[c]`. -/
def currentWithC : Expr :=
  .predicate (.call none "current" []) (.axis .child .element none (some "c")) false

/-- The condition of a predicate on the context node is a test there, though the evaluation starts
nowhere; the same test by itself is none, nor is it one among features. -/
theorem evaluate_scope_current :
    let schema := (Schema.empty.insertPath "/a/b").2
    let ctx : Context := ⟨⟨schema, .none, {}⟩, "/a/b", .new "/", false⟩
    let c := Expr.axis .child .element none (some "c")
    ((evaluate ctx currentWithC none).run {}).2.reanchored = true ∧
      ((evaluate ctx.forFeatures currentWithC none).run {}).2 = {} ∧
      ((evaluate ctx (.step c .hole) (some "/a/b")).run {}).2 = {} ∧
      none ≠ some ctx.path ∧ ((evaluate ctx c none).run {}).2 = {} := by
  intro schema ctx c
  have hcontainer : ctx.inContainer = true := by decide +kernel
  have htest : ctx.Evaluates currentWithC none {} c (some ctx.path) := .condition rfl rfl (.self ..)
  obtain ⟨hset, -⟩ := evaluate_scope ctx currentWithC none {}
  obtain ⟨-, hfeatures, -⟩ := evaluate_scope ctx.forFeatures currentWithC none {}
  obtain ⟨-, -, hstep, -⟩ := evaluate_scope ctx (.step c .hole) (some "/a/b") {}
  obtain ⟨-, -, -, halone⟩ := evaluate_scope ctx c none {}
  refine ⟨hset.2 (.inr ⟨rfl, hcontainer, c, ?_, rfl, htest⟩), hfeatures rfl, hstep rfl, nofun,
    halone ?_ nofun⟩
  · exact Context.mem_outer_of_evaluates htest
  · intro node hnode
    obtain rfl := List.mem_singleton.1 hnode
    rfl

end YangConstraint
