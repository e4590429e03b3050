import Mathlib.Tactic.Common
import YangConstraint.Eval.Basic

/-!
What evaluation does to its scope. A child test is re-anchored once: the flag that says so is never
taken back, and what an expression comes to depends on it only where it would be set.
-/
namespace YangConstraint

/-- A computation that re-anchors at most once. If it does not re-anchor by itself, it comes to the
same where something else has. -/
structure AnchorsOnce {α : Type} (x : StateM Scope α) : Prop where
  stays : (x.run ⟨true⟩).2 = ⟨true⟩
  spared : (x.run ⟨false⟩).2 = ⟨false⟩ → (x.run ⟨true⟩).1 = (x.run ⟨false⟩).1

namespace AnchorsOnce

variable {α β : Type} {x y : StateM Scope α} {f : α → StateM Scope β}

theorem pure (a : α) : AnchorsOnce (Pure.pure a : StateM Scope α) := ⟨rfl, fun _ => rfl⟩

/-- What follows cannot take the flag back, so neither of two computations has set it where it is
clear at the end. -/
theorem bind (hx : AnchorsOnce x) (hf : ∀ a, AnchorsOnce (f a)) : AnchorsOnce (x >>= f) where
  stays := by
    show ((f (x.run ⟨true⟩).1).run (x.run ⟨true⟩).2).2 = ⟨true⟩
    rw [hx.stays]
    exact (hf _).stays
  spared := by
    intro h
    change ((f (x.run ⟨false⟩).1).run (x.run ⟨false⟩).2).2 = ⟨false⟩ at h
    show ((f (x.run ⟨true⟩).1).run (x.run ⟨true⟩).2).1 =
      ((f (x.run ⟨false⟩).1).run (x.run ⟨false⟩).2).1
    obtain ⟨reanchored, hscope⟩ : ∃ reanchored, (x.run ⟨false⟩).2 = ⟨reanchored⟩ := ⟨_, rfl⟩
    cases reanchored with
    | true =>
      rw [hscope, (hf _).stays] at h
      cases h
    | false =>
      rw [hscope] at h ⊢
      rw [hx.stays, hx.spared hscope]
      exact (hf _).spared h

theorem ite {p : Prop} [Decidable p] (hx : AnchorsOnce x) (hy : AnchorsOnce y) :
    AnchorsOnce (if p then x else y) := by
  split
  · exact hx
  · exact hy

end AnchorsOnce

namespace Context

/-- A child test sets the flag just where it minds it. -/
theorem anchorsOnce_child (ctx : Context) (start : Option String) (name : String) :
    AnchorsOnce (ctx.child start name) := by
  have hset :
      ctx.child start name ⟨true⟩ = (.ofValue (Path.join (start.getD ctx.path) name), ⟨true⟩) := rfl
  refine ⟨congrArg Prod.snd hset, fun h => ?_⟩
  change (ctx.child start name ⟨false⟩).2 = ⟨false⟩ at h
  show (ctx.child start name ⟨true⟩).1 = (ctx.child start name ⟨false⟩).1
  by_cases hc : (!false && decide (start = some ctx.path) && ctx.inContainer) = true
  · rw [child, if_pos hc] at h
    cases h
  · rw [hset, child, if_neg hc]

theorem anchorsOnce_along (ctx : Context) (start : Option String) (axis : Axis)
    (name : Option String) :
    AnchorsOnce (ctx.along start axis name) := by
  rw [along.eq_def]
  split
  case h_3 => exact .ite (.pure _) (ctx.anchorsOnce_child start _)
  all_goals exact .pure _

end Context

mutual

/-- An expression re-anchors at most once outside its location paths, each of which has a
scope of its own. -/
theorem anchorsOnce_evaluate (ctx : Context) (e : Expr) (start : Option String) :
    AnchorsOnce (evaluate ctx e start) := by
  cases e with
  | hole | string _ | number _ | reference _ _ =>
    rw [evaluate]
    exact .pure _
  | operator op left right =>
    rw [evaluate]
    refine .ite (.pure _) ?_
    refine .bind (anchorsOnce_evaluate ctx left start) fun l => ?_
    exact .bind (anchorsOnce_evaluate ctx right start) fun r => .pure _
  | axis axis type qualifier name =>
    rw [evaluate]
    exact ctx.anchorsOnce_along start axis name
  | step left right =>
    rw [evaluate]
    exact .ite (.pure _) (.pure _)
  | predicate base condition reverse =>
    rw [evaluate]
    refine .bind (anchorsOnce_evaluate ctx base start) fun outcome => ?_
    refine .ite (.pure _) ?_
    exact .bind (anchorsOnce_evaluate ctx condition outcome.value?) fun held => .pure _
  | call qualifier name args =>
    rw [evaluate]
    split
    · exact .pure _
    · refine .ite ?_ (.bind (.pure _) fun outcomes => .pure _)
      exact .bind (anchorsOnce_evaluateAll _ args start) fun outcomes => .pure _

theorem anchorsOnce_evaluateAll (ctx : Context) (es : List Expr) (start : Option String) :
    AnchorsOnce (evaluateAll ctx es start) := by
  cases es with
  | nil =>
    rw [evaluateAll]
    exact .pure _
  | cons e es =>
    rw [evaluateAll]
    refine .bind (anchorsOnce_evaluate ctx e start) fun outcome => ?_
    exact .bind (anchorsOnce_evaluateAll ctx es start) fun outcomes => .pure _

end

namespace Context

/-- Whether an expression sets the flag where it is clear. -/
def reanchors (ctx : Context) (e : Expr) (start : Option String) : Bool :=
  ((evaluate ctx e start).run {}).2.reanchored

variable {ctx : Context} {first e : Expr} {start : Option String} {scope : Scope}

/-- Of two expressions, the second comes to the same behind the first as without it, unless both
would set the flag. -/
theorem evaluate_behind
    (h : scope.reanchored = true ∨ ctx.reanchors first start = false ∨
      ctx.reanchors e start = false) :
    ((evaluate ctx e start).run ((evaluate ctx first start).run scope).2).1 =
      ((evaluate ctx e start).run scope).1 := by
  have hfirst := anchorsOnce_evaluate ctx first start
  have he := anchorsOnce_evaluate ctx e start
  obtain ⟨reanchored⟩ := scope
  cases reanchored with
  | true => rw [hfirst.stays]
  | false =>
    obtain ⟨after, hafter⟩ : ∃ after, ((evaluate ctx first start).run ⟨false⟩).2 = ⟨after⟩ :=
      ⟨_, rfl⟩
    rw [hafter]
    cases after with
    | false => rfl
    | true =>
      have hsets : ctx.reanchors first start = true := congrArg Scope.reanchored hafter
      have hspared : ctx.reanchors e start = false := by simpa [hsets] using h
      exact he.spared (congrArg Scope.mk hspared)

end Context

end YangConstraint
