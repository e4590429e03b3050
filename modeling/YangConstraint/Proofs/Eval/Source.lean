import Mathlib.Tactic.Common
import YangConstraint.Eval.Basic

/-!
The tree shadows the source behind it. Evaluation reads stored data in three ways: whether there is
a node, which value it has, and how many children. None of them asks the source about a path that
the tree holds.
-/
namespace YangConstraint

namespace Context

/-- The same context with other data outside the tree. -/
def withSource (ctx : Context) (source : DataSource) : Context := { ctx with source }

/-- Neither source can be told from the other where the context asks for it. -/
def Shadows (ctx : Context) (a b : DataSource) : Prop :=
  ctx.settings.storeFallback = true →
    ∀ path, ctx.data.find? path = none → a.tree? path = b.tree? path ∧ a.value? path = b.value? path

variable {ctx : Context} {a b : DataSource}

/-- What is asked about a path that the tree does not hold is answered alike, if it
is asked at all. -/
theorem Shadows.answers {path : String} (h : ctx.Shadows a b) (hf : ctx.data.find? path = none) :
    (if ctx.settings.storeFallback then a.tree? path else none) =
        (if ctx.settings.storeFallback then b.tree? path else none) ∧
      (if ctx.settings.storeFallback then a.value? path else none) =
        (if ctx.settings.storeFallback then b.value? path else none) := by
  by_cases hs : ctx.settings.storeFallback = true
  · obtain ⟨htree, hvalue⟩ := h hs path hf
    simp only [hs, htree, hvalue, and_self]
  · simp only [hs, Bool.false_eq_true, if_false, and_self]

theorem node?_shadows (h : ctx.Shadows a b) (path : String) :
    (ctx.withSource a).node? path = (ctx.withSource b).node? path := by
  simp only [node?, withSource]
  cases hf : ctx.data.find? path with
  | some node => rfl
  | none => exact congrArg (Option.or none) (h.answers hf).1

theorem stored?_shadows (h : ctx.Shadows a b) (path : String) :
    (ctx.withSource a).stored? path = (ctx.withSource b).stored? path := by
  simp only [stored?, withSource]
  cases hf : ctx.data.find? path with
  | some node => rfl
  | none => exact (h.answers hf).2

theorem existing?_shadows (h : ctx.Shadows a b) (path : String) :
    (ctx.withSource a).existing? path = (ctx.withSource b).existing? path := by
  rw [existing?, existing?, node?_shadows h]
  rfl

theorem resolve_shadows (h : ctx.Shadows a b) :
    (ctx.withSource a).resolve = (ctx.withSource b).resolve := by
  funext resolved
  simp only [resolve, existing?_shadows h]

theorem operand_shadows (h : ctx.Shadows a b) (e : Expr) (outcome : Outcome) :
    (ctx.withSource a).operand e outcome = (ctx.withSource b).operand e outcome := by
  cases e with
  | axis =>
    rw [operand, operand, resolve_shadows h]
    rfl
  | _ => rfl

theorem leftValue_shadows (h : ctx.Shadows a b) (e : Expr) (outcome : Outcome) :
    (ctx.withSource a).leftValue e outcome = (ctx.withSource b).leftValue e outcome := by
  have hs : (ctx.withSource a).stored? = (ctx.withSource b).stored? := funext (stored?_shadows h)
  rw [leftValue, leftValue, hs]

/-- Besides the value of the left operand, an operator reads the schema alone. -/
theorem operate_shadows (h : ctx.Shadows a b) (op : Operator) (left right : Expr) (l r : Outcome) :
    (ctx.withSource a).operate op left right l r =
      (ctx.withSource b).operate op left right l r := by
  have hc : (ctx.withSource a).comparable = (ctx.withSource b).comparable := rfl
  cases op with
  | negate => simp only [operate, leftValue_shadows h]
  | binary op => cases op <;> simp only [operate, leftValue_shadows h, hc]

/-- Of the functions, only `count()` asks for stored data. -/
theorem apply_shadows (h : ctx.Shadows a b) (f : Function) (args : List Expr)
    (outcomes : List Outcome) :
    (ctx.withSource a).apply f args outcomes = (ctx.withSource b).apply f args outcomes := by
  have hn : (ctx.withSource a).childCount = (ctx.withSource b).childCount := by
    funext path
    rw [childCount, childCount, node?_shadows h]
  have hcount : (ctx.withSource a).countOf = (ctx.withSource b).countOf := by
    funext outcome
    simp only [countOf, hn]
  have hfeature : (ctx.withSource a).featureOf = (ctx.withSource b).featureOf := rfl
  have hderivation : (ctx.withSource a).derivation = (ctx.withSource b).derivation := rfl
  cases f <;> simp only [apply, hcount, hfeature, hderivation] <;> rfl

end Context

open Context

variable {a b : DataSource}

mutual

theorem evaluate_shadows {ctx : Context} (h : ctx.Shadows a b) (e : Expr) (start : Option String) :
    evaluate (ctx.withSource a) e start = evaluate (ctx.withSource b) e start := by
  cases e with
  | hole | string _ | number _ | reference _ _ | axis _ _ _ _ => rfl
  | operator op left right =>
    simp only [evaluate, evaluate_shadows h left, evaluate_shadows h right, operand_shadows h,
      operate_shadows h]
  | step left right =>
    simp only [evaluate, evaluate_shadows h left, evaluate_shadows h right, resolve_shadows h]
    rfl
  | predicate base condition reverse =>
    simp only [evaluate, evaluate_shadows h base, evaluate_shadows h condition]
  | call qualifier name args =>
    have hfeatures : ctx.forFeatures.Shadows a b := h
    have hargs : ∀ f, evaluateAll (if f = Function.ifFeature then (ctx.withSource a).forFeatures
        else ctx.withSource a) args start =
      evaluateAll (if f = Function.ifFeature then (ctx.withSource b).forFeatures
        else ctx.withSource b) args start := by
      intro f
      split
      · exact evaluateAll_shadows hfeatures args start
      · exact evaluateAll_shadows h args start
    simp only [evaluate, hargs, apply_shadows h]

theorem evaluateAll_shadows {ctx : Context} (h : ctx.Shadows a b) (es : List Expr)
    (start : Option String) :
    evaluateAll (ctx.withSource a) es start = evaluateAll (ctx.withSource b) es start := by
  cases es with
  | nil => rfl
  | cons e es => simp only [evaluateAll, evaluate_shadows h e, evaluateAll_shadows h es]

end

/-- Sources that answer alike about every path that the tree does not hold give every expression the
same outcome and leave the same scope; where nothing is looked up outside, any two sources do. -/
theorem evaluate_shadowed (ctx : Context) (a b : DataSource) (e : Expr) (start : Option String)
    (scope : Scope) :
    ((∀ path, ctx.data.find? path = none →
        a.tree? path = b.tree? path ∧ a.value? path = b.value? path) →
      (evaluate (ctx.withSource a) e start).run scope =
        (evaluate (ctx.withSource b) e start).run scope) ∧
    (ctx.settings.storeFallback = false →
      (evaluate (ctx.withSource a) e start).run scope =
        (evaluate (ctx.withSource b) e start).run scope) := by
  refine ⟨fun h => ?_, fun hs => ?_⟩
  · have hshadows : ctx.Shadows a b := fun _ => h
    rw [evaluate_shadows hshadows]
  · have hshadows : ctx.Shadows a b := fun ht => absurd (hs.symm.trans ht) Bool.false_ne_true
    rw [evaluate_shadows hshadows]

/-- A source that has another value than the tree for the path `/a/b`. -/
def otherValue : DataSource where
  name := "other"
  tree? path := if path = "/a/b" then some ⟨path, some "2", []⟩ else none
  value? path := if path = "/a/b" then some "2" else none

/-- The node `/a`, above a node with the value 1. -/
def aboveValue : Context :=
  ⟨⟨.empty, .none, {}⟩, "/a", (DataTree.new "/").put "1" ["a", "b"], false⟩

/-- The expression `current()/b = '1'`. -/
def valueIsOne : Expr :=
  .operator (.binary .eq) (.step (.call none "current" []) (.axis .child .element none (some "b")))
    (.string "1")

/-- The value in the tree is read although the source has another one. -/
theorem evaluate_shadowed_other :
    (∀ path, aboveValue.data.find? path = none →
      otherValue.tree? path = DataSource.none.tree? path ∧
      otherValue.value? path = DataSource.none.value? path) ∧
    (evaluate (aboveValue.withSource otherValue) valueIsOne none).run {} = (.plain, {}) ∧
    (evaluate ({ aboveValue with settings := ⟨false, false⟩ }.withSource otherValue)
      valueIsOne none).run {} = (.plain, {}) := by
  have hagree : ∀ path, aboveValue.data.find? path = none →
      otherValue.tree? path = DataSource.none.tree? path ∧
        otherValue.value? path = DataSource.none.value? path := by
    intro path h
    have hne : path ≠ "/a/b" := by
      rintro rfl
      exact absurd h (by decide +kernel)
    simp [otherValue, DataSource.none, hne]
  refine ⟨hagree, ?_, ?_⟩
  · rw [(evaluate_shadowed aboveValue otherValue .none valueIsOne none {}).1 hagree]
    exact Prod.ext (by decide +kernel) rfl
  · rw [(evaluate_shadowed { aboveValue with settings := ⟨false, false⟩ } otherValue .none
      valueIsOne none {}).2 rfl]
    exact Prod.ext (by decide +kernel) rfl

end YangConstraint
