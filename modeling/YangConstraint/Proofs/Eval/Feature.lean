import Mathlib.Tactic.Common
import YangConstraint.Proofs.Eval.Comparison

/-!
Formulas over features. Where names stand for features, `and`, `or`, `not()` and `boolean()` are
those of propositional logic: a name reads the schema alone, and nothing is re-anchored.
-/
namespace YangConstraint

namespace Expr

/-- Trees of names, `and`, `or`, and calls of `not()` and `boolean()` with
any number of arguments. -/
inductive IsFormula : Expr → Prop where
  | name (type : NodeType) (qualifier : Option String) (name : String) :
    IsFormula (.axis .child type qualifier (some name))
  | and {a b : Expr} (ha : IsFormula a) (hb : IsFormula b) :
    IsFormula (.operator (.binary .and) a b)
  | or {a b : Expr} (ha : IsFormula a) (hb : IsFormula b) : IsFormula (.operator (.binary .or) a b)
  | not (qualifier : Option String) {args : List Expr} (h : ∀ arg ∈ args, IsFormula arg) :
    IsFormula (.call qualifier "not" args)
  | boolean (qualifier : Option String) {args : List Expr} (h : ∀ arg ∈ args, IsFormula arg) :
    IsFormula (.call qualifier "boolean" args)

mutual

/-- Whether a formula is true where `enabled` tells which names are. -/
def truth (enabled : String → Bool) : Expr → Bool
  | axis .child _ _ (some name) => enabled name
  | operator (.binary .and) a b => truth enabled a && truth enabled b
  | operator (.binary .or) a b => truth enabled a || truth enabled b
  | call _ "not" args => !anyTruth enabled args
  | call _ "boolean" args => anyTruth enabled args
  | _ => false

/-- Whether one of the formulas is true. -/
def anyTruth (enabled : String → Bool) : List Expr → Bool
  | [] => false
  | e :: es => truth enabled e || anyTruth enabled es

end

end Expr

namespace Context

variable {ctx : Context} {a b e : Expr} {args : List Expr} {start : Option String} {scope : Scope}

/-- From wherever it is evaluated, an expression comes to the verdict and leaves the
scope as it is. -/
def Decides (ctx : Context) (e : Expr) (verdict : Bool) : Prop :=
  ∀ start scope,
    ((evaluate ctx e start).run scope).1.holds = verdict ∧
    ((evaluate ctx e start).run scope).2 = scope

theorem operand_forFeatures (e : Expr) (outcome : Outcome) :
    ctx.forFeatures.operand e outcome = outcome := by
  cases e <;> rfl

theorem holds_feature (ctx : Context) (name : String) :
    (ctx.feature name).holds = ctx.featureEnabled name := by
  rw [feature]
  cases ctx.featureEnabled name <;> rfl

theorem decides_name (ctx : Context) (type : NodeType) (qualifier : Option String) (name : String) :
    ctx.forFeatures.Decides (.axis .child type qualifier (some name))
      (ctx.featureEnabled name) := by
  intro start scope
  have hname :
      (evaluate ctx.forFeatures (.axis .child type qualifier (some name)) start).run scope =
        (ctx.forFeatures.feature name, scope) := by
    rw [evaluate]
    rfl
  rw [hname]
  exact ⟨holds_feature ctx.forFeatures name, rfl⟩

theorem operands_decided {p q : Bool} (ha : ctx.forFeatures.Decides a p)
    (hb : ctx.forFeatures.Decides b q) (start : Option String) (scope : Scope) :
    let read := (ctx.forFeatures.operands a b start).run scope
    read.1.1.holds = p ∧ read.1.2.holds = q ∧ read.2 = scope := by
  obtain ⟨hleft, hbetween⟩ := ha start scope
  obtain ⟨hright, hbehind⟩ := hb start ((evaluate ctx.forFeatures a start).run scope).2
  refine ⟨?_, ?_, hbehind.trans hbetween⟩
  · show (ctx.forFeatures.operand a _).holds = p
    rw [operand_forFeatures]
    exact hleft
  · show (ctx.forFeatures.operand b _).holds = q
    rw [operand_forFeatures]
    exact hright

/-- Operators that are about the verdicts on their operands alone. -/
theorem decides_binary {op : BinaryOp} {g : Bool → Bool → Bool} {p q : Bool} (hop : op ≠ .union)
    (hg : ∀ left right, ctx.forFeatures.operate (.binary op) a b left right =
      .ofBool (g left.holds right.holds))
    (ha : ctx.forFeatures.Decides a p) (hb : ctx.forFeatures.Decides b q) :
    ctx.forFeatures.Decides (.operator (.binary op) a b) (g p q) := by
  intro start scope
  obtain ⟨rfl, rfl, hscope⟩ := operands_decided ha hb start scope
  rw [evaluate_binary hop, hg]
  exact ⟨Outcome.holds_ofBool, hscope⟩

/-- Arguments are evaluated one after the other, and none of them changes the scope for the next. -/
theorem evaluateAll_decided {enabled : String → Bool}
    (h : ∀ arg ∈ args, ctx.forFeatures.Decides arg (arg.truth enabled)) (start : Option String)
    (scope : Scope) :
    let outcomes := (evaluateAll ctx.forFeatures args start).run scope
    outcomes.1.any Outcome.holds = Expr.anyTruth enabled args ∧ outcomes.2 = scope := by
  induction args generalizing scope with
  | nil => exact ⟨rfl, rfl⟩
  | cons arg args ih =>
    obtain ⟨hfirst, hbetween⟩ := h arg (.head _) start scope
    obtain ⟨hrest, hbehind⟩ := ih (fun other ho => h other (.tail _ ho))
      ((evaluate ctx.forFeatures arg start).run scope).2
    rw [evaluateAll]
    refine ⟨?_, hbehind.trans hbetween⟩
    rw [Expr.anyTruth, ← hfirst, ← hrest]
    rfl

/-- A function that evaluates its arguments does so once. Those of `if-feature()`
are read as features. -/
theorem evaluate_call {f : Function} {name : String} (hname : Function.ofName? name = some f)
    (hargs : f.evaluates args.length = true) (ctx : Context) (qualifier : Option String)
    (start : Option String) (scope : Scope) :
    let outcomes :=
      (evaluateAll (if f = .ifFeature then ctx.forFeatures else ctx) args start).run scope
    (evaluate ctx (.call qualifier name args) start).run scope =
      (ctx.apply f args outcomes.1, outcomes.2) := by
  rw [evaluate]
  simp only [hname, if_pos hargs]
  rfl

/-- Functions that are about whether one of their arguments holds. -/
theorem decides_call {f : Function} {name : String} {g : Bool → Bool} {enabled : String → Bool}
    (hname : Function.ofName? name = some f) (hargs : f.evaluates args.length = true)
    (hf : f ≠ .ifFeature)
    (hg : ∀ outcomes,
      (ctx.forFeatures.apply f args outcomes).holds = g (outcomes.any Outcome.holds))
    (qualifier : Option String)
    (h : ∀ arg ∈ args, ctx.forFeatures.Decides arg (arg.truth enabled)) :
    ctx.forFeatures.Decides (.call qualifier name args) (g (Expr.anyTruth enabled args)) := by
  intro start scope
  obtain ⟨hany, hscope⟩ := evaluateAll_decided h start scope
  rw [evaluate_call hname hargs, if_neg hf]
  refine ⟨?_, hscope⟩
  rw [hg, hany]

theorem decides_formula (ctx : Context) (h : e.IsFormula) :
    ctx.forFeatures.Decides e (e.truth ctx.featureEnabled) := by
  induction h with
  | name type qualifier name => exact decides_name ctx type qualifier name
  | and ha hb iha ihb => exact decides_binary (g := Bool.and) (by decide) (fun _ _ => rfl) iha ihb
  | or ha hb iha ihb => exact decides_binary (g := Bool.or) (by decide) (fun _ _ => rfl) iha ihb
  | not qualifier h ih =>
    refine decides_call (f := .not) (g := Bool.not) (by decide) rfl (by decide)
      (fun outcomes => ?_) qualifier ih
    rw [apply, Outcome.holds_negate, Outcome.holds_ofBool]
  | boolean qualifier h ih =>
    refine decides_call (f := .boolean) (g := id) (by decide) rfl (by decide)
      (fun outcomes => ?_) qualifier ih
    rw [apply, Outcome.holds_ofBool]
    rfl

/-- A call of `if-feature()` reads its argument as features, but for a literal, which names one. -/
theorem evaluate_ifFeature (ctx : Context) (qualifier : Option String) (e : Expr)
    (start : Option String) (scope : Scope) :
    let read := (evaluate ctx.forFeatures e start).run scope
    (evaluate ctx (.call qualifier "if-feature" [e]) start).run scope =
      (ctx.featureOf e read.1, read.2) := by
  rw [evaluate_call (f := .ifFeature) (by decide) rfl, if_pos rfl, evaluateAll]
  rfl

theorem featureOf_formula (h : e.IsFormula) (outcome : Outcome) :
    ctx.featureOf e outcome = outcome := by
  cases h <;> rfl

/-- In a call of `if-feature()`, a formula holds exactly if it is true of the features that are
enabled, and leaves the scope as it is. Neither the data, the settings, the path that has been
reached nor the scope changes that. -/
theorem evaluate_formula (ctx : Context) (e : Expr) (h : e.IsFormula) (qualifier : Option String)
    (start : Option String) (scope : Scope) :
    let decided := (evaluate ctx.forFeatures e start).run scope
    (decided.1.holds = true ↔ e.truth ctx.featureEnabled = true) ∧ decided.2 = scope ∧
      (evaluate ctx (.call qualifier "if-feature" [e]) start).run scope = decided ∧
      ∀ (data : DataTree) (source : DataSource) (settings : Settings) (other : Option String)
        (scope' : Scope),
        ((evaluate (Context.forFeatures { ctx with data, source, settings })
          e other).run scope').1.holds = decided.1.holds := by
  intro decided
  obtain ⟨hholds, hscope⟩ := decides_formula ctx h start scope
  refine ⟨by rw [hholds], hscope, ?_, fun data source settings other scope' => ?_⟩
  · rw [evaluate_ifFeature, featureOf_formula h]
    rfl
  · have hother := (decides_formula { ctx with data, source, settings } h other scope').1
    exact hother.trans hholds.symm

/-- The tree of `fast and not(slim, boolean())`. -/
def fastNotSlim : Expr :=
  let name label := Expr.axis .child .element none (some label)
  .operator (.binary .and) (name "fast") (.call none "not" [name "slim", .call none "boolean" []])

/-- Of the features of a node, `fast` is one and `slim` is none. -/
theorem evaluate_formula_fast :
    let schema := (Schema.empty.insertPath "/a").2.setAttribute 1 "features" "fast,secure"
    let ctx : Context := ⟨⟨schema, .none, {}⟩, "/a", .new "/", false⟩
    fastNotSlim.IsFormula ∧ ((evaluate ctx.forFeatures fastNotSlim none).run {}).1.holds = true ∧
      ((evaluate ctx (.call none "if-feature" [fastNotSlim])
        (some "/b")).run ⟨true⟩).1.holds = true := by
  intro schema ctx
  have hname : ∀ label, (Expr.axis .child .element none (some label)).IsFormula :=
    fun label => .name _ _ label
  have hargs : ∀ arg ∈ [Expr.axis .child .element none (some "slim"), .call none "boolean" []],
      arg.IsFormula := by
    intro arg harg
    simp only [List.mem_cons, List.not_mem_nil, or_false] at harg
    rcases harg with rfl | rfl
    · exact hname "slim"
    · exact .boolean none nofun
  have hformula : fastNotSlim.IsFormula := .and (hname "fast") (.not none hargs)
  have htruth : fastNotSlim.truth ctx.featureEnabled = true := by decide +kernel
  obtain ⟨hholds, -⟩ := evaluate_formula ctx fastNotSlim hformula none none {}
  obtain ⟨hdecided, -, hcall, -⟩ :=
    evaluate_formula ctx fastNotSlim hformula none (some "/b") ⟨true⟩
  refine ⟨hformula, hholds.2 htruth, ?_⟩
  rw [hcall]
  exact hdecided.2 htruth

end Context

end YangConstraint
