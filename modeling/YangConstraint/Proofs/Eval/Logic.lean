import Mathlib.Tactic.Common
import YangConstraint.Proofs.Eval.Absolute
import YangConstraint.Proofs.Eval.Scope

/-!
Laws of `and`, `or` and `not()`. Both operands are evaluated in one scope, the left one first, and
an operand that is a single step is looked up, while an argument is not.
-/
namespace YangConstraint

namespace Context

variable {ctx : Context} {l r : Expr} {start : Option String} {scope : Scope}

/-- Whether an expression holds as an operand. -/
def operandHolds (ctx : Context) (e : Expr) (start : Option String) (scope : Scope) : Bool :=
  (ctx.operand e ((evaluate ctx e start).run scope).1).holds

theorem holds_and : ((evaluate ctx (.operator (.binary .and) l r) start).run scope).1.holds =
    (ctx.operandHolds l start scope &&
      ctx.operandHolds r start ((evaluate ctx l start).run scope).2) := by
  rw [evaluate]
  exact Outcome.holds_ofBool

theorem holds_or : ((evaluate ctx (.operator (.binary .or) l r) start).run scope).1.holds =
    (ctx.operandHolds l start scope ||
      ctx.operandHolds r start ((evaluate ctx l start).run scope).2) := by
  rw [evaluate]
  exact Outcome.holds_ofBool

theorem operandHolds_behind
    (h : scope.reanchored = true ∨ ctx.reanchors l start = false ∨ ctx.reanchors r start = false) :
    ctx.operandHolds r start ((evaluate ctx l start).run scope).2 =
      ctx.operandHolds r start scope := by
  rw [operandHolds, evaluate_behind h, operandHolds]

/-- `and` and `or` are commutative, unless nothing has been re-anchored yet and
each operand would be. -/
theorem holds_operator_comm (ctx : Context) (l r : Expr) (start : Option String) (scope : Scope)
    (h : scope.reanchored = true ∨ ctx.reanchors l start = false ∨ ctx.reanchors r start = false) :
    ((evaluate ctx (.operator (.binary .and) l r) start).run scope).1.holds =
        ((evaluate ctx (.operator (.binary .and) r l) start).run scope).1.holds ∧
      ((evaluate ctx (.operator (.binary .or) l r) start).run scope).1.holds =
        ((evaluate ctx (.operator (.binary .or) r l) start).run scope).1.holds := by
  have hr := operandHolds_behind h
  have hl : ctx.operandHolds l start ((evaluate ctx r start).run scope).2 =
      ctx.operandHolds l start scope :=
    operandHolds_behind (h.imp_right Or.symm)
  rw [holds_and, holds_and, holds_or, holds_or, hr, hl]
  exact ⟨Bool.and_comm .., Bool.or_comm ..⟩

end Context

/-- A tree with values `x` and `y` beside the node `/a/b`, and another `y` in it. -/
def besideAndWithin : DataTree :=
  (((DataTree.new "/").put "1" ["a", "x"]).put "1" ["a", "y"]).put "1" ["a", "b", "y"]

/-- Only the first of `x` and `../y` re-anchors, and `x and ../y` holds from
`/a/b` either way round. -/
theorem holds_operator_comm_parent :
    let ctx := nestedContainers.context "/a/b" besideAndWithin
    let x := (Link.child "x").expr
    let y := (Link.test .parent .any none none).chain [.child "y"]
    ctx.reanchors x (some "/a/b") = true ∧ ctx.reanchors y (some "/a/b") = false ∧
      ((evaluate ctx (.operator (.binary .and) x y) (some "/a/b")).run {}).1.holds = true ∧
      ((evaluate ctx (.operator (.binary .and) y x) (some "/a/b")).run {}).1.holds = true := by
  intro ctx x y
  have hy : ctx.reanchors y (some "/a/b") = false := by decide +kernel
  have hcomm := Context.holds_operator_comm ctx x y (some "/a/b") {} (.inr (.inr hy))
  have hxy :
      ((evaluate ctx (.operator (.binary .and) x y) (some "/a/b")).run {}).1.holds = true := by
    decide +kernel
  exact ⟨by decide +kernel, hy, hxy, hcomm.1 ▸ hxy⟩

/-- Each of `x` and `y` re-anchors, but only the first to be evaluated: `y` is there both beside the
node and in it, `x` only beside it. -/
theorem holds_and_both_reanchor :
    let ctx := nestedContainers.context "/a/b" besideAndWithin
    let x := (Link.child "x").expr
    let y := (Link.child "y").expr
    ((evaluate ctx (.operator (.binary .and) x y) (some "/a/b")).run {}).1.holds = true ∧
      ((evaluate ctx (.operator (.binary .and) y x) (some "/a/b")).run {}).1.holds = false ∧
      nestedContainers.holdsText "current()[x and y]" "/a/b" besideAndWithin = true ∧
      nestedContainers.holdsText "current()[y and x]" "/a/b" besideAndWithin = false := by
  decide +kernel

/-! ### An expression or its negation -/

namespace Context

variable {ctx : Context} {start : Option String} {scope : Scope}

theorem holds_not {qualifier : Option String} {e : Expr} :
    ((evaluate ctx (.call qualifier "not" [e]) start).run scope).1.holds =
      !((evaluate ctx e start).run scope).1.holds := by
  have hname : Function.ofName? "not" = some .not := by decide
  simp only [evaluate, evaluateAll, hname]
  show (Outcome.negate
    (.ofBool (List.any [((evaluate ctx e start).run scope).1] Outcome.holds))).holds = _
  simp

theorem exists_parent_eq_ofPath (ctx : Context) (start : Option String) :
    ∃ walked, ctx.parent start = .ofPath walked := by
  simp only [parent]
  split
  · exact ⟨.ok _, rfl⟩
  · exact ⟨.error _, rfl⟩

theorem exists_self_eq_ofPath (ctx : Context) (start : Option String) :
    ∃ walked, ctx.self start = .ofPath walked := by
  rw [self]
  split
  · exact ⟨.ok _, rfl⟩
  · exact ctx.exists_parent_eq_ofPath start

/-- A single step comes to a path, or fails. -/
theorem exists_along_eq_ofPath (ctx : Context) (start : Option String) (axis : Axis)
    (name : Option String) (scope : Scope) :
    ∃ walked, ((ctx.along start axis name).run scope).1 = .ofPath walked := by
  rw [along.eq_def]
  split
  case h_3 name =>
    split
    · rw [feature]
      split
      · exact ⟨.ok name, rfl⟩
      · exact ⟨.error _, rfl⟩
    · show ∃ walked, (ctx.child start name scope).1 = .ofPath walked
      rw [child]
      split
      · exact ⟨.ok _, rfl⟩
      · exact ⟨.ok _, rfl⟩
  case h_4 | h_7 => exact ⟨.ok _, rfl⟩
  case h_5 => exact ctx.exists_parent_eq_ofPath start
  case h_6 => exact ctx.exists_self_eq_ofPath start
  all_goals exact ⟨.error _, rfl⟩

theorem holds_arrive_ok {path : String} :
    (ctx.arrive (.ok path)).holds = (ctx.node? path).isSome := by
  rw [arrive, existing?]
  cases ctx.node? path <;> rfl

/-- What fails as an operand and does not fail by itself is a single step to
where there is nothing. -/
theorem operandHolds_or_not_iff (hf : ctx.ofFeatures = false) {e : Expr} :
    (ctx.operandHolds e start scope || !((evaluate ctx e start).run scope).1.holds) = true ↔
      ¬ ∃ axis type qualifier name target, e = .axis axis type qualifier name ∧
        ((evaluate ctx e start).run scope).1.value? = some target ∧ ctx.node? target = none := by
  rw [operandHolds]
  cases e with
  | axis axis type qualifier name =>
    have hv : evaluate ctx (.axis axis type qualifier name) start = ctx.along start axis name := by
      rw [evaluate]
    obtain ⟨walked, hw⟩ := ctx.exists_along_eq_ofPath start axis name scope
    rw [hv, hw, operand, if_neg (by simp [hf]), bind_ofPath]
    cases walked with
    | error reason => simp [Outcome.ofPath, Outcome.holds, Outcome.value?]
    | ok path =>
      rw [holds_arrive_ok]
      simp [Outcome.ofPath, Outcome.ofValue, Outcome.holds, Outcome.value?,
        Option.isSome_iff_ne_none]
  | _ => simp [operand]

end Context

namespace Environment

/-- An expression holds or its negation does, where it is not a single step to where there is
nothing: that is no operand that holds, but as an argument it is not looked up. Nothing is said of
an expression that re-anchors a child test, which its negation does not do again. -/
theorem outcome_or_not_iff (env : Environment) (e : Expr) (qualifier : Option String)
    (path : String) (data : DataTree) (h : (env.context path data).reanchors e none = false) :
    (env.outcome (.operator (.binary .or) e (.call qualifier "not" [e])) path data).holds = true ↔
      ¬ ∃ axis type prefixed name target, e = .axis axis type prefixed name ∧
        (env.outcome e path data).value? = some target ∧
        (env.context path data).node? target = none := by
  have hscope : ((evaluate (env.context path data) e none).run {}).2 = {} := congrArg Scope.mk h
  have hnot : (env.context path data).operandHolds (.call qualifier "not" [e]) none {} =
      !(env.outcome e path data).holds := by
    simp only [Context.operandHolds, Context.operand, Context.holds_not, outcome]
  rw [outcome, Context.holds_or, hscope, hnot]
  exact Context.operandHolds_or_not_iff rfl

/-- The value of `../y` is 1, so it is not 2, and one of the two holds. -/
theorem outcome_or_not_comparison :
    let e := Expr.operator (.binary .eq) ((Link.test .parent .any none none).chain [.child "y"])
      (.string "2")
    (nestedContainers.context "/a/b" besideAndWithin).reanchors e none = false ∧
      (nestedContainers.outcome e "/a/b" besideAndWithin).holds = false ∧
      (nestedContainers.outcome (.operator (.binary .or) e (.call none "not" [e])) "/a/b"
        besideAndWithin).holds = true := by
  intro e
  have h : (nestedContainers.context "/a/b" besideAndWithin).reanchors e none = false := by
    decide +kernel
  refine ⟨h, by decide +kernel, (outcome_or_not_iff _ e none _ _ h).2 ?_⟩
  rintro ⟨axis, type, prefixed, name, target, he, -⟩
  simp [e] at he

/-- Where there is no `x`, neither `x` as an operand nor `not(x)` holds. Nor does `x = '1'` or its
negation in a predicate at a node that has such an `x` in it and none beside it: the negation is the
second to read the name. -/
theorem outcome_or_not_absent :
    (nestedContainers.outcome (.operator (.binary .or) (Link.child "x").expr
      (.call none "not" [(Link.child "x").expr])) "/a/b" (.new "/")).holds = false ∧
    nestedContainers.holdsText "x or not(x)" "/a/b" (.new "/") = false ∧
    nestedContainers.holdsText "current()[x = '1'] or not(current()[x = '1'])" "/a/b"
      ((DataTree.new "/").put "1" ["a", "b", "x"]) = false := by
  decide +kernel

end Environment

end YangConstraint
