import YangConstraint.Eval.Basic
import YangConstraint.Expr.Canonical
import YangConstraint.Proofs.Expr.Nesting

/-!
How deep the functions on expression trees recurse. A frame is one call of such a function, which
calls the function again for what lies below; a tree is worked off within as many frames as a branch
of it has nodes, and one more for a hole at its end.
-/
namespace YangConstraint

namespace Expr

variable {β : Type} {op : Operator} {left right : Expr} {args : List Expr}

/-- The number of nodes on the longest branch. -/
abbrev height (e : Expr) : Nat := e.heaviest ⟨1, 1⟩

theorem height_operator : (operator op left right).height = 1 + max left.height right.height := by
  rw [height, heaviest]

theorem height_step : (step left right).height = 1 + max left.height right.height := by
  rw [height, heaviest]

theorem height_predicate {reverse : Bool} :
    (predicate left right reverse).height = 1 + max left.height right.height := by
  rw [height, heaviest]

theorem height_arg_lt {qualifier : Option String} {name : String} {arg : Expr} (h : arg ∈ args) :
    arg.height < (call qualifier name args).height := by
  have hle : arg.height ≤ heaviestAll ⟨1, 1⟩ args := heaviestAll_le_iff.1 (Nat.le_refl _) arg h
  have heq : (call qualifier name args).height = 1 + heaviestAll ⟨1, 1⟩ args := by
    rw [height, heaviest]
  omega

/-- A function that calls itself through `frame`, with at most `limit` frames open at a time. A call
beyond them is answered by `beyond`. -/
def within (frame : (Expr → β) → Expr → β) (beyond : Expr → β) : (limit : Nat) → Expr → β
  | 0 => beyond
  | limit + 1 => frame (within frame beyond limit)

/-- Where a frame calls the function for lower trees only, a limit above the
height is never exceeded. -/
theorem within_eq {frame : (Expr → β) → Expr → β} {f beyond : Expr → β} {e : Expr} {limit : Nat}
    (hf : ∀ e, frame f e = f e)
    (hlow : ∀ e g, (∀ child : Expr, child.height < e.height → g child = f child) →
      frame g e = frame f e)
    (h : e.height < limit) : within frame beyond limit e = f e := by
  induction limit generalizing e with
  | zero => exact absurd h (Nat.not_lt_zero _)
  | succ limit ih =>
    rw [within, hlow e _ fun child hc => ih (by omega), hf]

/-! ### The canonical text -/

/-- A frame of the canonical text. -/
def canonicalFrame (text : Expr → String) : Expr → String
  | hole => ""
  | string value => quoteLiteral value
  | number digits => digits
  | operator .negate left _ => "(-" ++ text left ++ ")"
  | operator (.binary op) left right =>
    "(" ++ text left ++ " " ++ op.symbol ++ " " ++ text right ++ ")"
  | axis .root _ _ _ => "/"
  | axis a type qualifier name => a.name ++ "::" ++ type.test qualifier name
  | step left right =>
    match left with
    | axis .root _ _ _ => "/" ++ text right
    | step _ _ => "(" ++ text left ++ ")/" ++ text right
    | _ => text left ++ "/" ++ text right
  | predicate base condition reverse =>
    let subject := if needsParens reverse base then "(" ++ text base ++ ")" else text base
    subject ++ "[" ++ text condition ++ "]"
  | reference qualifier name => "$" ++ qualify qualifier (name.getD "")
  | call qualifier name args =>
    qualify qualifier name ++ "(" ++ ", ".intercalate (args.map text) ++ ")"

theorem canonicalAll_eq (args : List Expr) :
    canonicalAll args = ", ".intercalate (args.map canonical) := by
  induction args with
  | nil => rfl
  | cons arg args ih =>
    cases args with
    | nil => simp [canonicalAll]
    | cons other args => simp [canonicalAll, ih, String.intercalate_cons_cons]

theorem canonicalFrame_canonical (e : Expr) : canonicalFrame canonical e = canonical e := by
  cases e with
  | operator op left right => cases op <;> rw [canonicalFrame, canonical]
  | axis a => cases a <;> rfl
  | step left right =>
    cases left with
    | axis a => cases a <;> simp only [canonicalFrame, canonical]
    | _ => simp only [canonicalFrame, canonical]
  | call qualifier name args => rw [canonicalFrame, canonical, canonicalAll_eq]
  | _ => rw [canonicalFrame, canonical]

theorem canonicalFrame_low (e : Expr) (text : Expr → String)
    (h : ∀ child : Expr, child.height < e.height → text child = canonical child) :
    canonicalFrame text e = canonicalFrame canonical e := by
  cases e with
  | operator op left right =>
    rw [height_operator] at h
    have hl := h left (by omega)
    have hr := h right (by omega)
    cases op <;> simp only [canonicalFrame, hl, hr]
  | step left right =>
    rw [height_step] at h
    have hl := h left (by omega)
    have hr := h right (by omega)
    simp only [canonicalFrame, hl, hr]
  | predicate base condition reverse =>
    rw [height_predicate] at h
    have hb := h base (by omega)
    have hc := h condition (by omega)
    simp only [canonicalFrame, hb, hc]
  | call qualifier name args =>
    have hargs : args.map text = args.map canonical :=
      List.map_congr_left fun arg harg => h arg (height_arg_lt harg)
    simp only [canonicalFrame, hargs]
  | axis a => cases a <;> rfl
  | _ => rfl

end Expr

/-! ### Evaluation -/

/-- The evaluation of an expression in a context, where a path has been reached. -/
abbrev Evaluation := Context → Option String → StateM Scope Outcome

/-- A frame of evaluation. -/
def evaluateFrame (eval : Expr → Evaluation) : Expr → Evaluation
  | .hole, _, _ => return .failure .missingNode
  | .string value, _, _ => return .ofValue value
  | .number text, _, _ => return .ofValue text
  | .operator op left right, ctx, start => do
    if op = .binary .union then return .failure .unsupportedUnion
    let l ← eval left ctx start
    let r ← eval right ctx start
    return ctx.operate op left right (ctx.operand left l) (ctx.operand right r)
  | .axis axis _ _ name, ctx, start => ctx.along start axis name
  | .step left right, ctx, start => do
    let base := start.getD ctx.path
    let (l, scope) := (eval left ctx (some base)).run {}
    if right.isHole then return l.bind ctx.resolve
    let r := ((eval right ctx (some (l.value?.getD base))).run scope).1
    return (l.andThen r).bind ctx.resolve
  | .predicate base condition _, ctx, start => do
    let outcome ← eval base ctx start
    if condition.isHole || !outcome.holds then return outcome
    let held ← eval condition ctx outcome.value?
    return if held.holds && held.value?.isNone then outcome else held
  | .reference _ name, _, _ => return .failure (.unresolvedVariable (name.getD ""))
  | .call _ name args, ctx, start => do
    match Function.ofName? name with
    | none => return .failure (.unknownFunction name)
    | some f =>
      let inner := if f = .ifFeature then ctx.forFeatures else ctx
      let outcomes ←
        if f.evaluates args.length then args.mapM fun arg => eval arg inner start else pure []
      return ctx.apply f args outcomes

/-- Evaluation, by the expression first. -/
def evaluation (e : Expr) : Evaluation := fun ctx start => evaluate ctx e start

theorem evaluateAll_eq (ctx : Context) (es : List Expr) (start : Option String) :
    evaluateAll ctx es start = es.mapM fun e => evaluation e ctx start := by
  induction es with
  | nil => rw [evaluateAll, List.mapM_nil]
  | cons e es ih => rw [evaluateAll, List.mapM_cons, ih, evaluation]

theorem evaluateFrame_evaluation (e : Expr) : evaluateFrame evaluation e = evaluation e := by
  funext ctx start
  cases e with
  | call qualifier name args =>
    simp only [evaluation, evaluate, evaluateAll_eq]
    rfl
  | _ =>
    simp only [evaluation, evaluate]
    rfl

theorem mapM_congr {f g : Expr → StateM Scope Outcome} {es : List Expr} (h : ∀ e ∈ es, f e = g e) :
    es.mapM f = es.mapM g := by
  induction es with
  | nil => rfl
  | cons e es ih =>
    rw [List.mapM_cons, List.mapM_cons, h e (.head _), ih fun other ho => h other (.tail _ ho)]

theorem evaluateFrame_low (e : Expr) (eval : Expr → Evaluation)
    (h : ∀ child : Expr, child.height < e.height → eval child = evaluation child) :
    evaluateFrame eval e = evaluateFrame evaluation e := by
  funext ctx start
  cases e with
  | operator op left right =>
    rw [Expr.height_operator] at h
    have hl := h left (by omega)
    have hr := h right (by omega)
    simp only [evaluateFrame, hl, hr]
  | step left right =>
    rw [Expr.height_step] at h
    have hl := h left (by omega)
    have hr := h right (by omega)
    simp only [evaluateFrame, hl, hr]
  | predicate base condition reverse =>
    rw [Expr.height_predicate] at h
    have hb := h base (by omega)
    have hc := h condition (by omega)
    simp only [evaluateFrame, hb, hc]
  | call qualifier name args =>
    have hargs : ∀ inner, (args.mapM fun arg => eval arg inner start) =
        args.mapM fun arg => evaluation arg inner start := fun inner =>
      mapM_congr fun arg harg => congrFun (congrFun (h arg (Expr.height_arg_lt harg)) inner) start
    simp only [evaluateFrame, hargs]
  | _ => rfl

/-! ### What is parsed -/

namespace Expr

variable {text : String} {e : Expr}

/-- Whatever is wrong with a text, no branch of its tree has more than twice as many nodes as the
square of the number of levels. Printing and evaluating the tree never have more frames open at a
time than that, and one for a hole. -/
theorem branch_length_of_parse (h : (parse text).result = some e) :
    (∀ path, e.Branch path → path.length ≤ 2 * maxDepth ^ 2) ∧
    (∀ beyond, within canonicalFrame beyond (2 * maxDepth ^ 2 + 1) e = canonical e) ∧
    ∀ beyond ctx start,
      within evaluateFrame beyond (2 * maxDepth ^ 2 + 1) e ctx start = evaluate ctx e start := by
  have hheight : e.height ≤ 2 * maxDepth ^ 2 :=
    Nat.le_trans (heaviest_of_parse h) (by decide +kernel)
  have hlimit : e.height < 2 * maxDepth ^ 2 + 1 := Nat.lt_succ_of_le hheight
  refine ⟨fun path hpath => ?_, fun beyond => ?_, fun beyond ctx start => ?_⟩
  · rw [← pathWeight_nodes]
    exact Nat.le_trans (pathWeight_le hpath) hheight
  · exact within_eq canonicalFrame_canonical canonicalFrame_low hlimit
  · rw [within_eq evaluateFrame_evaluation evaluateFrame_low hlimit]
    rfl

/-- The tree of `a//`, with a hole behind the second slash. -/
def openPath : Expr :=
  .step (.axis .child .element none (some "a"))
    (.step (.axis .descendantOrSelf .any none none) .hole)

/-- A text with an issue also has a tree, whose longest branch has three nodes. -/
theorem branch_length_openPath :
    (parse "a//").result = some openPath ∧
    openPath.Branch [openPath, .step (.axis .descendantOrSelf .any none none) .hole,
      .axis .descendantOrSelf .any none none] ∧ 3 ≤ 2 * maxDepth ^ 2 := by
  have h : (parse "a//").result = some openPath := by decide +kernel
  have hb : openPath.Branch [openPath, .step (.axis .descendantOrSelf .any none none) .hole,
      .axis .descendantOrSelf .any none none] :=
    .node (.tail _ (.head _)) (.node (.head _) (.leaf rfl rfl))
  exact ⟨h, hb, (branch_length_of_parse h).1 _ hb⟩

end Expr

end YangConstraint
