import YangConstraint.Eval.Basic
import YangConstraint.Proofs.Expr.RoundTrip

/-!
The canonical text of an expression keeps its outcome. The text may lose the direction of a
predicate, which evaluation does not read.
-/
namespace YangConstraint

open YangConstraint.Expr

namespace Context

variable {ctx : Context} {e left right : Expr}

theorem operand_aligned : ctx.operand e.aligned = ctx.operand e := by
  cases e <;> rfl

theorem leftValue_aligned : ctx.leftValue e.aligned = ctx.leftValue e := by
  cases e <;> rfl

theorem comparable_aligned : ctx.comparable e.aligned = ctx.comparable e := by
  cases e <;> rfl

/-- An operator minds the forms of its operands alone. -/
theorem operate_aligned (op : Operator) :
    ctx.operate op left.aligned right.aligned = ctx.operate op left right := by
  have hn : ∀ e : Expr, e.aligned.isNumeric = e.isNumeric := by
    intro e
    cases e <;> rfl
  have hl : left.aligned.isLocation = left.isLocation := by
    cases left <;> rfl
  have hr : right.aligned.compared = right.compared := by
    cases right <;> rfl
  funext l r
  cases op with
  | negate => simp only [operate, hn, leftValue_aligned]
  | binary op => cases op <;> simp only [operate, hn, hl, hr, leftValue_aligned, comparable_aligned]

theorem featureOf_aligned : ctx.featureOf e.aligned = ctx.featureOf e := by
  cases e <;> rfl

/-- A function minds the form of its argument only where that may be a literal. -/
theorem apply_aligned (f : Function) (args : List Expr) :
    ctx.apply f (args.map aligned) = ctx.apply f args := by
  funext outcomes
  cases f with
  | ifFeature =>
    rcases args with _ | ⟨arg, _ | ⟨next, args⟩⟩
    · rfl
    · rcases outcomes with _ | ⟨outcome, _ | ⟨next, outcomes⟩⟩ <;> simp [apply, featureOf_aligned]
    · simp [apply]
  | name | count => rcases outcomes with _ | ⟨outcome, _ | ⟨next, outcomes⟩⟩ <;> simp [apply]
  | derivedFrom =>
    rcases outcomes with _ | ⟨target, _ | ⟨identity, _ | ⟨next, outcomes⟩⟩⟩ <;> simp [apply]
  | _ => rfl

end Context

open Context

mutual

/-- A predicate is evaluated alike in both directions. -/
theorem evaluate_aligned (ctx : Context) (e : Expr) (start : Option String) :
    evaluate ctx e.aligned start = evaluate ctx e start := by
  have hhole : ∀ e : Expr, e.aligned.isHole = e.isHole := by
    intro e
    cases e <;> rfl
  cases e with
  | operator op left right =>
    simp only [aligned, evaluate, evaluate_aligned ctx left, evaluate_aligned ctx right,
      operate_aligned, operand_aligned]
  | step left right =>
    simp only [aligned, evaluate, evaluate_aligned ctx left, evaluate_aligned ctx right, hhole]
  | predicate base condition reverse =>
    simp only [aligned, evaluate, evaluate_aligned ctx base, evaluate_aligned ctx condition, hhole]
  | call qualifier name args =>
    have hargs : ∀ ctx, evaluateAll ctx (args.map aligned) start = evaluateAll ctx args start :=
      fun ctx => evaluateAll_aligned ctx args start
    simp only [aligned, alignedAll_eq_map, evaluate, apply_aligned, hargs, List.length_map]
  | _ => rfl

theorem evaluateAll_aligned (ctx : Context) (es : List Expr) (start : Option String) :
    evaluateAll ctx (es.map aligned) start = evaluateAll ctx es start := by
  cases es with
  | nil => rfl
  | cons e es =>
    simp only [List.map_cons, evaluateAll, evaluate_aligned ctx e, evaluateAll_aligned ctx es]

end

namespace Expr

variable {text : String} {e : Expr}

/-- The canonical text of a tree whose nodes can be recovered is read back as the aligned tree,
unless it nests too deep. -/
theorem ofText_canonical (h : (parse text).isClean = true) (he : (parse text).result = some e)
    (hr : ∀ m ∈ e.parts, m.Recoverable)
    (hd : ∀ offset limit, Diagnostic.tooDeep offset limit ∉ (parse e.canonical).issues) :
    ofText e.canonical = e.aligned := by
  rw [← canonical_aligned e] at hd ⊢
  obtain ⟨hc, hp, -⟩ := scan_canonical (printable_aligned h he hr)
  rw [ofText, parse_of_phrase hc hp hd]
  rfl

end Expr

namespace Environment

/-- The canonical text of an expression holds exactly where the expression does, unless it is too
deep, or spells a node as another would be: the literal of a processing instruction with a single
quote in it, or the bare root before a word or a star. -/
theorem holdsText_canonical (env : Environment) (text : String) (e : Expr)
    (h : (parse text).isClean = true) (he : (parse text).result = some e)
    (hr : ∀ m ∈ e.parts, m.Recoverable)
    (hd : ∀ offset limit, Diagnostic.tooDeep offset limit ∉ (parse e.canonical).issues)
    (path : String) (data : DataTree) :
    env.holdsText e.canonical path data = env.holdsText text path data := by
  have hcanonical : ofText e.canonical = e.aligned := ofText_canonical h he hr hd
  have htext : ofText text = e := by rw [ofText, he]; rfl
  rw [holdsText, holdsText, holds, holds, outcome, outcome, hcanonical, htext, evaluate_aligned]

end Environment

/-- The tree of `not((ancestor::a[1])[2])`, whose canonical text has no inner parentheses. -/
def againstDirection : Expr :=
  .call none "not"
    [.predicate (.predicate (.axis .ancestor .element none (some "a")) (.number "1") true)
    (.number "2") false]

theorem holdsText_canonical_againstDirection :
    (parse "not((ancestor::a[1])[2])").isClean = true ∧
      (parse "not((ancestor::a[1])[2])").result = some againstDirection ∧
      (∀ m ∈ againstDirection.parts, m.Recoverable) ∧
      (∀ offset limit,
        Diagnostic.tooDeep offset limit ∉ (parse againstDirection.canonical).issues) ∧
      (parse againstDirection.canonical).result ≠ some againstDirection ∧
      (⟨.empty, .none, {}⟩ : Environment).holdsText againstDirection.canonical "/a"
        (.new "/") = true := by
  have h : (parse "not((ancestor::a[1])[2])").isClean = true := by decide +kernel
  have he : (parse "not((ancestor::a[1])[2])").result = some againstDirection := by decide +kernel
  have hr : ∀ m ∈ againstDirection.parts, m.Recoverable := by
    simp [againstDirection, parts, partsAll, Recoverable]
  have hi : (parse againstDirection.canonical).issues = #[] := by decide +kernel
  have hd : ∀ offset limit,
      Diagnostic.tooDeep offset limit ∉ (parse againstDirection.canonical).issues := by
    simp [hi]
  refine ⟨h, he, hr, hd, by decide +kernel, ?_⟩
  rw [Environment.holdsText_canonical _ _ _ h he hr hd]
  decide +kernel

/-- The tree of `(/) or 1 = 1`. In its canonical text `or` follows the slash, and
is a step there. -/
def rootOrEqual : Expr :=
  .operator (.binary .or) (.axis .root .any none none)
    (.operator (.binary .eq) (.number "1") (.number "1"))

/-- The tree of `processing-instruction("it's") != 'x'`. In its canonical text the
literal ends too early. -/
def quotedInstruction : Expr :=
  .operator (.binary .ne) (.axis .child .processingInstruction none (some "it's")) (.string "x")

theorem holdsText_canonical_misread :
    let env : Environment := ⟨.empty, .none, {}⟩
    ((parse "(/) or 1 = 1").isClean = true ∧ (parse "(/) or 1 = 1").result = some rootOrEqual ∧
      (∀ offset limit, Diagnostic.tooDeep offset limit ∉ (parse rootOrEqual.canonical).issues) ∧
      env.holdsText "(/) or 1 = 1" "/a" (.new "/") = true ∧
      env.holdsText rootOrEqual.canonical "/a" (.new "/") = false) ∧
    ((parse "processing-instruction(\"it's\") != 'x'").isClean = true ∧
      (parse "processing-instruction(\"it's\") != 'x'").result = some quotedInstruction ∧
      (∀ offset limit,
        Diagnostic.tooDeep offset limit ∉ (parse quotedInstruction.canonical).issues) ∧
      env.holdsText "processing-instruction(\"it's\") != 'x'" "/a" (.new "/") = false ∧
      env.holdsText quotedInstruction.canonical "/a" (.new "/") = true) := by
  have hroot : (parse rootOrEqual.canonical).issues =
      #[.unexpectedToken 6 (.mark .rightParen) (.mark .leftParen) "(",
        .trailingInput 7 "1 = 1))"] := by
    decide +kernel
  have hquoted : (parse quotedInstruction.canonical).issues =
      #[.unexpectedToken 35 (.mark .rightParen) .name "s",
        .unexpectedToken 36 (.mark .rightParen) .string "') != '", .trailingInput 43 "x')"] := by
    decide +kernel
  refine ⟨⟨by decide +kernel, by decide +kernel, ?_, by decide +kernel⟩,
    by decide +kernel, by decide +kernel, ?_, by decide +kernel⟩
  · simp [hroot]
  · simp [hquoted]

end YangConstraint
