import YangConstraint.Condition
import YangConstraint.Proofs.Eval.Feature
import YangConstraint.Proofs.Expr.Enclosure
import YangConstraint.Proofs.Expr.Language

/-!
Conditions on features. The text of such a condition is put between the parentheses of a call, where
it is read as the expression that it is by itself, with names that stand for features.
-/
namespace YangConstraint

variable {text : String} {e : Expr} {env : Environment} {path : String} {data : DataTree}

/-- The condition on an expression is a call with the expression as its argument, unless
it nests too deep. -/
theorem parse_ifFeature (h : (Expr.parse text).isClean = true)
    (he : (Expr.parse text).result = some e) :
    let condition : Condition := ⟨.ifFeature, text⟩
    (∃ offset limit, Diagnostic.tooDeep offset limit ∈ (Expr.parse condition.text).issues) ∨
      Expr.parse condition.text = ⟨some (.call none "if-feature" [e]), #[]⟩ := by
  intro condition
  obtain ⟨hclean, e', he', hphrase⟩ := Expr.phrase_of_parse (by simpa [Parsed.isClean] using h)
  rw [he, Option.some.injEq] at he'
  subst he'
  have hname : Lexeme.IsWord "if-feature" := Lexeme.isWord_of rfl (by decide)
  obtain ⟨hc, hp⟩ := scans_call hname (by decide) hclean hphrase
  have htext : condition.text = "if-feature" ++ "(" ++ text ++ ")" := rfl
  rw [← htext] at hc hp
  by_cases hd : ∃ offset limit, Diagnostic.tooDeep offset limit ∈ (Expr.parse condition.text).issues
  · exact .inl hd
  · push Not at hd
    exact .inr (Expr.parse_of_phrase hc hp hd)

theorem violation?_eq_none_iff {condition : Condition} :
    env.violation? condition path data = none ↔
      (env.outcome (Expr.ofText condition.text) path data).holds = true := by
  rw [Environment.violation?, Option.map_eq_none_iff, Outcome.reason?_eq_none_iff]

/-- A condition on features that does not nest too deep is the call of `if-feature()` with its
expression as the argument. A literal is met just if the feature that it names is enabled, and any
other expression just if it holds where names stand for features. -/
theorem violation?_ifFeature (text : String) (e : Expr) (h : (Expr.parse text).isClean = true)
    (he : (Expr.parse text).result = some e) :
    let condition : Condition := ⟨.ifFeature, text⟩
    (∃ offset limit, Diagnostic.tooDeep offset limit ∈ (Expr.parse condition.text).issues) ∨
      (Expr.parse condition.text).isClean = true ∧
        (Expr.parse condition.text).result = some (.call none "if-feature" [e]) ∧
        ∀ (env : Environment) (path : String) (data : DataTree),
          (∀ feature, e = .string feature →
            (env.violation? condition path data = none ↔
              (env.context path data).featureEnabled feature = true)) ∧
          ((∀ feature, e ≠ .string feature) →
            (env.violation? condition path data = none ↔
              ((evaluate (env.context path data).forFeatures e none).run {}).1.holds = true)) := by
  intro condition
  refine (parse_ifFeature h he).imp_right fun hparse => ?_
  refine ⟨by rw [hparse]; rfl, by rw [hparse], fun env path data => ?_⟩
  have hcall : env.violation? condition path data = none ↔ ((env.context path data).featureOf e
      ((evaluate (env.context path data).forFeatures e none).run {}).1).holds = true := by
    rw [violation?_eq_none_iff, Expr.ofText, hparse, Environment.outcome]
    show ((evaluate (env.context path data)
      (.call none "if-feature" [e]) none).run {}).1.holds = true ↔ _
    rw [Context.evaluate_ifFeature]
  constructor
  · rintro feature rfl
    rw [hcall]
    show ((env.context path data).feature feature).holds = true ↔ _
    rw [Context.holds_feature]
  · intro hn
    rw [hcall]
    cases e with
    | string feature => exact absurd rfl (hn feature)
    | _ => rfl

/-- In `or or not(div)` the first word and the last are features. The condition is met
where `or` is enabled. -/
theorem violation?_ifFeature_words :
    let text := "or or not(div)"
    let condition : Condition := ⟨.ifFeature, text⟩
    let env : Environment := ⟨(Schema.empty.insertPath "/a").2.setAttribute 1 "features" "or",
      .none, {}⟩
    ∃ e, (Expr.parse text).isClean = true ∧ (Expr.parse text).result = some e ∧
      (Expr.parse condition.text).isClean = true ∧
      (Expr.parse condition.text).result = some (.call none "if-feature" [e]) ∧
      env.violation? condition "/a" (.new "/") = none := by
  intro text condition env
  let feature name := Expr.axis .child .element none (some name)
  let e : Expr := .operator (.binary .or) (feature "or") (.call none "not" [feature "div"])
  have hclean : (Expr.parse text).isClean = true := by decide +kernel
  have hresult : (Expr.parse text).result = some e := by decide +kernel
  have hshallow : (Expr.parse condition.text).issues = #[] := by decide +kernel
  rcases violation?_ifFeature text e hclean hresult with ⟨offset, limit, hd⟩ | ⟨hc, hr, hverdict⟩
  · rw [hshallow] at hd
    exact absurd hd (Array.not_mem_empty _)
  · have hholds :
        ((evaluate (env.context "/a" (.new "/")).forFeatures e none).run {}).1.holds = true := by
      decide +kernel
    exact ⟨e, hclean, hresult, hc, hr, ((hverdict env "/a" (.new "/")).2 nofun).2 hholds⟩

end YangConstraint
