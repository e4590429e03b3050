import YangConstraint.Proofs.Expr.Acceptance
import YangConstraint.Proofs.Expr.Scan

/-! An expression that is not too deep parses without an issue exactly when
the grammar derives it. -/
namespace YangConstraint

variable {r : Reader} {text : String} {e : Expr}

namespace Token

theorem scanFrom_kind {prior : TokenKind} {start : Nat} {cs : List Char} {t : Token}
    (h : t ∈ scanFrom prior start cs) : t.kind ≠ .eof := by
  fun_induction scanFrom prior start cs with
  | case1 => cases h
  | case2 prior start cs ih => exact ih h
  | case3 prior start c cs hc lexeme spelled ih =>
    rcases List.mem_cons.1 h with rfl | h
    · exact Lexeme.read_kind
    · exact ih h

end Token

namespace Reader

theorem close_clean (h : (r.close text).issues = #[]) : r.kind = .eof ∧ r.issues = #[] := by
  rw [close] at h
  split at h
  · rename_i hk
    exact ⟨hk, h⟩
  · exact absurd h issues_record_ne

theorem mem_issues_close {issue : Diagnostic} (h : issue ∈ r.issues) :
    issue ∈ (r.close text).issues := by
  rw [close]
  split
  · exact h
  · simp [record, h]

/-- A reader of tokens that have nothing wrong with them starts without an issue. -/
theorem start_eq_seek (h : ∀ t ∈ Token.scan text, t.issue? = none) :
    start text = seek ⟨[], Text.byteSize text.toList, #[]⟩ (Token.scan text) := by
  rw [start, inspect]
  cases hs : Token.scan text with
  | nil => rfl
  | cons t ts =>
    have ht : t.issue? = none := h t (by rw [hs]; exact .head _)
    simp only [current, List.headD_cons, ht]
    rfl

end Reader

namespace Expr

open Reader

theorem parse_eq (text : String) : parse text =
    ⟨((Level.ofRoom builder maxDepth).expr 0 (start text)).1,
      (((Level.ofRoom builder maxDepth).expr 0 (start text)).2.close text).issues⟩ := rfl

/-- What parses without an issue is an expression of the grammar. -/
theorem phrase_of_parse (h : (parse text).issues = #[]) :
    (∀ t ∈ Token.scan text, t.issue? = none) ∧
      ∃ e, (parse text).result = some e ∧ Phrase .expr (Token.scan text) e := by
  rw [parse_eq] at h ⊢
  obtain ⟨hk, hc⟩ := close_clean h
  have hn : Lookahead (start text).rest := by
    rw [rest_start]
    exact Token.lookahead_scan text
  obtain ⟨⟨w, e, hw, he, hp⟩, -⟩ := (Level.sound_ofRoom maxDepth).expr 0 hn hc
  have hreaches := ((Level.refines_ofRoom_succ (b := builder) maxDepth).expr 0).reaches (start text)
  generalize (Level.ofRoom builder maxDepth).expr 0 (start text) = p at *
  have hrest : p.2.rest = [] := by
    cases hr : p.2.rest with
    | nil => rfl
    | cons t ts =>
      have ht : t ∈ Token.scan text := by
        rw [← rest_start, hw, hr]
        simp
      have hkt : p.2.kind = t.kind := by simp [Reader.kind, current, hr]
      exact absurd (hkt.symm.trans hk) (Token.scanFrom_kind ht)
  rw [rest_start, hrest, List.append_nil] at hw
  refine ⟨fun t ht => ?_, e, he, by rwa [hw]⟩
  rw [← rest_start] at ht
  rcases reaches_passed hreaches inspected_inspect hc ht with ht | ht
  · simp [hrest] at ht
  · exact ht

theorem parse_of_run (h : (Level.ofRoom builder maxDepth).expr 0 (start text) =
    (some e, ⟨[], Text.byteSize text.toList, #[]⟩)) : parse text = ⟨some e, #[]⟩ := by
  rw [parse_eq, h]
  rfl

/-- With room enough an expression of the grammar is read to the end of its text. -/
theorem expr_of_phrase {room : Nat} (hc : ∀ t ∈ Token.scan text, t.issue? = none)
    (h : Phrase .expr (Token.scan text) e) (hroom : 2 + weight (Token.scan text) ≤ room) :
    (Level.ofRoom builder room).expr 0 (start text) =
      (some e, ⟨[], Text.byteSize text.toList, #[]⟩) := by
  rw [start_eq_seek hc]
  have hr : Token.Ready (Token.scan text ++ []) := by
    rw [List.append_nil]
    exact ⟨hc, Token.lookahead_scan text⟩
  have hrun := h.accepts.expr ⟨[], Text.byteSize text.toList, #[]⟩ room hr rfl hroom
  rwa [List.append_nil] at hrun

/-- The tree of an expression that needs no more levels of nesting than there are. -/
theorem parse_of_weight (hc : ∀ t ∈ Token.scan text, t.issue? = none)
    (h : Phrase .expr (Token.scan text) e) (hroom : 2 + weight (Token.scan text) ≤ maxDepth) :
    parse text = ⟨some e, #[]⟩ := parse_of_run (expr_of_phrase hc h hroom)

/-- The tree of an expression none of whose levels of nesting is refused. -/
theorem parse_of_phrase (hc : ∀ t ∈ Token.scan text, t.issue? = none)
    (h : Phrase .expr (Token.scan text) e)
    (hd : ∀ offset limit, Diagnostic.tooDeep offset limit ∉ (parse text).issues) :
    parse text = ⟨some e, #[]⟩ := by
  refine parse_of_run ?_
  have hmore : maxDepth < maxDepth + (2 + weight (Token.scan text)) := by omega
  have hagrees := ((Level.refines_ofRoom (b := builder) hmore).expr 0).agrees (start text) (by
    rintro ⟨offset, limit, hi⟩
    exact hd offset limit (mem_issues_close hi))
  rw [← hagrees]
  exact expr_of_phrase hc h (by omega)

/-- The parser accepts its grammar: where no level of nesting is refused, a text parses without an
issue, and to `e`, exactly if its tokens have nothing wrong with them and derive `e`. -/
theorem parse_iff_phrase (text : String) (e : Expr)
    (hd : ∀ offset limit, Diagnostic.tooDeep offset limit ∉ (parse text).issues) :
    (parse text).isClean = true ∧ (parse text).result = some e ↔
      (∀ t ∈ Token.scan text, t.issue? = none) ∧ Phrase .expr (Token.scan text) e := by
  constructor
  · rintro ⟨hclean, hresult⟩
    obtain ⟨hc, e', he, hp⟩ := phrase_of_parse (by simpa [Parsed.isClean] using hclean)
    rw [hresult, Option.some.injEq] at he
    exact ⟨hc, he ▸ hp⟩
  · rintro ⟨hc, hp⟩
    rw [parse_of_phrase hc hp hd]
    exact ⟨rfl, rfl⟩

theorem sum_phrase :
    (∀ offset limit, Diagnostic.tooDeep offset limit ∉ (parse "1 + 2 * a").issues) ∧
    (∀ t ∈ Token.scan "1 + 2 * a", t.issue? = none) ∧
      Phrase .expr (Token.scan "1 + 2 * a") (.operator (.binary .plus) (.number "1")
        (.operator (.binary .times) (.number "2") (.axis .child .element none (some "a")))) := by
  have hi : (parse "1 + 2 * a").issues = #[] := by decide +kernel
  have hd : ∀ offset limit, Diagnostic.tooDeep offset limit ∉ (parse "1 + 2 * a").issues := by
    simp [hi]
  exact ⟨hd, (parse_iff_phrase _ _ hd).1 ⟨by decide +kernel, by decide +kernel⟩⟩

end Expr

end YangConstraint
