import YangConstraint.Proofs.Expr.Grammar
import YangConstraint.Proofs.Expr.Refinement

/-! What is read without an issue is a phrase of the grammar, and the tree that is
built is its tree. -/
namespace YangConstraint

/-- A name is marked as callable where an opening parenthesis follows it. A wildcard never is. -/
def Lookahead (ts : List Token) : Prop :=
  ∀ t rest, t :: rest <:+ ts → ∀ qualifier label callable,
    t.symbol = .name qualifier label callable →
      (callable = true ↔
        label ≠ "*" ∧ ∃ next, rest.head? = some next ∧ next.symbol = .mark .leftParen)

theorem Lookahead.suffix {ts us : List Token} (h : Lookahead ts) (hs : us <:+ ts) : Lookahead us :=
  fun t rest ht => h t rest (ht.trans hs)

theorem Lookahead.advance {r : Reader} (h : Lookahead r.rest) : Lookahead r.advance.rest :=
  h.suffix (by rw [Reader.rest_advance]; exact r.rest.tail_suffix)

namespace Reader

variable {r : Reader} {kind : TokenKind} {p q : Option Expr × Reader} {X : Nonterminal} {a : Expr}

theorem rest_cons (h : r.kind ≠ .eof) : r.rest = r.current :: r.advance.rest := by
  cases hr : r.rest with
  | nil => exact absurd (by simp [Reader.kind, current, hr, Token.kind, Token.eof, Symbol.kind]) h
  | cons t ts => simp [current, hr]

theorem rest_cons_of_kind (h : r.kind = kind) (hk : kind ≠ .eof) :
    r.rest = r.current :: r.advance.rest := rest_cons (h ▸ hk)

theorem rest_cons_of_mark {m : Mark} (h : r.kind = .mark m) :
    r.rest = r.current :: r.advance.rest :=
  rest_cons_of_kind h (by simp)

theorem issues_record_ne {issue : Diagnostic} : (r.record issue).issues ≠ #[] := by simp [record]

/-- A token that is passed without an issue is of the kind that was expected. -/
theorem pass_clean (h : (r.pass kind).issues = #[]) : r.kind = kind ∧ r.pass kind = r.advance := by
  by_cases hk : r.kind = kind
  · exact ⟨hk, by rw [pass, check, if_pos hk]⟩
  · have hc : (r.check kind).issues = #[] := reaches_clean (.single (.advance _)) h
    rw [check, if_neg hk] at hc
    exact absurd hc issues_record_ne

/-- What has been read is a phrase, and what has been built is its tree. -/
def Reads (r : Reader) (X : Nonterminal) (p : Option Expr × Reader) : Prop :=
  ∃ w e, r.rest = w ++ p.2.rest ∧ p.1 = some e ∧ Phrase X w e

/-- What has been read makes a longer phrase of any phrase for `a`. -/
def Extends (r : Reader) (X : Nonterminal) (a : Expr) (p : Option Expr × Reader) : Prop :=
  ∃ w e, r.rest = w ++ p.2.rest ∧ p.1 = some e ∧ ∀ u, Phrase X u a → Phrase X (u ++ w) e

theorem Extends.refl : r.Extends X a (some a, r) := ⟨[], a, rfl, rfl, fun u hu => by simpa using hu⟩

end Reader

open Reader

/-- What a level reads without an issue. -/
structure Level.Sound (L : Level Id Expr) : Prop where
  expr (floor : Nat) {r : Reader} (hn : Lookahead r.rest) (hc : (L.expr floor r).2.issues = #[]) :
    r.Reads (.above floor) (L.expr floor r) ∧
      ∀ op, (L.expr floor r).2.kind = .operator op → op.precedence ≤ floor
  /-- The operand on the left is one of any operator that comes next and
  binds tighter than `floor`. -/
  operators (floor : Nat) (a : Expr) (u : List Token) {r : Reader} (hn : Lookahead r.rest)
    (hu : r.kind ≠ .operator .union)
    (ho : ∀ op, r.kind = .operator op → floor < op.precedence →
      Phrase (.operation op.precedence) u a)
    (ha : Phrase (.above floor) u a) (hc : (L.operators floor (some a) r).2.issues = #[]) :
    (∃ w e, r.rest = w ++ (L.operators floor (some a) r).2.rest ∧
      (L.operators floor (some a) r).1 = some e ∧ Phrase (.above floor) (u ++ w) e) ∧
      ∀ op, (L.operators floor (some a) r).2.kind = .operator op → op.precedence ≤ floor
  unions (a : Expr) {r : Reader} (hn : Lookahead r.rest)
    (hc : (L.unions (some a) r).2.issues = #[]) :
    r.Extends .union a (L.unions (some a) r) ∧ (L.unions (some a) r).2.kind ≠ .operator .union
  filtered (a : Expr) {r : Reader} (hn : Lookahead r.rest)
    (hc : (L.predicates false (some a) r).2.issues = #[]) :
    r.Extends .filter a (L.predicates false (some a) r)
  tested (axis : Axis) (a : Expr) {r : Reader} (hn : Lookahead r.rest)
    (hc : (L.predicates axis.isReverse (some a) r).2.issues = #[]) :
    r.Extends (.tested axis) a (L.predicates axis.isReverse (some a) r)
  relativePath {r : Reader} (hn : Lookahead r.rest) (hc : (L.relativePath r).2.issues = #[]) :
    r.Reads .relative (L.relativePath r)

namespace Token

variable {t : Token}

theorem startsPrimary_cases (h : t.startsPrimary = true) :
    (∃ value closed, t.symbol = .string value closed) ∨ t.symbol = .number ∨
      t.symbol = .mark .dollar ∨ t.symbol = .mark .leftParen ∨
        ∃ qualifier label, t.symbol = .name qualifier label true ∧ t.nodeType? = none := by
  rw [startsPrimary] at h
  split at h
  · rename_i hs
    exact .inl ⟨_, _, hs⟩
  · rename_i hs
    exact .inr (.inl hs)
  · rename_i hs
    exact .inr (.inr (.inl hs))
  · rename_i hs
    exact .inr (.inr (.inr (.inl hs)))
  · rename_i qualifier label callable hs
    simp only [Bool.and_eq_true, Option.isNone_iff_eq_none] at h
    obtain ⟨rfl, ht⟩ := h
    exact .inr (.inr (.inr (.inr ⟨qualifier, label, hs, ht⟩)))
  · cases h

theorem startsStep_cases (h : t.startsStep = true) :
    t.symbol = .mark .dot ∨ t.symbol = .mark .dotDot ∨ t.symbol = .mark .atSign ∨
      (∃ axis, t.symbol = .axis axis) ∨ t.kind = .name ∨ t.kind = .mark .star := by
  rw [startsStep] at h
  split at h
  · rename_i m hs
    simp only [List.mem_cons, List.not_mem_nil, or_false, decide_eq_true_eq] at h
    rcases h with rfl | rfl | rfl | rfl
    · exact .inl hs
    · exact .inr (.inl hs)
    · exact .inr (.inr (.inl hs))
    · exact .inr (.inr (.inr (.inr (.inr (Symbol.kind_eq_mark_iff.2 hs)))))
  · rename_i axis hs
    exact .inr (.inr (.inr (.inl ⟨axis, hs⟩)))
  · rename_i hs
    exact .inr (.inr (.inr (.inr (.inl (Symbol.kind_eq_name_iff.2 ⟨_, _, _, hs⟩)))))
  · cases h

end Token

namespace Production

variable {r : Reader} {L M : Level Id Expr} {axis : Axis} {a : Expr}

/-- A test for processing instructions behind its keyword, with or without a literal. -/
theorem instruction_reads (ht : r.current.nodeType? = some .processingInstruction)
    (e0 : r.rest = r.current :: r.advance.rest) {literal : Option String × Reader}
    (hl : literal = instructionName (m := Id) (r.advance.pass (.mark .leftParen)))
    (hc : (literal.2.pass (.mark .rightParen)).issues = #[]) :
    r.Reads (.test axis) (some (.axis axis .processingInstruction none literal.1),
      literal.2.pass (.mark .rightParen)) := by
  obtain ⟨h3, e3⟩ := pass_clean hc
  rw [e3] at hc ⊢
  have hcl := reaches_clean (.single (.advance _)) hc
  by_cases hp : (r.advance.pass (.mark .leftParen)).kind = .mark .rightParen
  · rw [instructionName_close hp] at hl
    subst hl
    obtain ⟨h1, e1⟩ := pass_clean hcl
    dsimp only at h3 hp ⊢
    rw [e1] at h3 ⊢
    refine ⟨[r.current, r.advance.current, r.advance.advance.current], _, ?_, rfl,
      .type ht (kind_eq_mark_iff.1 h1) (kind_eq_mark_iff.1 h3)⟩
    rw [e0, rest_cons_of_mark h1, rest_cons_of_mark h3]
    rfl
  · rw [instructionName_literal hp] at hl
    subst hl
    dsimp only at h3 hcl ⊢
    obtain ⟨h2, e2⟩ := pass_clean hcl
    rw [e2] at h3 hcl ⊢
    obtain ⟨h1, e1⟩ := pass_clean (reaches_clean (.single (.advance _)) hcl)
    rw [e1] at h2 h3 ⊢
    obtain ⟨value, closed, hs⟩ := Symbol.kind_eq_string_iff.1 h2
    have hv : r.advance.advance.current.literal? = some value := by simp [Token.literal?, hs]
    rw [hv]
    refine ⟨[r.current, r.advance.current, r.advance.advance.current,
      r.advance.advance.advance.current], _, ?_, rfl,
      .instruction ht (kind_eq_mark_iff.1 h1) hs (kind_eq_mark_iff.1 h3)⟩
    rw [e0, rest_cons_of_mark h1, rest_cons_of_kind h2 (by decide), rest_cons_of_mark h3]
    rfl

theorem nodeTest_reads (hc : (nodeTest Expr.builder axis r).2.issues = #[]) :
    r.Reads (.test axis) (nodeTest Expr.builder axis r) := by
  by_cases hn : r.kind = .name
  · obtain ⟨qualifier, label, callable, hs⟩ := Symbol.kind_eq_name_iff.1 hn
    have e0 := rest_cons_of_kind hn (by decide)
    by_cases ht : r.current.nodeType? = none ∨ callable = false
    · rw [nodeTest_name hs ht]
      exact ⟨[r.current], _, e0, rfl, .name hs⟩
    · push Not at ht
      obtain ⟨ht, hcall⟩ := ht
      obtain ⟨type, ht⟩ := Option.ne_none_iff_exists'.1 ht
      obtain rfl : callable = true := by simpa using hcall
      by_cases hp : type = .processingInstruction
      · subst hp
        rw [nodeTest_instruction hs ht] at hc ⊢
        exact instruction_reads ht e0 rfl hc
      · rw [nodeTest_type hs ht hp] at hc ⊢
        obtain ⟨h2, e2⟩ := pass_clean hc
        rw [e2] at hc ⊢
        obtain ⟨h1, e1⟩ := pass_clean (reaches_clean (.single (.advance _)) hc)
        rw [e1] at h2 ⊢
        refine ⟨[r.current, r.advance.current, r.advance.advance.current], _, ?_, rfl,
          .type ht (kind_eq_mark_iff.1 h1) (kind_eq_mark_iff.1 h2)⟩
        rw [e0, rest_cons_of_mark h1, rest_cons_of_mark h2]
        rfl
  · by_cases hm : r.kind = .mark .star
    · have hs := kind_eq_mark_iff.1 hm
      rw [nodeTest_star hs]
      exact ⟨[r.current], _, rest_cons_of_mark hm, rfl, .star hs⟩
    · rw [nodeTest_other hn hm] at hc
      exact absurd hc issues_record_ne

theorem abbreviated_clean (hc : (abbreviated Expr.builder axis r).2.issues = #[]) :
    abbreviated Expr.builder axis r = (some (.axis axis .any none none), r.advance) := by
  by_cases hb : r.advance.kind = .mark .leftBracket
  · rw [abbreviated_bracket hb] at hc
    exact absurd hc issues_record_ne
  · exact abbreviated_other hb

theorem tested_reads (h : L.Sound) (hm : L.Refines M) (hn : Lookahead r.rest)
    (hc : (tested Expr.builder L axis r).2.issues = #[]) :
    r.Reads (.tested axis) (tested Expr.builder L axis r) := by
  rw [tested_eq] at hc ⊢
  obtain ⟨w, e, hw, he, hp⟩ := nodeTest_reads (reaches_clean ((hm.predicates ..).reaches _) hc)
  rw [he] at hc ⊢
  obtain ⟨v, f, hv, hf, hx⟩ := h.tested axis e (hn.suffix (hw ▸ List.suffix_append ..)) hc
  exact ⟨w ++ v, f, by rw [hw, hv, List.append_assoc], hf, hx w (.ofTest hp)⟩

theorem step_reads (h : L.Sound) (hm : L.Refines M) (hn : Lookahead r.rest)
    (hs : r.current.startsStep = true) (hc : (step Expr.builder L r).2.issues = #[]) :
    r.Reads .step (step Expr.builder L r) := by
  have htail : Lookahead r.advance.rest := hn.advance
  rcases Token.startsStep_cases hs with hd | hd | hd | ⟨axis, hd⟩ | hk
  · rw [step_dot hd] at hc ⊢
    rw [abbreviated_clean hc]
    exact ⟨[r.current], _, rest_cons_of_mark (kind_eq_mark_iff.2 hd), rfl, .dot hd⟩
  · rw [step_dotDot hd] at hc ⊢
    rw [abbreviated_clean hc]
    exact ⟨[r.current], _, rest_cons_of_mark (kind_eq_mark_iff.2 hd), rfl, .dotDot hd⟩
  · rw [step_atSign hd] at hc ⊢
    obtain ⟨w, e, hw, he, hp⟩ := tested_reads h hm htail hc
    refine ⟨r.current :: w, e, ?_, he, .attribute hd hp⟩
    rw [rest_cons_of_mark (kind_eq_mark_iff.2 hd), hw, List.cons_append]
  · rw [step_axis hd] at hc ⊢
    have hc1 := reaches_clean ((refines_congruence.tested hm).reaches _) hc
    obtain ⟨h1, e1⟩ := pass_clean hc1
    rw [e1] at hc ⊢
    obtain ⟨w, e, hw, he, hp⟩ := tested_reads h hm htail.advance hc
    refine ⟨r.current :: r.advance.current :: w, e, ?_, he, .axis hd (kind_eq_mark_iff.1 h1) hp⟩
    have h0 : r.kind = .axis := by simp [Reader.kind, Token.kind, hd, Symbol.kind]
    rw [rest_cons_of_kind h0 (by decide), rest_cons_of_mark h1, hw]
    rfl
  · rw [step_child hk] at hc ⊢
    obtain ⟨w, e, hw, he, hp⟩ := tested_reads h hm hn hc
    exact ⟨w, e, hw, he, .child hp⟩

/-- A path ends where no slash follows, or goes on behind one. -/
theorem continued_reads (h : L.Sound) (hn : Lookahead r.rest)
    (hc : (continued Expr.builder L (some a) r).2.issues = #[]) :
    continued Expr.builder L (some a) r = (some a, r) ∨
      ∃ t v e path, r.rest = t :: v ++ (continued Expr.builder L (some a) r).2.rest ∧
        (continued Expr.builder L (some a) r).1 = some (.step a path) ∧ t.Leads e path ∧
          Phrase .relative v e := by
  have htail : Lookahead r.advance.rest := hn.advance
  by_cases hs : r.kind = .mark .slash
  · rw [continued_slash hs] at hc ⊢
    obtain ⟨v, e, hv, he, hp⟩ := h.relativePath htail hc
    refine .inr ⟨r.current, v, e, e, ?_, by simp [he, Expr.builder, Expr.ofOption],
      .slash (kind_eq_mark_iff.1 hs), hp⟩
    rw [rest_cons_of_mark hs, hv, List.cons_append]
  · by_cases hss : r.kind = .mark .slashSlash
    · rw [continued_slashSlash hss] at hc ⊢
      obtain ⟨v, e, hv, he, hp⟩ := h.relativePath htail hc
      refine .inr ⟨r.current, v, e, _, ?_, by simp [he, Expr.builder, Expr.ofOption],
        .slashSlash (kind_eq_mark_iff.1 hss), hp⟩
      rw [rest_cons_of_mark hss, hv, List.cons_append]
    · exact .inl (continued_other hs hss)

theorem relativePath_reads (h : L.Sound) (hm : L.Refines M) (hn : Lookahead r.rest)
    (hc : (Production.relativePath Expr.builder L r).2.issues = #[]) :
    r.Reads .relative (Production.relativePath Expr.builder L r) := by
  by_cases hs : r.current.startsStep = true
  · rw [relativePath_step hs] at hc ⊢
    obtain ⟨w, e, hw, he, hp⟩ :=
      step_reads h hm hn hs (reaches_clean ((refines_congruence.continued hm).reaches _) hc)
    rw [he] at hc ⊢
    have hn' : Lookahead (step Expr.builder L r).2.rest := hn.suffix (hw ▸ List.suffix_append ..)
    rcases continued_reads h hn' hc with heq | ⟨t, v, f, path, hv, hf, ht, hq⟩
    · rw [heq]
      exact ⟨w, e, hw, rfl, .ofStep hp⟩
    · exact ⟨w ++ t :: v, _, by rw [hw, hv, List.append_assoc], hf, .stepPath hp ht hq⟩
  · rw [relativePath_other (by simpa using hs)] at hc
    exact absurd hc issues_record_ne

theorem locationPath_reads (h : L.Sound) (hn : Lookahead r.rest)
    (hc : (locationPath Expr.builder L r).2.issues = #[]) :
    r.Reads .location (locationPath Expr.builder L r) := by
  have htail : Lookahead r.advance.rest := hn.advance
  by_cases hs : r.kind = .mark .slash
  · have e0 := rest_cons_of_mark hs
    by_cases hst : r.advance.current.startsStep = true
    · rw [locationPath_slash hs hst] at hc ⊢
      obtain ⟨v, e, hv, he, hp⟩ := h.relativePath htail hc
      refine ⟨r.current :: v, _, ?_, rfl, ?_⟩
      · rw [e0, hv, List.cons_append]
      · rw [he]
        exact .rootPath (.slash (kind_eq_mark_iff.1 hs)) hp
    · rw [locationPath_root hs (by simpa using hst)]
      exact ⟨[r.current], _, e0, rfl, .root (kind_eq_mark_iff.1 hs)⟩
  · by_cases hss : r.kind = .mark .slashSlash
    · rw [locationPath_slashSlash hss] at hc ⊢
      obtain ⟨v, e, hv, he, hp⟩ := h.relativePath htail hc
      refine ⟨r.current :: v, _, ?_, rfl, ?_⟩
      · rw [rest_cons_of_mark hss, hv, List.cons_append]
      · rw [he]
        exact .rootPath (.slashSlash (kind_eq_mark_iff.1 hss)) hp
    · rw [locationPath_other hs hss] at hc ⊢
      obtain ⟨w, e, hw, he, hp⟩ := h.relativePath hn hc
      exact ⟨w, e, hw, he, .ofRelative hp⟩

/-- Arguments are phrases with commas between them. Each comma is a token, so the
limit is not met. -/
theorem arguments_reads (h : L.Sound) (hm : L.Refines M) {limit : Nat} (hn : Lookahead r.rest)
    (hl : r.rest.length < limit) (hc : (arguments L limit r).2.issues = #[]) :
    ∃ (args : List (List Token × Expr)) (w : List Token),
      r.rest = w ++ (arguments L limit r).2.rest ∧ (arguments L limit r).1 = args.map (·.2) ∧
        args ≠ [] ∧ (∀ arg ∈ args, Phrase .expr arg.1 arg.2) ∧ Separated (args.map (·.1)) w := by
  induction limit generalizing r with
  | zero => omega
  | succ limit ih =>
    by_cases hk : (L.expr 0 r).2.kind = .mark .comma
    · rw [arguments_comma hk] at hc ⊢
      have hc1 :=
        reaches_clean (.head (.advance _) ((refines_congruence.arguments hm limit).reaches _)) hc
      obtain ⟨⟨u, e, hu, he, hp⟩, -⟩ := h.expr 0 hn hc1
      have hn1 : Lookahead (L.expr 0 r).2.rest := hn.suffix (hu ▸ List.suffix_append ..)
      have hcons := rest_cons_of_mark hk
      have hlen : (L.expr 0 r).2.advance.rest.length < limit := by
        have := congrArg List.length hu
        have := congrArg List.length hcons
        simp only [List.length_append, List.length_cons] at *
        omega
      obtain ⟨args, w, hw, ha, hne, hps, hsep⟩ := ih hn1.advance hlen hc
      obtain ⟨⟨v, f⟩, args, rfl⟩ := List.exists_cons_of_ne_nil hne
      refine ⟨(u, e) :: (v, f) :: args, u ++ (L.expr 0 r).2.current :: w, ?_, ?_, by simp, ?_,
        .more u (kind_eq_mark_iff.1 hk) hsep⟩
      · rw [hu, hcons, hw]
        simp
      · simp [he, ha]
      · intro arg harg
        rcases List.mem_cons.1 harg with rfl | harg
        · exact hp
        · exact hps arg harg
    · rw [arguments_last hk] at hc ⊢
      obtain ⟨⟨u, e, hu, he, hp⟩, -⟩ := h.expr 0 hn hc
      refine ⟨[(u, e)], u, hu, by simp [he], by simp, ?_, .one u⟩
      intro arg harg
      obtain rfl := List.mem_singleton.1 harg
      exact hp

theorem call_reads (h : L.Sound) (hm : L.Refines M) (hn : Lookahead r.rest)
    {qualifier : Option String} {label : String} {callable : Bool}
    (hs : r.current.symbol = .name qualifier label callable) (hw : label ≠ "*")
    (ht : r.current.nodeType? = none)
    (hc : (call Expr.builder L qualifier label r).2.issues = #[]) :
    r.Reads .primary (call Expr.builder L qualifier label r) := by
  have e0 := rest_cons_of_kind (Symbol.kind_eq_name_iff.2 ⟨_, _, _, hs⟩) (by decide)
  by_cases hk : (r.advance.pass (.mark .leftParen)).kind = .mark .rightParen
  · rw [call_close hk] at hc ⊢
    obtain ⟨h2, e2⟩ := pass_clean hc
    rw [e2] at hc ⊢
    obtain ⟨h1, e1⟩ := pass_clean (reaches_clean (.single (.advance _)) hc)
    rw [e1] at h2 ⊢
    refine ⟨[r.current, r.advance.current, r.advance.advance.current], _, ?_, rfl,
      @Phrase.call _ _ _ _ _ _ [] [] hs hw ht (kind_eq_mark_iff.1 h1) (by simp) .none
        (kind_eq_mark_iff.1 h2)⟩
    rw [e0, rest_cons_of_mark h1, rest_cons_of_mark h2]
    rfl
  · rw [call_arguments hk] at hc ⊢
    dsimp only at hc ⊢
    obtain ⟨h2, e2⟩ := pass_clean hc
    rw [e2] at hc ⊢
    have hc1 := reaches_clean (.single (.advance _)) hc
    obtain ⟨h1, e1⟩ :=
      pass_clean (reaches_clean ((refines_congruence.arguments hm _).reaches _) hc1)
    rw [e1] at h2 hc1 ⊢
    obtain ⟨args, w, hw', ha, -, hps, hsep⟩ :=
      arguments_reads h hm hn.advance.advance (Nat.lt_add_one _) hc1
    generalize arguments L (r.advance.advance.rest.length + 1) r.advance.advance = p at *
    refine ⟨r.current :: r.advance.current :: (w ++ [_]), _, ?_, by rw [ha]; rfl,
      .call hs hw ht (kind_eq_mark_iff.1 h1) hps hsep (kind_eq_mark_iff.1 h2)⟩
    rw [e0, rest_cons_of_mark h1, hw', rest_cons_of_mark h2]
    simp

theorem primary_reads (h : L.Sound) (hm : L.Refines M) (hn : Lookahead r.rest)
    (hs : r.current.startsPrimary = true) (hc : (primary Expr.builder L r).2.issues = #[]) :
    r.Reads .primary (primary Expr.builder L r) := by
  rcases Token.startsPrimary_cases hs with ⟨_, _, hd⟩ | hd | hd | hd | ⟨_, _, hd, ht⟩
  · rw [primary_string hd]
    have e0 := rest_cons_of_kind (Symbol.kind_eq_string_iff.2 ⟨_, _, hd⟩) (by decide)
    exact ⟨[r.current], _, e0, rfl, .string hd⟩
  · rw [primary_number hd]
    have h0 : r.kind = .number := by simp [Reader.kind, Token.kind, hd, Symbol.kind]
    exact ⟨[r.current], _, rest_cons_of_kind h0 (by decide), rfl, .number hd⟩
  · obtain ⟨h1, e1⟩ := pass_clean (r := r.advance) (primary_dollar hd ▸ hc)
    obtain ⟨_, _, _, hn1⟩ := Symbol.kind_eq_name_iff.1 h1
    rw [primary_reference hd hn1, e1]
    refine ⟨[r.current, r.advance.current], _, ?_, rfl, .reference hd hn1⟩
    rw [rest_cons_of_mark (kind_eq_mark_iff.2 hd), rest_cons_of_kind h1 (by decide)]
    rfl
  · rw [primary_parens hd] at hc ⊢
    obtain ⟨h2, e2⟩ := pass_clean hc
    rw [e2] at hc ⊢
    obtain ⟨⟨w, e, hw, he, hp⟩, -⟩ :=
      h.expr 0 hn.advance (reaches_clean (.single (.advance _)) hc)
    refine ⟨r.current :: (w ++ [_]), e, ?_, he, .parens hd hp (kind_eq_mark_iff.1 h2)⟩
    rw [rest_cons_of_mark (kind_eq_mark_iff.2 hd), hw, rest_cons_of_mark h2]
    simp
  · have e0 := rest_cons_of_kind (Symbol.kind_eq_name_iff.2 ⟨_, _, _, hd⟩) (by decide)
    rw [primary_name hd] at hc ⊢
    have hw := ((hn r.current r.advance.rest (e0 ▸ List.suffix_rfl) _ _ _ hd).1 rfl).1
    exact call_reads h hm hn hd hw ht hc

theorem path_reads (h : L.Sound) (hm : L.Refines M) (hn : Lookahead r.rest)
    (hc : (path Expr.builder L r).2.issues = #[]) : r.Reads .path (path Expr.builder L r) := by
  by_cases hs : r.current.startsPrimary = true
  · rw [path_primary hs] at hc ⊢
    dsimp only at hc ⊢
    have hc2 := reaches_clean ((refines_congruence.continued hm).reaches _) hc
    have hc1 := reaches_clean ((hm.predicates ..).reaches _) hc2
    obtain ⟨u, a, hu, ha, hp⟩ := primary_reads h hm hn hs hc1
    rw [ha] at hc hc2 ⊢
    have hn1 : Lookahead (primary Expr.builder L r).2.rest := hn.suffix (hu ▸ List.suffix_append ..)
    obtain ⟨v, f, hv, hf, hx⟩ := h.filtered a hn1 hc2
    have hq := hx u (.ofPrimary hp)
    rw [hf] at hc ⊢
    have hn2 : Lookahead (L.predicates false (some a) (primary Expr.builder L r).2).2.rest :=
      hn1.suffix (hv ▸ List.suffix_append ..)
    rcases continued_reads h hn2 hc with heq | ⟨t, w, e, path, hw, he, ht, hr⟩
    · rw [heq]
      exact ⟨u ++ v, f, by rw [hu, hv, List.append_assoc], rfl, .ofFilter hq⟩
    · refine ⟨(u ++ v) ++ t :: w, _, ?_, he, .filterPath hq ht hr⟩
      rw [hu, hv, hw, List.append_assoc, List.append_assoc]
  · rw [path_location (by simpa using hs)] at hc ⊢
    obtain ⟨w, e, hw, he, hp⟩ := locationPath_reads h hn hc
    exact ⟨w, e, hw, he, .ofLocation hp⟩

/-- No union is left behind an operand. -/
theorem operand_reads (h : L.Sound) (hm : L.Refines M) (hn : Lookahead r.rest)
    (hc : (operand Expr.builder L r).2.issues = #[]) :
    r.Reads .unary (operand Expr.builder L r) ∧
      (operand Expr.builder L r).2.kind ≠ .operator .union := by
  by_cases hk : r.kind = .operator .minus
  · rw [operand_minus hk] at hc ⊢
    obtain ⟨⟨w, e, hw, he, hp⟩, ho⟩ := h.expr _ hn.advance hc
    refine ⟨⟨r.current :: w, _, ?_, rfl, ?_⟩, fun hu => absurd (ho _ hu) (by decide)⟩
    · rw [rest_cons_of_kind hk (by decide), hw, List.cons_append]
    · rw [he]
      exact .negate (kind_eq_operator_iff.1 hk) hp
  · rw [operand_other hk] at hc ⊢
    obtain ⟨w, e, hw, he, hp⟩ := path_reads h hm hn (reaches_clean ((hm.unions _).reaches _) hc)
    rw [he] at hc ⊢
    obtain ⟨⟨v, f, hv, hf, hx⟩, hu⟩ := h.unions e (hn.suffix (hw ▸ List.suffix_append ..)) hc
    refine ⟨⟨w ++ v, f, by rw [hw, hv, List.append_assoc], hf, .ofUnion (hx w (.ofPath hp))⟩, hu⟩

theorem condition_reads (h : L.Sound) (hm : L.Refines M) (hn : Lookahead r.rest)
    (hc : (condition L r).2.issues = #[]) :
    ∃ s v c t, r.rest = s :: (v ++ [t]) ++ (condition L r).2.rest ∧ (condition L r).1 = some c ∧
      s.symbol = .mark .leftBracket ∧ Phrase .expr v c ∧ t.symbol = .mark .rightBracket := by
  rw [condition_eq] at hc ⊢
  dsimp only at hc ⊢
  obtain ⟨h2, e2⟩ := pass_clean hc
  rw [e2] at hc ⊢
  have hc1 := reaches_clean (.single (.advance _)) hc
  obtain ⟨h1, e1⟩ := pass_clean (reaches_clean ((hm.expr 0).reaches _) hc1)
  rw [e1] at h2 hc1 ⊢
  obtain ⟨⟨v, c, hv, he, hp⟩, -⟩ := h.expr 0 hn.advance hc1
  refine ⟨r.current, v, c, _, ?_, he, kind_eq_mark_iff.1 h1, hp, kind_eq_mark_iff.1 h2⟩
  rw [rest_cons_of_mark h1, hv, rest_cons_of_mark h2]
  simp

end Production

namespace Level

open Production

variable {L M : Level Id Expr} {r : Reader}

theorem sound_none : (above Expr.builder none).Sound where
  expr _ _ _ hc := absurd hc issues_record_ne
  operators floor a u r _ _ _ ha hc := by
    by_cases ho : ∀ op, r.kind = .operator op → op.precedence ≤ floor
    · rw [operators_other ho] at hc ⊢
      exact ⟨⟨[], a, rfl, rfl, by simpa using ha⟩, ho⟩
    · simp only [not_forall, Nat.not_le] at ho
      obtain ⟨op, hk, hf⟩ := ho
      rw [operators_none hk hf] at hc
      exact absurd hc issues_record_ne
  unions a r _ hc := by
    by_cases hk : r.kind = .operator .union
    · rw [unions_none hk] at hc
      exact absurd hc issues_record_ne
    · rw [unions_other hk]
      exact ⟨.refl, hk⟩
  filtered a r _ hc := by
    by_cases hk : r.kind = .mark .leftBracket
    · rw [predicates_none hk] at hc
      exact absurd hc issues_record_ne
    · rw [predicates_other hk]
      exact .refl
  tested axis a r _ hc := by
    by_cases hk : r.kind = .mark .leftBracket
    · rw [predicates_none hk] at hc
      exact absurd hc issues_record_ne
    · rw [predicates_other hk]
      exact .refl
  relativePath _ hc := absurd hc issues_record_ne

/-- The predicates that follow make a longer phrase of one that takes a predicate. -/
theorem predicates_reads {X : Nonterminal} {reverse : Bool} (h : L.Sound) (hm : L.Refines M)
    (hx : ∀ {u v : List Token} {s t : Token} {a c : Expr}, Phrase X u a →
      s.symbol = .mark .leftBracket → Phrase .expr v c → t.symbol = .mark .rightBracket →
        Phrase X (u ++ s :: (v ++ [t])) (.predicate a c reverse))
    (hL : ∀ (a : Expr) {r : Reader}, Lookahead r.rest →
      (L.predicates reverse (some a) r).2.issues = #[] →
        r.Extends X a (L.predicates reverse (some a) r))
    (a : Expr) (hn : Lookahead r.rest)
    (hc : ((above Expr.builder (some L)).predicates reverse (some a) r).2.issues = #[]) :
    r.Extends X a ((above Expr.builder (some L)).predicates reverse (some a) r) := by
  by_cases hk : r.kind = .mark .leftBracket
  · rw [predicates_some hk] at hc ⊢
    dsimp only at hc ⊢
    have hc1 := reaches_clean ((hm.predicates ..).reaches _) hc
    obtain ⟨s, v, c, t, hv, hcond, hs, hp, ht⟩ := condition_reads h hm hn hc1
    rw [hcond] at hc ⊢
    obtain ⟨w, e, hw, he, hext⟩ := hL _ (hn.suffix (hv ▸ List.suffix_append ..)) hc
    refine ⟨s :: (v ++ [t]) ++ w, e, by rw [hv, hw, List.append_assoc], he, ?_⟩
    intro u hu
    rw [← List.append_assoc]
    exact hext _ (hx hu hs hp ht)
  · rw [predicates_other hk]
    exact .refl

theorem operators_reads (h : L.Sound) (hm : L.Refines M) (floor : Nat) (a : Expr) (u : List Token)
    (hn : Lookahead r.rest) (hu : r.kind ≠ .operator .union)
    (ho : ∀ op, r.kind = .operator op → floor < op.precedence →
      Phrase (.operation op.precedence) u a)
    (ha : Phrase (.above floor) u a)
    (hc : ((above Expr.builder (some L)).operators floor (some a) r).2.issues = #[]) :
    (∃ w e, r.rest = w ++ ((above Expr.builder (some L)).operators floor (some a) r).2.rest ∧
      ((above Expr.builder (some L)).operators floor (some a) r).1 = some e ∧
        Phrase (.above floor) (u ++ w) e) ∧
      ∀ op, ((above Expr.builder (some L)).operators floor (some a) r).2.kind = .operator op →
        op.precedence ≤ floor := by
  by_cases hstop : ∀ op, r.kind = .operator op → op.precedence ≤ floor
  · rw [operators_other hstop]
    exact ⟨⟨[], a, rfl, rfl, by simpa using ha⟩, hstop⟩
  · simp only [not_forall, Nat.not_le] at hstop
    obtain ⟨op, hk, hf⟩ := hstop
    rw [operators_some hk hf] at hc ⊢
    dsimp only at hc ⊢
    have hc1 := reaches_clean ((hm.operators ..).reaches _) hc
    obtain ⟨⟨v, e, hv, he, hp⟩, hright⟩ := h.expr op.precedence hn.advance hc1
    have hop : op ≠ .union := by
      rintro rfl
      exact hu hk
    have hle : op.precedence ≤ Nonterminal.tightest := by
      cases op <;> first | decide | contradiction
    have hq :
        Phrase (.operation op.precedence) (u ++ r.current :: v) (.operator (.binary op) a e) :=
      .binary (Nonterminal.mem_operators_iff.2 ⟨hop, rfl⟩) (ho op hk hf)
        (kind_eq_operator_iff.1 hk) hp
    rw [he] at hc ⊢
    have hn1 : Lookahead (L.expr op.precedence r.advance).2.rest :=
      hn.advance.suffix (hv ▸ List.suffix_append ..)
    obtain ⟨⟨w, f, hw, hf', hr⟩, hlast⟩ := h.operators floor _ (u ++ r.current :: v) hn1
      (fun hk' => absurd (Nat.le_trans (hright _ hk') hle) (by decide))
      (fun op' hk' hf' => hq.operation_of_operation (hright op' hk') hle)
      (hq.above_of_operation hf hle) hc
    refine ⟨⟨r.current :: v ++ w, f, ?_, hf', by simpa using hr⟩, hlast⟩
    rw [rest_cons_of_kind hk (by simp), hv, hw, ← List.append_assoc]
    rfl

theorem sound_some (h : L.Sound) (hm : L.Refines M) : (above Expr.builder (some L)).Sound where
  expr floor r hn hc := by
    rw [expr_some] at hc ⊢
    have hc1 := reaches_clean ((hm.operators ..).reaches _) hc
    obtain ⟨⟨u, a, hu, ha, hp⟩, hk⟩ := operand_reads h hm hn hc1
    rw [ha] at hc ⊢
    obtain ⟨⟨w, e, hw, he, hq⟩, hlast⟩ := h.operators floor a u
      (hn.suffix (hu ▸ List.suffix_append ..)) hk
      (fun op hop _ => .tighter hp.above_of_unary) hp.above_of_unary hc
    exact ⟨⟨u ++ w, e, by rw [hu, hw, List.append_assoc], he, hq⟩, hlast⟩
  operators floor a u _ hn hu ho ha hc := operators_reads h hm floor a u hn hu ho ha hc
  unions a r hn hc := by
    by_cases hk : r.kind = .operator .union
    · rw [unions_some hk] at hc ⊢
      dsimp only at hc ⊢
      obtain ⟨v, e, hv, he, hp⟩ :=
        path_reads h hm hn.advance (reaches_clean ((hm.unions _).reaches _) hc)
      rw [he] at hc ⊢
      obtain ⟨⟨w, f, hw, hf, hx⟩, hlast⟩ :=
        h.unions _ (hn.advance.suffix (hv ▸ List.suffix_append ..)) hc
      refine ⟨⟨r.current :: v ++ w, f, ?_, hf, fun u hu => ?_⟩, hlast⟩
      · rw [rest_cons_of_kind hk (by decide), hv, hw]
        simp
      · have := hx _ (.union hu (kind_eq_operator_iff.1 hk) hp)
        simpa using this
    · rw [unions_other hk]
      exact ⟨.refl, hk⟩
  filtered a _ hn hc := predicates_reads h hm .filtered h.filtered a hn hc
  tested axis a _ hn hc := predicates_reads h hm .predicate (h.tested axis) a hn hc
  relativePath hn hc := relativePath_reads h hm hn hc

theorem sound_ofRoom (room : Nat) : (ofRoom Expr.builder room).Sound := by
  induction room with
  | zero => exact sound_none
  | succ room ih => exact sound_some ih (refines_ofRoom_succ room)

end Level

end YangConstraint
