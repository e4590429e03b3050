import YangConstraint.Proofs.Expr.Derivation

/-!
What the grammar derives is read without an issue by every level that has room for it. How much room
a phrase takes is read off its tokens.
-/
namespace YangConstraint

namespace Token

/-- The levels of nesting that a token may open for what follows it. -/
def weight (t : Token) : Nat :=
  match t.symbol with
  | .mark .leftBracket => 3
  | .operator _ => 2
  | .mark .leftParen | .mark .slash | .mark .slashSlash => 1
  | _ => 0

/-- Tokens with nothing wrong with them, whose names are marked by what follows them. -/
structure Ready (ts : List Token) : Prop where
  clean : ∀ t ∈ ts, t.issue? = none
  lookahead : Lookahead ts

variable {t : Token} {u v : List Token}

theorem Ready.suffix (h : Ready u) (hs : v <:+ u) : Ready v :=
  ⟨fun t ht => h.clean t (hs.subset ht), h.lookahead.suffix hs⟩

theorem Ready.tail (h : Ready (t :: u)) : Ready u := h.suffix (List.suffix_cons ..)

theorem Ready.right (h : Ready (u ++ v)) : Ready v := h.suffix (List.suffix_append ..)

end Token

/-- The room that a list of tokens may take. -/
def weight : List Token → Nat
  | [] => 0
  | t :: ts => t.weight + weight ts

section

variable {t : Token} {u v : List Token}

@[simp] theorem weight_nil : weight [] = 0 := rfl

@[simp] theorem weight_cons : weight (t :: u) = t.weight + weight u := rfl

@[simp] theorem weight_append : weight (u ++ v) = weight u + weight v := by
  induction u with
  | nil => simp
  | cons t u ih =>
    simp only [List.cons_append, weight_cons, ih]
    omega

end

namespace Reader

/-- The same reader with other tokens before it. -/
def seek (r : Reader) (ts : List Token) : Reader := { r with rest := ts }

variable {r : Reader} {t : Token} {ts : List Token} {kind : TokenKind}

@[simp] theorem rest_seek : (r.seek ts).rest = ts := rfl

@[simp] theorem current_seek : (r.seek (t :: ts)).current = t := rfl

@[simp] theorem kind_seek : (r.seek (t :: ts)).kind = t.kind := rfl

theorem advance_seek (h : Token.Ready ts) : (r.seek (t :: ts)).advance = r.seek ts := by
  have hi : (r.seek ts).current.issue? = none := by
    cases ts with
    | nil => rfl
    | cons s ss => exact h.clean s (.head _)
  show (r.seek ts).inspect = r.seek ts
  rw [inspect, hi]

theorem pass_seek (h : Token.Ready ts) (hk : t.kind = kind) :
    (r.seek (t :: ts)).pass kind = r.seek ts := by
  rw [pass, check, if_pos (by simpa using hk), advance_seek h]

end Reader

namespace Nonterminal

/-- The marks that may follow a phrase. -/
def marks : Nonterminal → List Mark
  | step => [.rightParen, .rightBracket, .comma, .slash, .slashSlash]
  | filter | primary | tested _ | test _ =>
    [.rightParen, .rightBracket, .comma, .slash, .slashSlash, .leftBracket]
  | _ => [.rightParen, .rightBracket, .comma]

/-- Whether a token of this kind may follow a phrase. -/
def follows : Nonterminal → TokenKind → Bool
  | operation level, .operator op => op ≠ .union && op.precedence ≤ level
  | unary, .operator op => op ≠ .union
  | _, .operator _ => true
  | X, .mark m => m ∈ X.marks
  | _, .eof => true
  | _, _ => false

/-- Whether a phrase may begin with the token. -/
def starts : Nonterminal → Token → Bool
  | operation _, t | unary, t => t.kind ≠ .mark .rightParen
  | union, t | path, t => t.kind ≠ .mark .rightParen && t.kind ≠ .operator .minus
  | filter, t | primary, t => t.startsPrimary
  | location, t =>
    t.kind ≠ .mark .rightParen && t.kind ≠ .operator .minus && !t.startsPrimary
  | relative, t | step, t => t.startsStep && !t.startsPrimary
  | tested _, t | test _, t => (t.kind = .name || t.kind = .mark .star) && !t.startsPrimary

/-- The room that a phrase takes before its first token. -/
def base : Nonterminal → Nat
  | relative | step | tested _ | test _ => 0
  | _ => 1

open Production

/-- How a production with `room` below it reads a phrase `w` for `e` with `rest` behind it. Where
more of the same may follow, it goes on with what room is left. -/
def Runs (room : Nat) (r : Reader) (w rest : List Token) (e : Expr) : Nonterminal → Prop
  | operation level => ∀ floor, floor < level → ∃ left, room ≤ left + weight w ∧
      let first := operand Expr.builder (.ofRoom Expr.builder room) (r.seek (w ++ rest))
      (Level.ofRoom Expr.builder room).operators floor first.1 first.2 =
        (Level.ofRoom Expr.builder left).operators floor (some e) (r.seek rest)
  | unary => operand Expr.builder (.ofRoom Expr.builder room) (r.seek (w ++ rest)) =
      (some e, r.seek rest)
  | union => ∃ left, room ≤ left + weight w ∧
      let first := Production.path Expr.builder (.ofRoom Expr.builder room) (r.seek (w ++ rest))
      (Level.ofRoom Expr.builder room).unions first.1 first.2 =
        (Level.ofRoom Expr.builder left).unions (some e) (r.seek rest)
  | path => Production.path Expr.builder (.ofRoom Expr.builder room) (r.seek (w ++ rest)) =
      (some e, r.seek rest)
  | filter => ∃ left, room ≤ left + weight w ∧
      let first := Production.primary Expr.builder (.ofRoom Expr.builder room) (r.seek (w ++ rest))
      (Level.ofRoom Expr.builder room).predicates false first.1 first.2 =
        (Level.ofRoom Expr.builder left).predicates false (some e) (r.seek rest)
  | primary => Production.primary Expr.builder (.ofRoom Expr.builder room) (r.seek (w ++ rest)) =
      (some e, r.seek rest)
  | location => locationPath Expr.builder (.ofRoom Expr.builder room) (r.seek (w ++ rest)) =
      (some e, r.seek rest)
  | relative => relativePath Expr.builder (.ofRoom Expr.builder room) (r.seek (w ++ rest)) =
      (some e, r.seek rest)
  | step => Production.step Expr.builder (.ofRoom Expr.builder room) (r.seek (w ++ rest)) =
      (some e, r.seek rest)
  | tested axis => ∃ left, room ≤ left + weight w ∧
      let first := nodeTest Expr.builder axis (r.seek (w ++ rest))
      (Level.ofRoom Expr.builder room).predicates axis.isReverse first.1 first.2 =
        (Level.ofRoom Expr.builder left).predicates axis.isReverse (some e) (r.seek rest)
  | test axis => nodeTest Expr.builder axis (r.seek (w ++ rest)) = (some e, r.seek rest)

/-- A phrase is read wherever what follows it may follow it and there is room for it. -/
def Accepts (X : Nonterminal) (w : List Token) (e : Expr) : Prop :=
  ∀ r rest, Token.Ready (w ++ rest) → X.follows (r.seek rest).kind = true →
    (∃ t v, w = t :: v ∧ X.starts t = true) ∧
      ∀ room, X.base + weight w ≤ room → X.Runs room r w rest e

theorem follows_mark {X : Nonterminal} {m : Mark} : X.follows (.mark m) = decide (m ∈ X.marks) := by
  cases X <;> rfl

theorem follows_mono {X Y : Nonterminal} {kind : TokenKind} (h : X.follows kind = true)
    (hm : ∀ m ∈ X.marks, m ∈ Y.marks)
    (ho : ∀ op, X.follows (.operator op) = true → Y.follows (.operator op) = true) :
    Y.follows kind = true := by
  cases kind with
  | operator op => exact ho op h
  | mark m =>
    rw [follows_mark, decide_eq_true_eq] at h ⊢
    exact hm m h
  | eof => cases Y <;> rfl
  | _ => cases X <;> cases h

variable {w u v rest : List Token} {e a c : Expr} {r : Reader} {floor level room : Nat}
  {axis : Axis} {s t : Token}

theorem operators_stop {left : Option Expr} {kind : TokenKind} (hk : r.kind = kind)
    (h : (operation floor).follows kind = true) :
    (Level.ofRoom Expr.builder room).operators floor left r = (left, r) := by
  have ho : ∀ op, r.kind = .operator op → op.precedence ≤ floor := by
    intro op hop
    rw [← hk, hop] at h
    simp only [follows, Bool.and_eq_true, decide_eq_true_eq] at h
    exact h.2
  cases room <;> exact Level.operators_other ho

theorem unions_stop {left : Option Expr} (h : r.kind ≠ .operator .union) :
    (Level.ofRoom Expr.builder room).unions left r = (left, r) := by
  cases room <;> exact Level.unions_other h

theorem predicates_stop {left : Option Expr} {reverse : Bool} (h : r.kind ≠ .mark .leftBracket) :
    (Level.ofRoom Expr.builder room).predicates reverse left r = (left, r) := by
  cases room <;> exact Level.predicates_other h

/-- What ends an operation behind an operator may follow the operand there. -/
theorem follows_above {kind : TokenKind} (h : (operation floor).follows kind = true) :
    (above floor).follows kind = true := by
  rw [above]
  cases kind with
  | operator op =>
    simp only [follows, Bool.and_eq_true, decide_eq_true_eq] at h
    split
    · simp only [follows, Bool.and_eq_true, decide_eq_true_eq]
      exact ⟨h.1, by omega⟩
    · simpa [follows] using h.1
  | _ => split <;> exact h

/-- An operand is read with all the operators in it and none of those behind it. -/
theorem Accepts.expr (h : (above floor).Accepts w e) (r : Reader) (room : Nat)
    (hr : Token.Ready (w ++ rest)) (hf : (operation floor).follows (r.seek rest).kind = true)
    (hroom : 2 + weight w ≤ room) :
    (Level.ofRoom Expr.builder room).expr floor (r.seek (w ++ rest)) = (some e, r.seek rest) := by
  obtain ⟨room, rfl⟩ : ∃ n, room = n + 1 := ⟨room - 1, by omega⟩
  have hruns := (h r rest hr (follows_above hf)).2
  rw [above] at hruns
  show (Level.above Expr.builder (some (Level.ofRoom Expr.builder room))).expr floor _ = _
  rw [Level.expr_some]
  split at hruns
  · obtain ⟨left, -, hrun⟩ := hruns room (by simp only [base]; omega) floor (Nat.lt_succ_self _)
    rw [hrun, operators_stop rfl hf]
  · have hrun := hruns room (by simp only [base]; omega)
    simp only [Runs] at hrun
    rw [hrun, operators_stop rfl hf]

theorem Accepts.relativePath (h : relative.Accepts w e) (r : Reader) (room : Nat)
    (hr : Token.Ready (w ++ rest)) (hf : relative.follows (r.seek rest).kind = true)
    (hroom : 1 + weight w ≤ room) :
    (Level.ofRoom Expr.builder room).relativePath (r.seek (w ++ rest)) = (some e, r.seek rest) := by
  obtain ⟨room, rfl⟩ : ∃ n, room = n + 1 := ⟨room - 1, by omega⟩
  exact (h r rest hr hf).2 room (by simp only [base]; omega)

theorem accepts_tighter (h : (above level).Accepts w e) : (operation level).Accepts w e := by
  intro r rest hr hf
  obtain ⟨⟨t, v, hw, hs⟩, hruns⟩ := h r rest hr (follows_above hf)
  rw [above] at hs hruns
  split at hs
  · rename_i hl
    rw [if_pos hl] at hruns
    refine ⟨⟨t, v, hw, hs⟩, ?_⟩
    intro room hroom floor hfloor
    exact hruns room hroom floor (by omega)
  · rename_i hl
    rw [if_neg hl] at hruns
    refine ⟨⟨t, v, hw, hs⟩, ?_⟩
    intro room hroom floor hfloor
    refine ⟨room, by omega, ?_⟩
    have hrun := hruns room hroom
    simp only [Runs] at hrun
    rw [hrun]

theorem accepts_binary {op : BinaryOp} (hop : op ∈ operators level)
    (hu : (operation level).Accepts u a) (ht : t.symbol = .operator op)
    (hv : (above level).Accepts v c) :
    (operation level).Accepts (u ++ t :: v) (.operator (.binary op) a c) := by
  intro r rest hr hf
  obtain ⟨hunion, rfl⟩ := mem_operators_iff.1 hop
  have hk : t.kind = .operator op := by simp [Token.kind, ht, Symbol.kind]
  rw [List.append_assoc, List.cons_append] at hr
  obtain ⟨⟨t', v', hw, hs⟩, hruns⟩ := hu r (t :: (v ++ rest)) hr (by simp [hk, follows, hunion])
  refine ⟨⟨t', v' ++ t :: v, by simp [hw], hs⟩, ?_⟩
  intro room hroom floor hfloor
  simp only [base, weight_append, weight_cons, Token.weight, ht] at hroom hruns
  obtain ⟨left, hleft, hrun⟩ := hruns room (by omega) floor hfloor
  obtain ⟨left, rfl⟩ : ∃ n, left = n + 1 := ⟨left - 1, by omega⟩
  refine ⟨left, by simp only [weight_append, weight_cons, Token.weight, ht]; omega, ?_⟩
  have hright := hv.expr r left hr.right.tail hf (by omega)
  rw [List.append_assoc, List.cons_append]
  refine hrun.trans ?_
  show (Level.above Expr.builder (some (Level.ofRoom Expr.builder left))).operators floor _ _ = _
  have hk' : (r.seek (t :: (v ++ rest))).kind = .operator op := hk
  rw [Level.operators_some hk' hfloor, Reader.advance_seek hr.right.tail, hright]
  rfl

theorem accepts_ofUnion (h : union.Accepts w e) : unary.Accepts w e := by
  intro r rest hr hf
  have hu : (r.seek rest).kind ≠ .operator .union := by
    intro hk
    simp [hk, follows] at hf
  have hf' : union.follows (r.seek rest).kind = true := follows_mono hf (by decide) fun _ _ => rfl
  obtain ⟨⟨t, v, rfl, hs⟩, hruns⟩ := h r rest hr hf'
  simp only [starts, ne_eq, decide_not, Bool.and_eq_true, Bool.not_eq_true',
    decide_eq_false_iff_not] at hs
  refine ⟨⟨t, v, rfl, by simpa [starts] using hs.1⟩, ?_⟩
  intro room hroom
  obtain ⟨left, -, hrun⟩ := hruns room hroom
  simp only [Runs]
  rw [operand_other (by simpa using hs.2), hrun, unions_stop hu]

theorem accepts_negate (ht : t.symbol = .operator .minus) (h : unary.Accepts w e) :
    unary.Accepts (t :: w) (.operator .negate e .hole) := by
  intro r rest hr hf
  have hk : t.kind = .operator .minus := by simp [Token.kind, ht, Symbol.kind]
  rw [List.cons_append] at hr
  refine ⟨⟨t, w, rfl, by simp [starts, hk]⟩, ?_⟩
  intro room hroom
  have hf' : (operation Operator.negate.precedence).follows (r.seek rest).kind = true :=
    follows_mono hf (by decide) fun op hop => by cases op <;> first | rfl | cases hop
  simp only [base, weight_cons, Token.weight, ht] at hroom
  have hw : (above Operator.negate.precedence).Accepts w e := h
  have hright := hw.expr r room hr.tail hf' (by omega)
  simp only [Runs]
  rw [operand_minus (by simpa using hk), List.cons_append, Reader.advance_seek hr.tail, hright]
  rfl

theorem accepts_ofPath (h : path.Accepts w e) : union.Accepts w e := by
  intro r rest hr hf
  have hf' : path.follows (r.seek rest).kind = true := follows_mono hf (by decide) fun _ _ => rfl
  obtain ⟨hs, hruns⟩ := h r rest hr hf'
  refine ⟨hs, ?_⟩
  intro room hroom
  refine ⟨room, by omega, ?_⟩
  have hrun := hruns room hroom
  simp only [Runs] at hrun
  rw [hrun]

theorem accepts_union (hu : union.Accepts u a) (ht : t.symbol = .operator .union)
    (hv : path.Accepts v c) : union.Accepts (u ++ t :: v) (.operator (.binary .union) a c) := by
  intro r rest hr hf
  have hk : t.kind = .operator .union := by simp [Token.kind, ht, Symbol.kind]
  rw [List.append_assoc, List.cons_append] at hr
  obtain ⟨⟨t', v', hw, hs⟩, hruns⟩ := hu r (t :: (v ++ rest)) hr (by simp [hk, follows])
  refine ⟨⟨t', v' ++ t :: v, by simp [hw], hs⟩, ?_⟩
  intro room hroom
  simp only [base, weight_append, weight_cons, Token.weight, ht] at hroom hruns
  obtain ⟨left, hleft, hrun⟩ := hruns room (by omega)
  obtain ⟨left, rfl⟩ : ∃ n, left = n + 1 := ⟨left - 1, by omega⟩
  refine ⟨left, by simp only [weight_append, weight_cons, Token.weight, ht]; omega, ?_⟩
  have hf' : path.follows (r.seek rest).kind = true := follows_mono hf (by decide) fun _ _ => rfl
  have hright := (hv r rest hr.right.tail hf').2 left (by simp only [base]; omega)
  simp only [Runs] at hright
  rw [List.append_assoc, List.cons_append]
  refine hrun.trans ?_
  show (Level.above Expr.builder (some (Level.ofRoom Expr.builder left))).unions _ _ = _
  have hk' : (r.seek (t :: (v ++ rest))).kind = .operator .union := hk
  rw [Level.unions_some hk', Reader.advance_seek hr.right.tail, hright]
  rfl

theorem accepts_ofLocation (h : location.Accepts w e) : path.Accepts w e := by
  intro r rest hr hf
  have hf' : location.follows (r.seek rest).kind = true :=
    follows_mono hf (by decide) fun _ _ => rfl
  obtain ⟨⟨t, v, rfl, hs⟩, hruns⟩ := h r rest hr hf'
  simp only [starts, ne_eq, Bool.and_eq_true, Bool.not_eq_true'] at hs
  refine ⟨⟨t, v, rfl, by simpa [starts] using hs.1⟩, ?_⟩
  intro room hroom
  have hrun := hruns room hroom
  simp only [Runs] at hrun ⊢
  rw [path_location (by simpa using hs.2), hrun]

/-- A path goes on behind a slash. -/
theorem continued_leads {path : Expr} (ht : t.Leads c path) (hv : relative.Accepts v c)
    (hr : Token.Ready (t :: (v ++ rest))) (hf : relative.follows (r.seek rest).kind = true)
    (hroom : 1 + weight v ≤ room) :
    continued Expr.builder (.ofRoom Expr.builder room) (some a) (r.seek (t :: (v ++ rest))) =
      (some (.step a path), r.seek rest) := by
  have hrun := hv.relativePath r room hr.tail hf hroom
  cases ht with
  | slash ht =>
    have hk : (r.seek (t :: (v ++ rest))).kind = .mark .slash := Symbol.kind_eq_mark_iff.2 ht
    rw [continued_slash hk, Reader.advance_seek hr.tail, hrun]
    rfl
  | slashSlash ht =>
    have hk : (r.seek (t :: (v ++ rest))).kind = .mark .slashSlash := Symbol.kind_eq_mark_iff.2 ht
    rw [continued_slashSlash hk, Reader.advance_seek hr.tail, hrun]
    rfl

theorem leads_kind {path : Expr} (ht : t.Leads c path) :
    (t.kind = .mark .slash ∨ t.kind = .mark .slashSlash) ∧ t.weight = 1 := by
  cases ht with
  | slash ht => exact ⟨.inl (Symbol.kind_eq_mark_iff.2 ht), by simp [Token.weight, ht]⟩
  | slashSlash ht => exact ⟨.inr (Symbol.kind_eq_mark_iff.2 ht), by simp [Token.weight, ht]⟩

/-- What may follow a path ends it: no predicate and no slash does. -/
theorem path_follows {kind : TokenKind} (h : path.follows kind = true) :
    filter.follows kind = true ∧ step.follows kind = true ∧ kind ≠ .mark .leftBracket ∧
      kind ≠ .mark .slash ∧ kind ≠ .mark .slashSlash := by
  cases kind with
  | mark m => cases m <;> simp_all [follows, marks]
  | _ => simp_all [follows]

theorem startsPrimary_path (h : filter.starts t = true) : path.starts t = true := by
  rcases Token.startsPrimary_cases h with ⟨_, _, hs⟩ | hs | hs | hs | ⟨_, _, hs, -⟩ <;>
    simp [starts, Token.kind, hs, Symbol.kind]

theorem accepts_ofFilter (h : filter.Accepts w e) : path.Accepts w e := by
  intro r rest hr hf
  obtain ⟨hfilter, -, hb, hs, hss⟩ := path_follows hf
  obtain ⟨⟨t, v, rfl, hst⟩, hruns⟩ := h r rest hr hfilter
  refine ⟨⟨t, v, rfl, startsPrimary_path hst⟩, ?_⟩
  intro room hroom
  obtain ⟨left, -, hrun⟩ := hruns room hroom
  have hp : (r.seek (t :: v ++ rest)).current.startsPrimary = true := hst
  simp only [Runs]
  rw [path_primary hp]
  dsimp only at hrun ⊢
  rw [hrun, predicates_stop hb, continued_other hs hss]

theorem accepts_filterPath {path : Expr} (hu : filter.Accepts u a) (ht : t.Leads c path)
    (hv : relative.Accepts v c) : Nonterminal.path.Accepts (u ++ t :: v) (.step a path) := by
  intro r rest hr hf
  obtain ⟨hk, hweight⟩ := leads_kind ht
  rw [List.append_assoc, List.cons_append] at hr
  have hfilter : filter.follows (r.seek (t :: (v ++ rest))).kind = true := by
    rcases hk with hk | hk <;> simp [hk, follows, marks]
  obtain ⟨⟨t', v', rfl, hst⟩, hruns⟩ := hu r (t :: (v ++ rest)) hr hfilter
  refine ⟨⟨t', v' ++ t :: v, rfl, startsPrimary_path hst⟩, ?_⟩
  intro room hroom
  simp only [base, weight_append, weight_cons, hweight] at hroom hruns
  obtain ⟨left, -, hrun⟩ := hruns room (by omega)
  have hp : (r.seek (t' :: v' ++ t :: (v ++ rest))).current.startsPrimary = true := hst
  have hw : t' :: v' ++ t :: v ++ rest = t' :: v' ++ t :: (v ++ rest) := by simp
  simp only [Runs]
  rw [hw, path_primary hp]
  dsimp only at hrun ⊢
  have hb : (r.seek (t :: (v ++ rest))).kind ≠ .mark .leftBracket := by
    rcases hk with hk | hk <;> simp [hk]
  have hf' : relative.follows (r.seek rest).kind = true :=
    follows_mono hf (by decide) fun _ _ => rfl
  rw [hrun, predicates_stop hb, continued_leads ht hv hr.right hf' (by omega)]

theorem accepts_ofPrimary (h : primary.Accepts w e) : filter.Accepts w e := by
  intro r rest hr hf
  have hf' : primary.follows (r.seek rest).kind = true := follows_mono hf (by decide) fun _ _ => rfl
  obtain ⟨hs, hruns⟩ := h r rest hr hf'
  refine ⟨hs, ?_⟩
  intro room hroom
  refine ⟨room, by omega, ?_⟩
  have hrun := hruns room hroom
  simp only [Runs] at hrun
  rw [hrun]

/-- A predicate in brackets is read with one level less left for what follows it. -/
theorem predicates_bracket {reverse : Bool} (hs : s.symbol = .mark .leftBracket)
    (hv : expr.Accepts v c) (ht : t.symbol = .mark .rightBracket)
    (hr : Token.Ready (s :: (v ++ t :: rest))) (hroom : 2 + weight v ≤ room) :
    (Level.ofRoom Expr.builder (room + 1)).predicates reverse (some a)
        (r.seek (s :: (v ++ t :: rest))) =
      (Level.ofRoom Expr.builder room).predicates reverse (some (.predicate a c reverse))
        (r.seek rest) := by
  have hks : (r.seek (s :: (v ++ t :: rest))).kind = .mark .leftBracket :=
    Symbol.kind_eq_mark_iff.2 hs
  have hkt : t.kind = .mark .rightBracket := Symbol.kind_eq_mark_iff.2 ht
  have hcond := hv.expr r room hr.tail
    (by simp [hkt, follows, marks]) hroom
  show (Level.above Expr.builder (some (Level.ofRoom Expr.builder room))).predicates _ _ _ = _
  rw [Level.predicates_some hks]
  dsimp only
  rw [condition_eq, Reader.pass_seek hr.tail (by simpa using hks), hcond,
    Reader.pass_seek hr.tail.right.tail hkt]
  rfl

/-- Predicates behind `u` go on behind one more with what room is left. -/
theorem predicates_more {reverse : Bool} {base : Nat} {first : Option Expr × Reader}
    (hs : s.symbol = .mark .leftBracket) (hv : expr.Accepts v c)
    (ht : t.symbol = .mark .rightBracket) (hr : Token.Ready (u ++ s :: (v ++ t :: rest)))
    (hroom : base + weight (u ++ s :: (v ++ [t])) ≤ room)
    (hu : base + weight u ≤ room → ∃ left, room ≤ left + weight u ∧
      (Level.ofRoom Expr.builder room).predicates reverse first.1 first.2 =
        (Level.ofRoom Expr.builder left).predicates reverse (some a)
          (r.seek (s :: (v ++ t :: rest)))) :
    ∃ left, room ≤ left + weight (u ++ s :: (v ++ [t])) ∧
      (Level.ofRoom Expr.builder room).predicates reverse first.1 first.2 =
        (Level.ofRoom Expr.builder left).predicates reverse (some (.predicate a c reverse))
          (r.seek rest) := by
  have hweight : s.weight = 3 := by simp [Token.weight, hs]
  simp only [weight_append, weight_cons, weight_nil, hweight] at hroom ⊢
  obtain ⟨left, hleft, hrun⟩ := hu (by omega)
  obtain ⟨left, rfl⟩ : ∃ n, left = n + 1 := ⟨left - 1, by omega⟩
  refine ⟨left, by omega, ?_⟩
  exact hrun.trans (predicates_bracket hs hv ht hr.right (by omega))

theorem accepts_filtered (hu : filter.Accepts u a) (hs : s.symbol = .mark .leftBracket)
    (hv : expr.Accepts v c) (ht : t.symbol = .mark .rightBracket) :
    filter.Accepts (u ++ s :: (v ++ [t])) (.predicate a c false) := by
  intro r rest hr hf
  have hw : u ++ s :: (v ++ [t]) ++ rest = u ++ s :: (v ++ t :: rest) := by simp
  have hks : s.kind = .mark .leftBracket := Symbol.kind_eq_mark_iff.2 hs
  rw [hw] at hr
  obtain ⟨⟨t', v', hu', hst⟩, hruns⟩ :=
    hu r (s :: (v ++ t :: rest)) hr (by simp [hks, follows, marks])
  refine ⟨⟨t', v' ++ s :: (v ++ [t]), by simp [hu'], hst⟩, ?_⟩
  intro room hroom
  simp only [Runs]
  rw [hw]
  exact predicates_more hs hv ht hr hroom (hruns room)

theorem accepts_string {value : String} {closed : Bool} (ht : t.symbol = .string value closed) :
    primary.Accepts [t] (.string value) := by
  intro r rest hr _
  refine ⟨⟨t, [], rfl, by simp [starts, Token.startsPrimary, ht]⟩, ?_⟩
  intro room _
  simp only [Runs, List.cons_append, List.nil_append] at hr ⊢
  rw [primary_string (by simpa using ht), Reader.advance_seek hr.tail]
  rfl

theorem accepts_number (ht : t.symbol = .number) : primary.Accepts [t] (.number t.text) := by
  intro r rest hr _
  refine ⟨⟨t, [], rfl, by simp [starts, Token.startsPrimary, ht]⟩, ?_⟩
  intro room _
  simp only [Runs, List.cons_append, List.nil_append] at hr ⊢
  rw [primary_number (by simpa using ht), Reader.advance_seek hr.tail]
  rfl

theorem accepts_reference {qualifier : Option String} {label : String} {callable : Bool}
    (hs : s.symbol = .mark .dollar) (ht : t.symbol = .name qualifier label callable) :
    primary.Accepts [s, t] (.reference qualifier (some label)) := by
  intro r rest hr _
  refine ⟨⟨s, [t], rfl, by simp [starts, Token.startsPrimary, hs]⟩, ?_⟩
  intro room _
  simp only [Runs, List.cons_append, List.nil_append] at hr ⊢
  have hadv := Reader.advance_seek (r := r) (t := s) hr.tail
  rw [primary_reference (by simpa using hs) (by rw [hadv]; exact ht), hadv,
    Reader.pass_seek hr.tail.tail (Symbol.kind_eq_name_iff.2 ⟨_, _, _, ht⟩)]
  rfl

theorem accepts_parens (hs : s.symbol = .mark .leftParen) (h : expr.Accepts w e)
    (ht : t.symbol = .mark .rightParen) : primary.Accepts (s :: (w ++ [t])) e := by
  intro r rest hr _
  have hw : s :: (w ++ [t]) ++ rest = s :: (w ++ t :: rest) := by simp
  rw [hw] at hr
  refine ⟨⟨s, _, rfl, by simp [starts, Token.startsPrimary, hs]⟩, ?_⟩
  intro room hroom
  have hkt : t.kind = .mark .rightParen := Symbol.kind_eq_mark_iff.2 ht
  have hweight : s.weight = 1 := by simp [Token.weight, hs]
  simp only [base, weight_append, weight_cons, hweight] at hroom
  have hrun := h.expr r room hr.tail
    (by simp [hkt, follows, marks]) (by omega)
  simp only [Runs]
  rw [hw, primary_parens (by simpa using hs), Reader.advance_seek hr.tail, hrun,
    Reader.pass_seek hr.tail.right.tail hkt]

/-- Arguments are read up to the closing parenthesis. -/
theorem arguments_accepts {args : List (List Token × Expr)} {limit : Nat}
    (hargs : ∀ arg ∈ args, expr.Accepts arg.1 arg.2) (hne : args ≠ [])
    (h : Separated (args.map (·.1)) w) (hr : Token.Ready (w ++ rest))
    (hf : (r.seek rest).kind = .mark .rightParen) (hlimit : args.length ≤ limit)
    (hroom : 2 + weight w ≤ room) :
    arguments (.ofRoom Expr.builder room) limit (r.seek (w ++ rest)) =
      (args.map (·.2), r.seek rest) := by
  induction args generalizing w limit with
  | nil => contradiction
  | cons arg args ih =>
    obtain ⟨limit, rfl⟩ : ∃ n, limit = n + 1 := ⟨limit - 1, by simp at hlimit; omega⟩
    have harg := hargs arg (.head _)
    cases args with
    | nil =>
      cases h
      have hrun := harg.expr r room hr (by simp [hf, follows, marks]) hroom
      rw [arguments_last (by simp [hrun, hf]), hrun]
      rfl
    | cons next args =>
      obtain _ | _ | @⟨v, w, ws, t, u, ht, h⟩ := h
      have hkt : t.kind = .mark .comma := Symbol.kind_eq_mark_iff.2 ht
      rw [List.append_assoc, List.cons_append] at hr ⊢
      simp only [weight_append, weight_cons] at hroom
      have hrun := harg.expr r room hr (by simp [hkt, follows, marks]) (by omega)
      have hrest := @ih _ limit (fun arg h => hargs arg (.tail _ h)) (by simp) h
        hr.right.tail (by simpa using hlimit) (by omega)
      rw [arguments_comma (by simp [hrun, hkt]), hrun]
      dsimp only
      rw [Reader.advance_seek hr.right.tail, hrest]
      rfl

/-- Behind the first argument comes a comma or nothing. -/
theorem separated_first {args : List (List Token × Expr)} {arg : List Token × Expr}
    (h : Separated ((arg :: args).map (·.1)) w) :
    w = arg.1 ∨ ∃ t v, t.kind = .mark .comma ∧ w = arg.1 ++ t :: v := by
  cases args with
  | nil =>
    cases h
    exact .inl rfl
  | cons next args =>
    obtain _ | _ | @⟨v, w, ws, t, u, ht, h⟩ := h
    exact .inr ⟨t, w, Symbol.kind_eq_mark_iff.2 ht, rfl⟩

theorem starts_expr (h : expr.starts t = true) : t.kind ≠ .mark .rightParen := by
  change (operation 1).starts t = true at h
  simpa [starts] using h

theorem arguments_start {args : List (List Token × Expr)} {arg : List Token × Expr}
    (harg : expr.Accepts arg.1 arg.2) (h : Separated ((arg :: args).map (·.1)) w)
    (hr : Token.Ready (w ++ rest)) (hf : (r.seek rest).kind = .mark .rightParen) :
    (r.seek (w ++ rest)).kind ≠ .mark .rightParen := by
  rcases separated_first h with rfl | ⟨t, v, hk, rfl⟩
  · obtain ⟨⟨t, v, hw, hs⟩, -⟩ := harg r rest hr (by rw [hf]; rfl)
    rw [hw]
    exact starts_expr hs
  · rw [List.append_assoc] at hr ⊢
    have hcomma : (r.seek (t :: v ++ rest)).kind = .mark .comma := hk
    obtain ⟨⟨t', v', hw, hs⟩, -⟩ := harg r (t :: v ++ rest) hr (by rw [hcomma]; rfl)
    rw [hw]
    exact starts_expr hs

theorem length_separated {ws : List (List Token)} (h : Separated ws w) :
    ws.length ≤ w.length + 1 := by
  induction h with
  | none => simp
  | one => simp
  | more u ht h ih =>
    simp only [List.length_append, List.length_cons] at ih ⊢
    omega

theorem accepts_call {n : Token} {qualifier : Option String} {label : String} {callable : Bool}
    {args : List (List Token × Expr)} (hn : n.symbol = .name qualifier label callable)
    (hw : label ≠ "*") (hk : n.nodeType? = none) (hs : s.symbol = .mark .leftParen)
    (hargs : ∀ arg ∈ args, expr.Accepts arg.1 arg.2) (h : Separated (args.map (·.1)) w)
    (ht : t.symbol = .mark .rightParen) :
    primary.Accepts (n :: s :: (w ++ [t])) (.call qualifier label (args.map (·.2))) := by
  intro r rest hr _
  have hcons : n :: s :: (w ++ [t]) ++ rest = n :: s :: (w ++ t :: rest) := by simp
  rw [hcons] at hr
  have hcall : callable = true :=
    (hr.lookahead n _ List.suffix_rfl _ _ _ hn).2 ⟨hw, s, rfl, hs⟩
  refine ⟨⟨n, _, rfl, by simp [starts, Token.startsPrimary, hn, hcall, hk]⟩, ?_⟩
  intro room hroom
  have hkt : t.kind = .mark .rightParen := Symbol.kind_eq_mark_iff.2 ht
  have hweight : s.weight = 1 := by simp [Token.weight, hs]
  simp only [base, weight_append, weight_cons, hweight] at hroom
  have hopen : (r.seek (n :: s :: (w ++ t :: rest))).advance.pass (.mark .leftParen) =
      r.seek (w ++ t :: rest) := by
    rw [Reader.advance_seek hr.tail, Reader.pass_seek hr.tail.tail (Symbol.kind_eq_mark_iff.2 hs)]
  have hclose : (r.seek (t :: rest)).pass (.mark .rightParen) = r.seek rest :=
    Reader.pass_seek hr.tail.tail.right.tail hkt
  simp only [Runs]
  rw [hcons, primary_name (by simpa using hn)]
  cases args with
  | nil =>
    cases h
    rw [call_close (by rw [hopen]; exact hkt), hopen]
    simp only [List.nil_append, hclose]
    rfl
  | cons arg args =>
    have hfirst :=
      arguments_start (r := r) (hargs arg (.head _)) h hr.tail.tail (by simpa using hkt)
    rw [call_arguments (by rw [hopen]; exact hfirst)]
    dsimp only
    rw [hopen, arguments_accepts hargs (by simp) h hr.tail.tail (by simpa using hkt) ?_ (by omega),
      hclose]
    · rfl
    · have := length_separated h
      simp only [List.length_map, Reader.rest_seek, List.length_append, List.length_cons] at this ⊢
      omega

/-- A token that may follow a path begins no step. -/
theorem startsStep_of_follows (h : location.follows r.kind = true) :
    r.current.startsStep = false := by
  cases hs : r.current.symbol with
  | mark m =>
    rw [Reader.kind_eq_mark_iff.2 hs] at h
    cases m <;> simp_all [follows, marks, Token.startsStep]
  | axis | name => simp [Reader.kind, Token.kind, hs, Symbol.kind, follows] at h
  | _ => simp [Token.startsStep, hs]

theorem startsStep_of_kind (h : t.kind = .name ∨ t.kind = .mark .star) : t.startsStep = true := by
  rcases h with h | h
  · obtain ⟨_, _, _, hs⟩ := Symbol.kind_eq_name_iff.1 h
    simp [Token.startsStep, hs]
  · simp [Token.startsStep, Symbol.kind_eq_mark_iff.1 h]

theorem startsStep_location (h : relative.starts t = true) :
    location.starts t = true ∧ t.kind ≠ .mark .slash ∧ t.kind ≠ .mark .slashSlash := by
  simp only [starts, Bool.and_eq_true] at h ⊢
  have hk : t.kind = .mark .dot ∨ t.kind = .mark .dotDot ∨ t.kind = .mark .atSign ∨
      t.kind = .axis ∨ t.kind = .name ∨ t.kind = .mark .star := by
    rcases Token.startsStep_cases h.1 with hd | hd | hd | ⟨axis, hd⟩ | hd | hd
    · exact .inl (Symbol.kind_eq_mark_iff.2 hd)
    · exact .inr (.inl (Symbol.kind_eq_mark_iff.2 hd))
    · exact .inr (.inr (.inl (Symbol.kind_eq_mark_iff.2 hd)))
    · exact .inr (.inr (.inr (.inl (by simp [Token.kind, hd, Symbol.kind]))))
    · exact .inr (.inr (.inr (.inr (.inl hd))))
    · exact .inr (.inr (.inr (.inr (.inr hd))))
  rcases hk with hk | hk | hk | hk | hk | hk <;> simp [hk, h.2]

theorem accepts_root (ht : t.symbol = .mark .slash) :
    location.Accepts [t] (.axis .root .any none none) := by
  intro r rest hr hf
  refine ⟨⟨t, [], rfl, by simp [starts, Token.kind, ht, Symbol.kind, Token.startsPrimary]⟩, ?_⟩
  intro room _
  simp only [Runs, List.cons_append, List.nil_append] at hr ⊢
  have hk : (r.seek (t :: rest)).kind = .mark .slash := Symbol.kind_eq_mark_iff.2 ht
  have hadv := Reader.advance_seek (r := r) (t := t) hr.tail
  rw [locationPath_root hk (by rw [hadv]; exact startsStep_of_follows hf), hadv]
  rfl

theorem accepts_rootPath {path : Expr} (ht : t.Leads e path) (h : relative.Accepts w e) :
    location.Accepts (t :: w) (.step (.axis .root .any none none) path) := by
  intro r rest hr hf
  rw [List.cons_append] at hr
  have hf' : relative.follows (r.seek rest).kind = true :=
    follows_mono hf (by decide) fun _ _ => rfl
  obtain ⟨⟨s, v, rfl, hs⟩, -⟩ := h r rest hr.tail hf'
  simp only [starts, Bool.and_eq_true] at hs
  have hadv := Reader.advance_seek (r := r) (t := t) hr.tail
  refine ⟨⟨t, _, rfl, ?_⟩, fun room hroom => ?_⟩
  · cases ht with
    | slash ht => simp [starts, Token.kind, ht, Symbol.kind, Token.startsPrimary]
    | slashSlash ht => simp [starts, Token.kind, ht, Symbol.kind, Token.startsPrimary]
  · simp only [base] at hroom
    rw [weight_cons, (leads_kind ht).2] at hroom
    have hrun := h.relativePath r room hr.tail hf' (by omega)
    simp only [Runs]
    rw [List.cons_append]
    cases ht with
    | slash ht =>
      have hk : (r.seek (t :: (s :: v ++ rest))).kind = .mark .slash := Symbol.kind_eq_mark_iff.2 ht
      rw [locationPath_slash hk (by rw [hadv]; exact hs.1), hadv, hrun]
      rfl
    | slashSlash ht =>
      have hk : (r.seek (t :: (s :: v ++ rest))).kind = .mark .slashSlash :=
        Symbol.kind_eq_mark_iff.2 ht
      rw [locationPath_slashSlash hk, hadv, hrun]
      rfl

theorem accepts_ofRelative (h : relative.Accepts w e) : location.Accepts w e := by
  intro r rest hr hf
  have hf' : relative.follows (r.seek rest).kind = true :=
    follows_mono hf (by decide) fun _ _ => rfl
  obtain ⟨⟨t, v, rfl, hs⟩, -⟩ := h r rest hr hf'
  obtain ⟨hl, hslash, hslashSlash⟩ := startsStep_location hs
  refine ⟨⟨t, v, rfl, hl⟩, ?_⟩
  intro room hroom
  simp only [Runs]
  rw [locationPath_other (by simpa using hslash) (by simpa using hslashSlash)]
  exact h.relativePath r room hr hf' (by simpa [base] using hroom)

theorem accepts_ofStep (h : step.Accepts w e) : relative.Accepts w e := by
  intro r rest hr hf
  have hpath : path.follows (r.seek rest).kind = true := follows_mono hf (by decide) fun _ _ => rfl
  obtain ⟨-, hstep, -, hslash, hslashSlash⟩ := path_follows hpath
  obtain ⟨⟨t, v, rfl, hs⟩, hruns⟩ := h r rest hr hstep
  refine ⟨⟨t, v, rfl, hs⟩, ?_⟩
  intro room hroom
  have hrun := hruns room hroom
  simp only [starts, Bool.and_eq_true] at hs
  simp only [Runs] at hrun ⊢
  rw [relativePath_step (by simpa using hs.1), hrun, continued_other hslash hslashSlash]

theorem accepts_stepPath {path : Expr} (hu : step.Accepts u a) (ht : t.Leads c path)
    (hv : relative.Accepts v c) : relative.Accepts (u ++ t :: v) (.step a path) := by
  intro r rest hr hf
  obtain ⟨hk, hweight⟩ := leads_kind ht
  have hw : u ++ t :: v ++ rest = u ++ t :: (v ++ rest) := by simp
  rw [hw] at hr
  have hstep : step.follows (r.seek (t :: (v ++ rest))).kind = true := by
    rcases hk with hk | hk <;> simp [hk, follows, marks]
  obtain ⟨⟨t', v', rfl, hs⟩, hruns⟩ := hu r (t :: (v ++ rest)) hr hstep
  refine ⟨⟨t', v' ++ t :: v, rfl, hs⟩, ?_⟩
  intro room hroom
  simp only [base, weight_append, weight_cons, hweight] at hroom hruns
  have hrun := hruns room (by omega)
  simp only [starts, Bool.and_eq_true] at hs
  simp only [Runs] at hrun ⊢
  rw [hw, relativePath_step (by simpa using hs.1), hrun,
    continued_leads ht hv hr.right hf (by omega)]

/-- `.` and `..` are read where no predicate follows. -/
theorem accepts_abbreviated {x : Axis} (hs : step.starts t = true)
    (hstep : ∀ {L : Level Id Expr} {r : Reader}, r.current = t →
      Production.step Expr.builder L r = abbreviated Expr.builder x r) :
    step.Accepts [t] (.axis x .any none none) := by
  intro r rest hr hf
  refine ⟨⟨t, [], rfl, hs⟩, ?_⟩
  intro room _
  simp only [Runs, List.cons_append, List.nil_append] at hr ⊢
  have hadv := Reader.advance_seek (r := r) (t := t) hr.tail
  have hb : (r.seek rest).kind ≠ .mark .leftBracket := by
    intro hb
    simp [hb, follows, marks] at hf
  rw [hstep rfl, abbreviated_other (by rwa [hadv]), hadv]
  rfl

/-- A node test with its predicates is read where no predicate follows. -/
theorem tested_accepts (h : (tested axis).Accepts w e) (hr : Token.Ready (w ++ rest))
    (hf : step.follows (r.seek rest).kind = true) :
    (∃ t v, w = t :: v ∧ (tested axis).starts t = true) ∧ ∀ room, weight w ≤ room →
      Production.tested Expr.builder (.ofRoom Expr.builder room) axis (r.seek (w ++ rest)) =
        (some e, r.seek rest) := by
  have hf' : (tested axis).follows (r.seek rest).kind = true :=
    follows_mono hf (by simp [marks]) fun _ _ => rfl
  obtain ⟨hs, hruns⟩ := h r rest hr hf'
  refine ⟨hs, ?_⟩
  intro room hroom
  obtain ⟨left, -, hrun⟩ := hruns room (by simpa [base] using hroom)
  have hb : (r.seek rest).kind ≠ .mark .leftBracket := by
    intro hb
    simp [hb, follows, marks] at hf
  rw [tested_eq]
  exact hrun.trans (predicates_stop hb)

theorem accepts_child (h : (tested .child).Accepts w e) : step.Accepts w e := by
  intro r rest hr hf
  obtain ⟨⟨t, v, rfl, hs⟩, hrun⟩ := tested_accepts h hr hf
  simp only [starts, Bool.and_eq_true, Bool.or_eq_true, decide_eq_true_eq] at hs
  refine ⟨⟨t, v, rfl, ?_⟩, fun room hroom => ?_⟩
  · simp [starts, hs.2, startsStep_of_kind hs.1]
  · simp only [Runs]
    rw [step_child (by simpa using hs.1)]
    exact hrun room (by simpa [base] using hroom)

theorem accepts_attribute (ht : t.symbol = .mark .atSign) (h : (tested .attribute).Accepts w e) :
    step.Accepts (t :: w) e := by
  intro r rest hr hf
  rw [List.cons_append] at hr
  refine ⟨⟨t, w, rfl, by simp [starts, Token.startsStep, Token.startsPrimary, ht]⟩, ?_⟩
  intro room hroom
  simp only [base, weight_cons] at hroom
  simp only [Runs]
  rw [List.cons_append, step_atSign (by simpa using ht), Reader.advance_seek hr.tail]
  exact (tested_accepts h hr.tail hf).2 room (by omega)

theorem accepts_axis (hs : s.symbol = .axis axis) (ht : t.symbol = .mark .colonColon)
    (h : (tested axis).Accepts w e) : step.Accepts (s :: t :: w) e := by
  intro r rest hr hf
  rw [List.cons_append, List.cons_append] at hr
  refine ⟨⟨s, t :: w, rfl, by simp [starts, Token.startsStep, Token.startsPrimary, hs]⟩, ?_⟩
  intro room hroom
  simp only [base, weight_cons] at hroom
  simp only [Runs]
  rw [List.cons_append, List.cons_append, step_axis (by simpa using hs),
    Reader.advance_seek hr.tail, Reader.pass_seek hr.tail.tail (Symbol.kind_eq_mark_iff.2 ht)]
  exact (tested_accepts h hr.tail.tail hf).2 room (by omega)

theorem accepts_ofTest (h : (test axis).Accepts w e) : (tested axis).Accepts w e := by
  intro r rest hr hf
  have hf' : (test axis).follows (r.seek rest).kind = true :=
    follows_mono hf (by simp [marks]) fun _ _ => rfl
  obtain ⟨hs, hruns⟩ := h r rest hr hf'
  refine ⟨hs, ?_⟩
  intro room hroom
  refine ⟨room, by omega, ?_⟩
  have hrun := hruns room hroom
  simp only [Runs] at hrun
  rw [hrun]

theorem accepts_predicate (hu : (tested axis).Accepts u a) (hs : s.symbol = .mark .leftBracket)
    (hv : expr.Accepts v c) (ht : t.symbol = .mark .rightBracket) :
    (tested axis).Accepts (u ++ s :: (v ++ [t])) (.predicate a c axis.isReverse) := by
  intro r rest hr hf
  have hw : u ++ s :: (v ++ [t]) ++ rest = u ++ s :: (v ++ t :: rest) := by simp
  have hks : s.kind = .mark .leftBracket := Symbol.kind_eq_mark_iff.2 hs
  rw [hw] at hr
  obtain ⟨⟨t', v', hu', hst⟩, hruns⟩ :=
    hu r (s :: (v ++ t :: rest)) hr (by simp [hks, follows, marks])
  refine ⟨⟨t', v' ++ s :: (v ++ [t]), by simp [hu'], hst⟩, ?_⟩
  intro room hroom
  simp only [Runs]
  rw [hw]
  exact predicates_more hs hv ht hr hroom (hruns room)

theorem accepts_name {qualifier : Option String} {label : String} {callable : Bool}
    (ht : t.symbol = .name qualifier label callable) :
    (test axis).Accepts [t]
      (.axis axis axis.principal qualifier (if label = "*" then none else some label)) := by
  intro r rest hr hf
  simp only [List.cons_append, List.nil_append] at hr
  have hcall : callable = false := by
    by_contra hcall
    obtain ⟨-, s, hs, hp⟩ :=
      (hr.lookahead t rest List.suffix_rfl _ _ _ ht).1 (by simpa using hcall)
    obtain ⟨rest, rfl⟩ : ∃ v, rest = s :: v := by
      cases rest <;> simp_all
    have hk : s.kind = .mark .leftParen := Symbol.kind_eq_mark_iff.2 hp
    simp [hk, follows, marks] at hf
  refine ⟨⟨t, [], rfl, ?_⟩, fun room _ => ?_⟩
  · simp [starts, Token.startsPrimary, Token.kind, ht, hcall, Symbol.kind]
  · simp only [Runs, List.cons_append, List.nil_append]
    rw [nodeTest_name (by simpa using ht) (.inr hcall), Reader.advance_seek hr.tail]
    rfl

theorem accepts_star (ht : t.symbol = .mark .star) :
    (test axis).Accepts [t] (.axis axis axis.principal none none) := by
  intro r rest hr _
  refine ⟨⟨t, [], rfl, by simp [starts, Token.startsPrimary, Token.kind, ht, Symbol.kind]⟩, ?_⟩
  intro room _
  simp only [Runs, List.cons_append, List.nil_append] at hr ⊢
  rw [nodeTest_star (by simpa using ht), Reader.advance_seek hr.tail]
  rfl

theorem startsStep_abbreviation (ht : t.symbol = .mark .dot ∨ t.symbol = .mark .dotDot) :
    step.starts t = true := by
  rcases ht with ht | ht <;> simp [starts, Token.startsStep, Token.startsPrimary, ht]

/-- A keyword in front of a parenthesis. -/
theorem nodeType_cases (axis : Axis) {n : Token} {type : NodeType} (hn : n.nodeType? = some type)
    (hr : Token.Ready (n :: s :: rest)) (hs : s.symbol = .mark .leftParen) :
    (test axis).starts n = true ∧ ∃ label, n.symbol = .name none label true := by
  obtain ⟨label, callable, hd, hk⟩ :
      ∃ label callable, n.symbol = .name none label callable ∧
        NodeType.ofKeyword? label = some type := by
    rw [Token.nodeType?] at hn
    split at hn
    · rename_i label callable hd
      exact ⟨label, callable, hd, hn⟩
    · cases hn
  have hw : label ≠ "*" := by
    rintro rfl
    cases hk
  obtain rfl := (hr.lookahead n _ List.suffix_rfl _ _ _ hd).2 ⟨hw, s, rfl, hs⟩
  exact ⟨by simp [starts, Token.kind, Token.startsPrimary, hd, hn, Symbol.kind], label, hd⟩

theorem accepts_type {n : Token} {type : NodeType} (hn : n.nodeType? = some type)
    (hs : s.symbol = .mark .leftParen) (ht : t.symbol = .mark .rightParen) :
    (test axis).Accepts [n, s, t] (.axis axis type none none) := by
  intro r rest hr _
  simp only [List.cons_append, List.nil_append] at hr
  obtain ⟨hstart, label, hd⟩ := nodeType_cases axis hn hr hs
  refine ⟨⟨n, _, rfl, hstart⟩, ?_⟩
  intro room _
  have hopen : (r.seek (n :: s :: t :: rest)).advance.pass (.mark .leftParen) =
      r.seek (t :: rest) := by
    rw [Reader.advance_seek hr.tail, Reader.pass_seek hr.tail.tail (Symbol.kind_eq_mark_iff.2 hs)]
  have hkt : t.kind = .mark .rightParen := Symbol.kind_eq_mark_iff.2 ht
  have hclose : (r.seek (t :: rest)).pass (.mark .rightParen) = r.seek rest :=
    Reader.pass_seek hr.tail.tail.tail hkt
  simp only [Runs, List.cons_append, List.nil_append]
  by_cases hp : type = .processingInstruction
  · subst hp
    have hdr : (r.seek (n :: s :: t :: rest)).current.symbol = .name none label true := hd
    rw [nodeTest_instruction hdr hn, hopen]
    dsimp only
    rw [instructionName_close (by simpa using hkt)]
    dsimp only
    rw [hclose]
    rfl
  · have hdr : (r.seek (n :: s :: t :: rest)).current.symbol = .name none label true := hd
    rw [nodeTest_type hdr hn hp, hopen, hclose]
    rfl

theorem accepts_instruction {n l : Token} {literal : String} {closed : Bool}
    (hn : n.nodeType? = some .processingInstruction) (hs : s.symbol = .mark .leftParen)
    (hl : l.symbol = .string literal closed) (ht : t.symbol = .mark .rightParen) :
    (test axis).Accepts [n, s, l, t] (.axis axis .processingInstruction none (some literal)) := by
  intro r rest hr _
  simp only [List.cons_append, List.nil_append] at hr
  obtain ⟨hstart, label, hd⟩ := nodeType_cases axis hn hr hs
  refine ⟨⟨n, _, rfl, hstart⟩, ?_⟩
  intro room _
  have hopen : (r.seek (n :: s :: l :: t :: rest)).advance.pass (.mark .leftParen) =
      r.seek (l :: t :: rest) := by
    rw [Reader.advance_seek hr.tail, Reader.pass_seek hr.tail.tail (Symbol.kind_eq_mark_iff.2 hs)]
  have hkl : l.kind = .string := Symbol.kind_eq_string_iff.2 ⟨_, _, hl⟩
  have hdr : (r.seek (n :: s :: l :: t :: rest)).current.symbol = .name none label true := hd
  simp only [Runs, List.cons_append, List.nil_append]
  rw [nodeTest_instruction hdr hn, hopen]
  dsimp only
  rw [instructionName_literal (by simp [hkl]), Reader.pass_seek hr.tail.tail.tail hkl]
  dsimp only
  rw [Reader.pass_seek hr.tail.tail.tail.tail (Symbol.kind_eq_mark_iff.2 ht)]
  simp [Token.literal?, hl]
  rfl

end Nonterminal

open Nonterminal in
/-- Every phrase is read. -/
theorem Phrase.accepts {X : Nonterminal} {w : List Token} {e : Expr} (h : Phrase X w e) :
    X.Accepts w e := by
  induction h with
  | tighter _ ih => exact accepts_tighter ih
  | binary hop _ ht _ hu hv => exact accepts_binary hop hu ht hv
  | ofUnion _ ih => exact accepts_ofUnion ih
  | negate ht _ ih => exact accepts_negate ht ih
  | ofPath _ ih => exact accepts_ofPath ih
  | union _ ht _ hu hv => exact accepts_union hu ht hv
  | ofLocation _ ih => exact accepts_ofLocation ih
  | ofFilter _ ih => exact accepts_ofFilter ih
  | filterPath _ ht _ hu hv => exact accepts_filterPath hu ht hv
  | ofPrimary _ ih => exact accepts_ofPrimary ih
  | filtered _ hs _ ht hu hv => exact accepts_filtered hu hs hv ht
  | string ht => exact accepts_string ht
  | number ht => exact accepts_number ht
  | reference hs ht => exact accepts_reference hs ht
  | parens hs _ ht ih => exact accepts_parens hs ih ht
  | call hn hw hk hs _ hsep ht ih => exact accepts_call hn hw hk hs ih hsep ht
  | root ht => exact accepts_root ht
  | rootPath ht _ ih => exact accepts_rootPath ht ih
  | ofRelative _ ih => exact accepts_ofRelative ih
  | ofStep _ ih => exact accepts_ofStep ih
  | stepPath _ ht _ hu hv => exact accepts_stepPath hu ht hv
  | dot ht =>
    exact accepts_abbreviated (startsStep_abbreviation (.inl ht)) fun h =>
      Production.step_dot (h ▸ ht)
  | dotDot ht =>
    exact accepts_abbreviated (startsStep_abbreviation (.inr ht)) fun h =>
      Production.step_dotDot (h ▸ ht)
  | child _ ih => exact accepts_child ih
  | «attribute» ht _ ih => exact accepts_attribute ht ih
  | axis hs ht _ ih => exact accepts_axis hs ht ih
  | ofTest _ ih => exact accepts_ofTest ih
  | predicate _ hs _ ht hu hv => exact accepts_predicate hu hs hv ht
  | name ht => exact accepts_name ht
  | star ht => exact accepts_star ht
  | type hn hs ht => exact accepts_type hn hs ht
  | instruction hn hs hl ht => exact accepts_instruction hn hs hl ht

end YangConstraint
