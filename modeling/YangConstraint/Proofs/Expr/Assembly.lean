import YangConstraint.Proofs.Expr.Run

/-!
What a parse asks of its builder. Whatever the builder is, each node is made behind its operands,
and only a step with a predicate where none may stand is made and not used.
-/
namespace YangConstraint

/-- A node without operands. -/
inductive Leaf where
  | string (value : String)
  | number (text : String)
  | axis (axis : Axis) (type : NodeType) (qualifier name : Option String)
  | reference (qualifier name : Option String)

/-- A node with two operands, of which each may be missing. -/
inductive Joint where
  | operator (op : Operator)
  | step
  | predicate (reverse : Bool)

/-- The nodes that are made for an expression, or for a part of one. -/
inductive Assembly where
  | missing
  /-- An abbreviated step that is made and not used. -/
  | dropped (axis : Axis)
  | leaf (leaf : Leaf)
  | joint (joint : Joint) (left right : Assembly)
  | call (qualifier : Option String) (name : String) (args : List Assembly)

variable {m : Type → Type} [Monad m] {α β γ : Type}

def Leaf.make (b : Builder m α) : Leaf → m α
  | .string value => b.string value
  | .number text => b.number text
  | .axis a type qualifier name => b.axis a type qualifier name
  | .reference qualifier name => b.reference qualifier name

def Joint.make (b : Builder m α) (left right : Option α) : Joint → m α
  | .operator op => b.operator op left right
  | .step => b.step left right
  | .predicate reverse => b.predicate left right reverse

namespace Assembly

mutual

/-- Makes the nodes through a builder, operands first and from the left. -/
def run (b : Builder m α) : Assembly → m (Option α)
  | missing => return none
  | dropped axis => do
    let _ ← b.axis axis .any none none
    return none
  | leaf node => return some (← node.make b)
  | joint node left right => do
    let left ← run b left
    let right ← run b right
    return some (← node.make b left right)
  | call qualifier name args => do
    let args ← runAll b args
    return some (← b.call qualifier name args)

/-- Makes the arguments of a call; a missing one is left out. -/
def runAll (b : Builder m α) : List Assembly → m (List α)
  | [] => return []
  | arg :: args => do
    let arg ← run b arg
    let args ← runAll b args
    return arg.toList ++ args

end

mutual

/-- How many nodes are made and not used. -/
def lost : Assembly → Nat
  | dropped _ => 1
  | joint _ left right => lost left + lost right
  | call _ _ args => lostAll args
  | _ => 0

def lostAll : List Assembly → Nat
  | [] => 0
  | arg :: args => lost arg + lostAll args

end

/-- The node that a builder of functions makes. -/
def made (f : Builder Id α) (t : Assembly) : Option α := t.run f

def madeAll (f : Builder Id α) (ts : List Assembly) : List α := runAll f ts

/-- The tree that the nodes make up. -/
def tree (t : Assembly) : Option Expr := t.made Expr.builder

def treeAll (ts : List Assembly) : List Expr := madeAll Expr.builder ts

end Assembly

def Diagnostic.isPredicateNotAllowed : Diagnostic → Bool
  | predicateNotAllowed _ => true
  | _ => false

namespace Reader

/-- How many steps with a predicate where none may stand have been read. -/
def refusals (r : Reader) : Nat := r.issues.countP Diagnostic.isPredicateNotAllowed

variable {r : Reader} {issue : Diagnostic} {expected : TokenKind}

theorem refusals_record (h : issue.isPredicateNotAllowed = false) :
    (r.record issue).refusals = r.refusals := by
  simp [refusals, record, h]

theorem refusals_refuse (offset : Nat) :
    (r.record (.predicateNotAllowed offset)).refusals = r.refusals + 1 :=
  Array.countP_push_of_pos rfl

theorem refusals_inspect : r.inspect.refusals = r.refusals := by
  rw [inspect]
  split
  · rename_i issue h
    refine refusals_record ?_
    revert h
    rw [Token.issue?]
    split <;> rintro ⟨⟩ <;> rfl
  · rfl

theorem refusals_advance : r.advance.refusals = r.refusals := refusals_inspect

theorem refusals_check : (r.check expected).refusals = r.refusals := by
  rw [check]
  split
  · rfl
  · exact refusals_record rfl

theorem refusals_pass : (r.pass expected).refusals = r.refusals :=
  refusals_advance.trans refusals_check

theorem refusals_start {text : String} : (start text).refusals = 0 := refusals_inspect

end Reader

variable {b : Builder m α}

/-- The outcome of a reading at `r` is the reader of the other outcome with what an assembly gives,
whose tree is that of the other outcome. Of the nodes that are not used, `lost` come from before. -/
def Assembles (b : Builder m α) (lost : Nat) (r : Reader) (out : m (Option α × Reader))
    (other : Option Expr × Reader) : Prop :=
  ∃ t : Assembly, out = (do return (← t.run b, other.2)) ∧ other.1 = t.tree ∧
    t.lost + r.refusals = lost + other.2.refusals

/-- The first reading makes through `b` the tree that the second one gives. -/
def Mirrors (b : Builder m α) (x : Reading m (Option α)) (y : Reading Id (Option Expr)) : Prop :=
  ∀ r, Assembles b 0 r (x r) (y r)

/-- The same, each behind a node that has been made for it. -/
def Carries (b : Builder m α) (f : Option α → Reading m (Option α))
    (g : Option Expr → Reading Id (Option Expr)) : Prop :=
  ∀ (t : Assembly) r, Assembles b t.lost r (do f (← t.run b) r) (g t.tree r)

/-- The readings make no nodes, and agree. -/
def Passes (x : Reading m β) (y : Reading Id β) : Prop :=
  ∀ r, x r = pure (y r) ∧ (y r).2.refusals = r.refusals

theorem reading_bind (x : Reading m β) (next : β → Reading m γ) (r : Reader) :
    (x >>= next) r = x r >>= fun z => next z.1 z.2 := rfl

theorem reading_lift (x : m β) (r : Reader) :
    (liftM x : Reading m β) r = x >>= fun a => pure (a, r) := rfl

theorem reading_pure (a : β) (r : Reader) : (pure a : Reading m β) r = pure (a, r) := rfl

theorem reading_advance (r : Reader) :
    (Production.advance : Reading m Unit) r = pure ((), r.advance) := rfl

theorem reading_get (r : Reader) : (get : Reading m Reader) r = pure (r, r) := rfl

theorem reading_pass (expected : TokenKind) (r : Reader) :
    (Production.pass expected : Reading m Unit) r = pure ((), r.pass expected) := rfl

theorem reading_record (issue : Token → Diagnostic) (r : Reader) :
    (Production.record issue : Reading m Unit) r = pure ((), r.record (issue r.current)) := rfl

theorem reading_kind [LawfulMonad m] (r : Reader) :
    (Production.kind : Reading m TokenKind) r = pure (r.kind, r) := pure_bind ..

theorem reading_current [LawfulMonad m] (r : Reader) :
    (Production.current : Reading m Token) r = pure (r.current, r) := pure_bind ..

namespace Passes

theorem pure (a : β) : Passes (Pure.pure a : Reading m β) (Pure.pure a) := fun _ => ⟨rfl, rfl⟩

theorem advance : Passes (m := m) Production.advance Production.advance :=
  fun _ => ⟨rfl, Reader.refusals_advance⟩

theorem pass (expected : TokenKind) :
    Passes (m := m) (Production.pass expected) (Production.pass expected) :=
  fun _ => ⟨rfl, Reader.refusals_pass⟩

theorem record {issue : Token → Diagnostic}
    (h : ∀ token, (issue token).isPredicateNotAllowed = false) :
    Passes (m := m) (Production.record issue) (Production.record issue) :=
  fun _ => ⟨rfl, Reader.refusals_record (h _)⟩

variable [LawfulMonad m]

theorem current : Passes (m := m) Production.current Production.current :=
  fun _ => ⟨reading_current _, rfl⟩

theorem kind : Passes (m := m) Production.kind Production.kind := fun _ => ⟨reading_kind _, rfl⟩

theorem bind {x : Reading m β} {y : Reading Id β} {f : β → Reading m γ} {g : β → Reading Id γ}
    (h : Passes x y) (hf : ∀ c, Passes (f c) (g c)) : Passes (x >>= f) (y >>= g) := by
  intro r
  rw [reading_bind, run_bind, (h r).1, pure_bind]
  exact ⟨(hf _ _).1, (hf _ _).2.trans (h r).2⟩

end Passes

variable [LawfulMonad m] {x : Reading m β} {y : Reading Id β}

namespace Mirrors

variable {p : Reading m (Option α)} {q : Reading Id (Option Expr)}
  {f : Option α → Reading m (Option α)} {g : Option Expr → Reading Id (Option Expr)}

theorem none : Mirrors b (Pure.pure Option.none) (Pure.pure Option.none) :=
  fun _ => ⟨.missing, by simp only [reading_pure, Assembly.run, pure_bind]; rfl, rfl, rfl⟩

theorem after {p : β → Reading m (Option α)} {q : β → Reading Id (Option Expr)} (h : Passes x y)
    (hp : ∀ c, Mirrors b (p c) (q c)) : Mirrors b (x >>= p) (y >>= q) := by
  intro r
  rw [reading_bind, run_bind, (h r).1, pure_bind]
  obtain ⟨t, ht, he, hl⟩ := hp (y r).1 (y r).2
  exact ⟨t, ht, he, (h r).2 ▸ hl⟩

theorem bind (h : Mirrors b p q) (hf : Carries b f g) : Mirrors b (p >>= f) (q >>= g) := by
  intro r
  obtain ⟨t, ht, he, hl⟩ := h r
  obtain ⟨s, hs, hse, hsl⟩ := hf t (q r).2
  rw [reading_bind, run_bind, he, ht]
  refine ⟨s, ?_, hse, by omega⟩
  rw [← hs]
  simp only [bind_assoc, pure_bind]

/-- A node without operands, and what goes on from it. -/
theorem leaf (node : Leaf) (hf : Carries b f g) :
    Mirrors b (do f (some (← (liftM (node.make b) : Reading m α))))
      (do g (some (← (liftM (node.make Expr.builder) : Reading Id Expr)))) := by
  intro r
  obtain ⟨t, ht, he, hl⟩ := hf (.leaf node) r
  refine ⟨t, .trans ?_ ht, he, hl⟩
  simp only [reading_bind, reading_lift, Assembly.run, bind_assoc, pure_bind]

end Mirrors

namespace Carries

variable {p : Reading m (Option α)} {q : Reading Id (Option Expr)}
  {f : Option α → Reading m (Option α)} {g : Option Expr → Reading Id (Option Expr)}

omit [LawfulMonad m] in
theorem pure : Carries b Pure.pure Pure.pure := fun t _ => ⟨t, rfl, rfl, rfl⟩

theorem after {f : Option α → β → Reading m (Option α)}
    {g : Option Expr → β → Reading Id (Option Expr)} (h : Passes x y)
    (hf : ∀ c, Carries b (f · c) (g · c)) :
    Carries b (fun left => x >>= f left) (fun left => y >>= g left) := by
  intro t r
  obtain ⟨s, hs, he, hl⟩ := hf (y r).1 t (y r).2
  refine ⟨s, .trans ?_ hs, he, (h r).2 ▸ hl⟩
  simp only [reading_bind, (h r).1, pure_bind]

theorem bind {f' : Option α → Reading m (Option α)} {g' : Option Expr → Reading Id (Option Expr)}
    (h : Carries b f g) (hf : Carries b f' g') :
    Carries b (fun left => f left >>= f') (fun left => g left >>= g') := by
  intro t r
  obtain ⟨s, hs, he, hl⟩ := h t r
  obtain ⟨u, hu, hue, hul⟩ := hf s (g t.tree r).2
  beta_reduce
  rw [run_bind, he]
  refine ⟨u, .trans ?_ hu, hue, by omega⟩
  have := congrArg (· >>= fun z => f' z.1 z.2) hs
  simpa only [reading_bind, bind_assoc, pure_bind] using this

/-- A node with two operands, of which the right one is read behind the left one. -/
theorem joint (node : Joint) (hp : Mirrors b p q) (hf : Carries b f g) :
    Carries b
      (fun left => do
        let right ← p
        f (some (← (liftM (node.make b left right) : Reading m α))))
      (fun left => do
        let right ← q
        g (some (← (liftM (node.make Expr.builder left right) : Reading Id Expr)))) := by
  intro t r
  obtain ⟨s, hs, he, hl⟩ := hp r
  obtain ⟨u, hu, hue, hul⟩ := hf (.joint node t s) (q r).2
  have hother : (do
      let right ← q
      g (some (← (liftM (node.make Expr.builder t.tree right) : Reading Id Expr)))) r =
        g (Assembly.joint node t s).tree (q r).2 := by
    rw [run_bind, he]
    rfl
  beta_reduce
  rw [hother]
  refine ⟨u, .trans ?_ hu, hue, by rw [Assembly.lost] at hul; omega⟩
  simp only [reading_bind, reading_lift, hs, Assembly.run, bind_assoc, pure_bind]

end Carries

namespace Level

/-- Each production of the first level makes the tree of that of the second. -/
structure Mirrors (b : Builder m α) (L : Level m α) (M : Level Id Expr) : Prop where
  expr (floor : Nat) : YangConstraint.Mirrors b (L.expr floor) (M.expr floor)
  operators (floor : Nat) : Carries b (L.operators floor) (M.operators floor)
  unions : Carries b L.unions M.unions
  predicates (reverse : Bool) : Carries b (L.predicates reverse) (M.predicates reverse)
  relativePath : YangConstraint.Mirrors b L.relativePath M.relativePath

end Level

namespace Production

variable {L : Level m α} {M : Level Id Expr} {axis : Axis}

theorem mirrors_abbreviated : Mirrors b (abbreviated b axis) (abbreviated Expr.builder axis) := by
  intro r
  by_cases h : r.advance.kind = .mark .leftBracket
  · -- the only node that is made and not used, and the issue that is recorded for it
    rw [abbreviated_bracket h]
    refine ⟨.dropped axis, ?_, rfl, ?_⟩
    · simp only [abbreviated, reading_bind, reading_advance, reading_lift, reading_kind,
        reading_record, reading_pure, Assembly.run, bind_assoc, pure_bind, h, if_true]
    · simp [Assembly.lost, Reader.refusals_refuse, Reader.refusals_advance, Nat.add_comm]
  · rw [abbreviated_other h]
    refine ⟨.leaf (.axis axis .any none none), ?_, rfl, ?_⟩
    · simp only [abbreviated, reading_bind, reading_advance, reading_lift, reading_kind,
        reading_pure, Assembly.run, Leaf.make, bind_assoc, pure_bind, h, if_false]
    · simp [Assembly.lost, Reader.refusals_advance]

theorem passes_instructionName : Passes (m := m) instructionName instructionName := by
  refine .bind .kind fun _ => ?_
  split
  · exact .pure _
  · exact .bind .current fun _ => .bind (.pass _) fun _ => .pure _

theorem mirrors_nodeTest : Mirrors b (nodeTest b axis) (nodeTest Expr.builder axis) := by
  refine .after .current fun token => ?_
  split
  · split
    · refine .after .advance fun _ => .after (.pass _) fun _ => ?_
      split
      · exact .after passes_instructionName fun _ =>
          .after (.pass _) fun _ => .leaf (.axis ..) .pure
      · exact .after (.pure _) fun _ => .after (.pass _) fun _ => .leaf (.axis ..) .pure
    · exact .after .advance fun _ => .leaf (.axis ..) .pure
  · exact .after .advance fun _ => .leaf (.axis ..) .pure
  · exact .after (.record fun _ => rfl) fun _ => .leaf (.axis ..) .pure

theorem mirrors_tested (h : L.Mirrors b M) :
    Mirrors b (tested b L axis) (tested Expr.builder M axis) :=
  .bind mirrors_nodeTest (h.predicates _)

theorem mirrors_step (h : L.Mirrors b M) : Mirrors b (step b L) (step Expr.builder M) := by
  refine .after .current fun token => ?_
  split
  · exact mirrors_abbreviated
  · exact mirrors_abbreviated
  · exact .after .advance fun _ => mirrors_tested h
  · exact .after .advance fun _ => .after (.pass _) fun _ => mirrors_tested h
  · exact mirrors_tested h

theorem mirrors_descendants (h : L.Mirrors b M) :
    Mirrors b (do return some (← descendants b L))
      (do return some (← descendants Expr.builder M)) := by
  have :=
    Mirrors.leaf (.axis .descendantOrSelf .any none none) (Carries.joint .step h.relativePath .pure)
  simp only [descendants, bind_assoc]
  exact this

theorem carries_continued (h : L.Mirrors b M) :
    Carries b (continued b L) (continued Expr.builder M) := by
  refine .after .kind fun k => ?_
  split
  · exact .after .advance fun _ => .joint .step h.relativePath .pure
  · refine .after .advance fun _ => ?_
    have := Carries.joint .step (mirrors_descendants h) .pure
    simp only [bind_assoc, pure_bind] at this
    exact this
  · exact .pure

theorem mirrors_relativePath (h : L.Mirrors b M) :
    Mirrors b (Production.relativePath b L) (Production.relativePath Expr.builder M) := by
  refine .after .current fun _ => ?_
  split
  · exact .bind (mirrors_step h) (carries_continued h)
  · exact .after (.record fun _ => rfl) fun _ => .none

theorem mirrors_locationPath (h : L.Mirrors b M) :
    Mirrors b (locationPath b L) (locationPath Expr.builder M) := by
  refine .after .kind fun _ => ?_
  split
  · have hrest : Carries b
        (fun root => do
          if (← current).startsStep then
            return some (← b.step root (← L.relativePath))
          return root)
        (fun root => do
          if (← current).startsStep then
            return some (← Expr.builder.step root (← M.relativePath))
          return root) := by
      refine .after .current fun token => ?_
      split
      · exact .joint .step h.relativePath .pure
      · exact .pure
    exact .after .advance fun _ => (Mirrors.leaf (.axis .root .any none none) hrest :)
  · refine .after .advance fun _ => ?_
    have :=
      Mirrors.leaf (.axis .root .any none none) (Carries.joint .step (mirrors_descendants h) .pure)
    simp only [bind_assoc, pure_bind] at this
    exact this
  · exact h.relativePath

theorem mirrors_arguments (h : L.Mirrors b M) (limit : Nat) (r : Reader) :
    ∃ ts : List Assembly,
      arguments L limit r = (do return (← Assembly.runAll b ts, (arguments M limit r).2)) ∧
      (arguments M limit r).1 = Assembly.treeAll ts ∧
      Assembly.lostAll ts + r.refusals = (arguments M limit r).2.refusals := by
  induction limit generalizing r with
  | zero =>
    refine ⟨[], ?_, rfl, Nat.zero_add _⟩
    simp only [Assembly.runAll, pure_bind]
    rfl
  | succ limit ih =>
    obtain ⟨t, ht, he, hl⟩ := h.expr 0 r
    by_cases hk : (M.expr 0 r).2.kind = .mark .comma
    · obtain ⟨ts, hts, hes, hls⟩ := ih (M.expr 0 r).2.advance
      rw [arguments_comma hk, he, hes]
      refine ⟨t :: ts, ?_, rfl, ?_⟩
      · simp only [arguments, reading_bind, ht, bind_assoc, pure_bind, reading_kind, hk, if_true,
          reading_advance, hts, reading_pure, Assembly.runAll]
      · rw [Reader.refusals_advance] at hls
        simp only [Assembly.lostAll]
        omega
    · rw [arguments_last hk, he]
      refine ⟨[t], ?_, (List.append_nil _).symm, ?_⟩
      · simp only [arguments, reading_bind, ht, bind_assoc, pure_bind, reading_kind, hk, if_false,
          reading_pure, Assembly.runAll, List.append_nil]
      · simp only [Assembly.lostAll]
        omega

theorem mirrors_call (h : L.Mirrors b M) {qualifier : Option String} {name : String} :
    Mirrors b (call b L qualifier name) (call Expr.builder M qualifier name) := by
  intro r
  by_cases hk : (r.advance.pass (.mark .leftParen)).kind = .mark .rightParen
  · rw [call_close hk]
    refine ⟨.call qualifier name [], ?_, rfl, ?_⟩
    · simp only [call, reading_bind, reading_advance, reading_pass, reading_kind, reading_pure,
        reading_lift, Assembly.run, Assembly.runAll, bind_assoc, pure_bind, hk, if_true]
    · simp only [Assembly.lost, Assembly.lostAll, Reader.refusals_pass, Reader.refusals_advance]
  · obtain ⟨ts, hts, hes, hls⟩ := mirrors_arguments h
      ((r.advance.pass (.mark .leftParen)).rest.length + 1) (r.advance.pass (.mark .leftParen))
    have htree := congrArg (fun args => some (Expr.call qualifier name args)) hes
    rw [call_arguments hk]
    refine ⟨.call qualifier name ts, ?_, htree, ?_⟩
    · simp only [call, reading_bind, reading_advance, reading_pass, reading_kind, reading_get,
        reading_lift, hts, reading_pure, Assembly.run, bind_assoc, pure_bind, hk, if_false]
    · simp only [Reader.refusals_pass, Reader.refusals_advance] at hls
      simpa only [Assembly.lost, Reader.refusals_pass, Nat.zero_add] using hls

theorem mirrors_primary (h : L.Mirrors b M) : Mirrors b (primary b L) (primary Expr.builder M) := by
  refine .after .current fun token => ?_
  split
  · exact .after .advance fun _ => .leaf (.string _) .pure
  · exact .after .advance fun _ => .leaf (.number _) .pure
  · refine .after .advance fun _ => .after .current fun _ => .after (.pass _) fun _ => ?_
    split <;> exact .leaf (.reference ..) .pure
  · exact .after .advance fun _ => .bind (h.expr 0) (.after (.pass _) fun _ => .pure)
  · exact mirrors_call h
  · exact .none

theorem mirrors_path (h : L.Mirrors b M) : Mirrors b (path b L) (path Expr.builder M) := by
  refine .after .current fun _ => ?_
  split
  · exact .bind (mirrors_primary h) (.bind (h.predicates _) (carries_continued h))
  · exact mirrors_locationPath h

theorem mirrors_operand (h : L.Mirrors b M) : Mirrors b (operand b L) (operand Expr.builder M) := by
  refine .after .kind fun _ => ?_
  split
  · refine .after .advance fun _ => ?_
    have := Carries.joint (.operator .negate) (.none (b := b)) .pure
    simp only [pure_bind] at this
    exact .bind (h.expr _) this
  · exact .bind (mirrors_path h) h.unions

theorem mirrors_condition (h : L.Mirrors b M) : Mirrors b (condition L) (condition M) :=
  .after (.pass _) fun _ => .bind (h.expr 0) (.after (.pass _) fun _ => .pure)

end Production

namespace Level

open Production

variable {L : Option (Level m α)} {M : Option (Level Id Expr)}

theorem mirrors_deepen (h : Option.Rel (Mirrors b) L M) {f : Level m α → Reading m (Option α)}
    {g : Level Id Expr → Reading Id (Option Expr)}
    (hf : ∀ L M, L.Mirrors b M → YangConstraint.Mirrors b (f L) (g M)) :
    YangConstraint.Mirrors b (deepen L none f) (deepen M none g) := by
  cases h with
  | some h => exact hf _ _ h
  | none => exact .after (.record fun _ => rfl) fun _ => .none

theorem carries_deepen (h : Option.Rel (Mirrors b) L M)
    {f : Option α → Level m α → Reading m (Option α)}
    {g : Option Expr → Level Id Expr → Reading Id (Option Expr)}
    (hf : ∀ L M, L.Mirrors b M → Carries b (f · L) (g · M)) :
    Carries b (fun left => deepen L left (f left)) (fun left => deepen M left (g left)) := by
  cases h with
  | some h => exact hf _ _ h
  | none => exact .after (.record fun _ => rfl) fun _ => .pure

theorem mirrors_above (h : Option.Rel (Mirrors b) L M) :
    (above b L).Mirrors b (above Expr.builder M) where
  expr floor := mirrors_deepen h fun _ _ h => .bind (mirrors_operand h) (h.operators _)
  operators floor := by
    refine .after .kind fun _ => ?_
    split
    · split
      · exact .pure
      · exact carries_deepen h fun _ _ h => .after .advance fun _ =>
          .joint (.operator _) (h.expr _) (h.operators _)
    · exact .pure
  unions := by
    refine .after .kind fun _ => ?_
    split
    · exact carries_deepen h fun _ _ h => .after .advance fun _ =>
        .joint (.operator _) (mirrors_path h) h.unions
    · exact .pure
  predicates reverse := by
    refine .after .kind fun _ => ?_
    split
    · exact carries_deepen h fun _ _ h =>
        .joint (.predicate _) (mirrors_condition h) (h.predicates _)
    · exact .pure
  relativePath := mirrors_deepen h fun _ _ h => mirrors_relativePath h

theorem mirrors_ofRoom (room : Nat) : (ofRoom b room).Mirrors b (ofRoom Expr.builder room) := by
  induction room with
  | zero => exact mirrors_above .none
  | succ room ih => exact mirrors_above (.some ih)

end Level

theorem Reader.refusals_close {text : String} {r : Reader} :
    (r.close text).refusals = r.refusals := by
  rw [close]
  split
  · rfl
  · exact refusals_record rfl

/-- Each builder is asked for the nodes of one assembly, which is that of the tree, and nothing else
that it does changes the issues. -/
theorem Builder.parse_assembly (b : Builder m α) (text : String) :
    ∃ t : Assembly,
      (b.parse text = do
        b.start
        let node ← t.run b
        let result ← b.finish node
        return ⟨result, (Expr.parse text).issues⟩) ∧
      (Expr.parse text).result = t.tree ∧
      (Expr.parse text).issues.countP Diagnostic.isPredicateNotAllowed = t.lost := by
  obtain ⟨t, ht, he, hl⟩ := (Level.mirrors_ofRoom (b := b) maxDepth).expr 0 (Reader.start text)
  refine ⟨t, ?_, he, ?_⟩
  · simp only [parse, StateT.run, ht, bind_assoc, pure_bind]
    rfl
  · rw [Reader.refusals_start, Nat.zero_add] at hl
    exact Reader.refusals_close.trans hl.symm

end YangConstraint
