import YangConstraint.Proofs.Expr.Run

/-!
What the productions have in common. They are put together out of a few readings, so whatever
relation of readings those keep, every production keeps it.
-/
namespace YangConstraint

/-- The token wherever it stands. -/
def Token.unplaced (token : Token) : Token := { token with start := 0 }

namespace Diagnostic

def isTrailingInput : Diagnostic → Bool
  | trailingInput .. => true
  | _ => false

/-- The issue is found at the token and is not about all that stands behind it. -/
def Marks (issue : Diagnostic) (token : Token) : Prop :=
  issue.offset = token.start ∧ issue.isTrailingInput = false

/-- The issue wherever it stands, without what is left behind it. -/
def unplaced : Diagnostic → Diagnostic
  | unexpectedToken _ expected found text => unexpectedToken 0 expected found text
  | unterminatedString _ => unterminatedString 0
  | unknownCharacter _ text => unknownCharacter 0 text
  | expectedNodeTest _ text => expectedNodeTest 0 text
  | predicateNotAllowed _ => predicateNotAllowed 0
  | invalidStep _ text => invalidStep 0 text
  | tooDeep _ limit => tooDeep 0 limit
  | trailingInput _ _ => trailingInput 0 ""

/-- What may be recorded of a token: an issue of that token alone, the same wherever it stands. -/
structure Proper (issue : Token → Diagnostic) : Prop where
  marks (token : Token) : (issue token).Marks token
  unplaced (token : Token) : issue token.unplaced = (issue token).unplaced

end Diagnostic

variable {m : Type → Type} [Monad m] {α : Type}

/-- A relation of readings that is kept by all that productions are made of. These may look at the
current token but not at its place, and of the others only at their number. -/
structure Congruence (P : ∀ {β : Type}, Reading m β → Reading m β → Prop) : Prop where
  pure {β : Type} (a : β) : P (Pure.pure a) (Pure.pure a)
  lift {β : Type} (a : m β) : P (liftM a) (liftM a)
  kind : P Production.kind Production.kind
  advance : P Production.advance Production.advance
  pass (expected : TokenKind) : P (Production.pass expected) (Production.pass expected)
  record {issue : Token → Diagnostic} (h : Diagnostic.Proper issue) :
    P (Production.record issue) (Production.record issue)
  bind {β γ : Type} {x y : Reading m β} {f g : β → Reading m γ} (h : P x y)
    (hf : ∀ a, P (f a) (g a)) :
    P (x >>= f) (y >>= g)
  current {β : Type} {f g : Token → Reading m β} (hu : ∀ token, f token.unplaced = f token)
    (hf : ∀ token, P (f token) (g token)) : P (Production.current >>= f) (Production.current >>= g)
  get {β : Type} {f g : Reader → Reading m β}
    (hu : ∀ r s : Reader, r.rest.length = s.rest.length → f r = f s) (hf : ∀ r, P (f r) (g r)) :
    P (get >>= f) (get >>= g)

/-- The productions of two levels are related. -/
structure Level.Related (P : ∀ {β : Type}, Reading m β → Reading m β → Prop) (L M : Level m α) :
    Prop where
  expr (floor : Nat) : P (L.expr floor) (M.expr floor)
  operators (floor : Nat) (left : Option α) : P (L.operators floor left) (M.operators floor left)
  unions (left : Option α) : P (L.unions left) (M.unions left)
  predicates (reverse : Bool) (base : Option α) :
    P (L.predicates reverse base) (M.predicates reverse base)
  relativePath : P L.relativePath M.relativePath

namespace Congruence

open Production

variable {P : ∀ {β : Type}, Reading m β → Reading m β → Prop} {b : Builder m α} {L M : Level m α}
  {axis : Axis} {left : Option α}

theorem abbreviated (c : Congruence P) : P (abbreviated b axis) (abbreviated b axis) := by
  refine c.bind c.advance fun _ => c.bind (c.lift _) fun _ => c.bind c.kind fun _ => ?_
  split
  · exact c.bind (c.record ⟨fun _ => ⟨rfl, rfl⟩, fun _ => rfl⟩) fun _ => c.pure _
  · exact c.pure _

theorem instructionName (c : Congruence P) : P instructionName instructionName := by
  refine c.bind c.kind fun _ => ?_
  split
  · exact c.pure _
  · exact c.current (fun _ => rfl) fun _ => c.bind (c.pass _) fun _ => c.pure _

theorem nodeTest (c : Congruence P) : P (nodeTest b axis) (nodeTest b axis) := by
  refine c.current (fun _ => rfl) fun token => ?_
  split
  · split
    · refine c.bind c.advance fun _ => c.bind (c.pass _) fun _ => ?_
      split
      · exact c.bind c.instructionName fun _ =>
          c.bind (c.pass _) fun _ => c.bind (c.lift _) fun _ => c.pure _
      · exact c.bind (c.pure _) fun _ =>
          c.bind (c.pass _) fun _ => c.bind (c.lift _) fun _ => c.pure _
    · exact c.bind c.advance fun _ => c.bind (c.lift _) fun _ => c.pure _
  · exact c.bind c.advance fun _ => c.bind (c.lift _) fun _ => c.pure _
  · exact c.bind (c.record ⟨fun _ => ⟨rfl, rfl⟩, fun _ => rfl⟩) fun _ =>
      c.bind (c.lift _) fun _ => c.pure _

theorem tested (c : Congruence P) (h : L.Related P M) : P (tested b L axis) (tested b M axis) :=
  c.bind c.nodeTest fun _ => h.predicates _ _

theorem step (c : Congruence P) (h : L.Related P M) : P (step b L) (step b M) := by
  refine c.current (fun _ => rfl) fun token => ?_
  split
  · exact c.abbreviated
  · exact c.abbreviated
  · exact c.bind c.advance fun _ => c.tested h
  · exact c.bind c.advance fun _ => c.bind (c.pass _) fun _ => c.tested h
  · exact c.tested h

theorem descendants (c : Congruence P) (h : L.Related P M) :
    P (descendants b L) (descendants b M) :=
  c.bind (c.lift _) fun _ => c.bind h.relativePath fun _ => c.lift _

theorem continued (c : Congruence P) (h : L.Related P M) :
    P (continued b L left) (continued b M left) := by
  refine c.bind c.kind fun _ => ?_
  split
  · exact c.bind c.advance fun _ => c.bind h.relativePath fun _ =>
      c.bind (c.lift _) fun _ => c.pure _
  · exact c.bind c.advance fun _ => c.bind (c.descendants h) fun _ =>
      c.bind (c.lift _) fun _ => c.pure _
  · exact c.pure _

theorem relativePath (c : Congruence P) (h : L.Related P M) :
    P (Production.relativePath b L) (Production.relativePath b M) := by
  refine c.current (fun _ => rfl) fun token => ?_
  split
  · exact c.bind (c.step h) fun _ => c.continued h
  · exact c.bind (c.record ⟨fun _ => ⟨rfl, rfl⟩, fun _ => rfl⟩) fun _ => c.pure _

theorem locationPath (c : Congruence P) (h : L.Related P M) :
    P (locationPath b L) (locationPath b M) := by
  refine c.bind c.kind fun _ => ?_
  split
  · refine c.bind c.advance fun _ =>
      c.bind (c.lift _) fun _ => c.current (fun _ => rfl) fun token => ?_
    split
    · exact c.bind h.relativePath fun _ => c.bind (c.lift _) fun _ => c.pure _
    · exact c.pure _
  · exact c.bind c.advance fun _ => c.bind (c.lift _) fun _ => c.bind (c.descendants h) fun _ =>
      c.bind (c.lift _) fun _ => c.pure _
  · exact h.relativePath

theorem arguments (c : Congruence P) (h : L.Related P M) (limit : Nat) :
    P (arguments L limit) (arguments M limit) := by
  induction limit with
  | zero => exact c.pure _
  | succ limit ih =>
    refine c.bind (h.expr 0) fun _ => c.bind c.kind fun _ => ?_
    split
    · exact c.bind c.advance fun _ => c.bind ih fun _ => c.pure _
    · exact c.pure _

theorem call (c : Congruence P) (h : L.Related P M) {qualifier : Option String} {name : String} :
    P (call b L qualifier name) (call b M qualifier name) := by
  refine c.bind c.advance fun _ => c.bind (c.pass _) fun _ => c.bind c.kind fun _ => ?_
  split
  · exact c.bind (c.pure _) fun _ => c.bind (c.pass _) fun _ => c.bind (c.lift _) fun _ => c.pure _
  · exact c.get (fun r s hlength => by rw [hlength]) fun _ => c.bind (c.arguments h _) fun _ =>
      c.bind (c.pass _) fun _ => c.bind (c.lift _) fun _ => c.pure _

theorem primary (c : Congruence P) (h : L.Related P M) : P (primary b L) (primary b M) := by
  refine c.current (fun _ => rfl) fun token => ?_
  split
  · exact c.bind c.advance fun _ => c.bind (c.lift _) fun _ => c.pure _
  · exact c.bind c.advance fun _ => c.bind (c.lift _) fun _ => c.pure _
  · refine c.bind c.advance fun _ => c.current (fun _ => rfl) fun token =>
      c.bind (c.pass _) fun _ => ?_
    split <;> exact c.bind (c.lift _) fun _ => c.pure _
  · exact c.bind c.advance fun _ => c.bind (h.expr 0) fun _ => c.bind (c.pass _) fun _ => c.pure _
  · exact c.call h
  · exact c.pure _

theorem path (c : Congruence P) (h : L.Related P M) : P (path b L) (path b M) := by
  refine c.current (fun _ => rfl) fun token => ?_
  split
  · exact c.bind (c.primary h) fun _ => c.bind (h.predicates _ _) fun _ => c.continued h
  · exact c.locationPath h

theorem operand (c : Congruence P) (h : L.Related P M) : P (operand b L) (operand b M) := by
  refine c.bind c.kind fun _ => ?_
  split
  · exact c.bind c.advance fun _ => c.bind (h.expr _) fun _ => c.bind (c.lift _) fun _ => c.pure _
  · exact c.bind (c.path h) fun _ => h.unions _

theorem condition (c : Congruence P) (h : L.Related P M) : P (condition L) (condition M) :=
  c.bind (c.pass _) fun _ => c.bind (h.expr 0) fun _ => c.bind (c.pass _) fun _ => c.pure _

variable {inner outer : Option (Level m α)}

/-- Levels are related where going below them is. -/
theorem above (c : Congruence P)
    (hd : ∀ {refused : Option α} {next : Level m α → Reading m (Option α)},
      (∀ L M, L.Related P M → P (next L) (next M)) →
      P (deepen inner refused next) (deepen outer refused next)) :
    (Level.above b inner).Related P (Level.above b outer) where
  expr _ := hd fun _ _ h => c.bind (c.operand h) fun _ => h.operators _ _
  operators _ _ := by
    refine c.bind c.kind fun _ => ?_
    split
    · split
      · exact c.pure _
      · exact hd fun _ _ h => c.bind c.advance fun _ => c.bind (h.expr _) fun _ =>
          c.bind (c.lift _) fun _ => h.operators _ _
    · exact c.pure _
  unions _ := by
    refine c.bind c.kind fun _ => ?_
    split
    · exact hd fun _ _ h => c.bind c.advance fun _ => c.bind (c.path h) fun _ =>
        c.bind (c.lift _) fun _ => h.unions _
    · exact c.pure _
  predicates _ _ := by
    refine c.bind c.kind fun _ => ?_
    split
    · exact hd fun _ _ h => c.bind (c.condition h) fun _ =>
        c.bind (c.lift _) fun _ => h.predicates _ _
    · exact c.pure _
  relativePath := hd fun _ _ h => c.relativePath h

end Congruence

end YangConstraint
