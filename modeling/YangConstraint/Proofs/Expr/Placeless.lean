import YangConstraint.Proofs.Expr.Assembly
import YangConstraint.Proofs.Expr.Congruence

/-!
A production looks at what its tokens are and not at where they stand. Run on a reader whose tokens
have no places it makes the same nodes and records the same issues, without their places.
-/
namespace YangConstraint

theorem Token.issue?_unplaced (token : Token) :
    token.unplaced.issue? = token.issue?.map Diagnostic.unplaced := by
  obtain ⟨symbol, start, text⟩ := token
  cases symbol with
  | string value closed => cases closed <;> rfl
  | _ => rfl

namespace Reader

def unplaced (r : Reader) : Reader :=
  ⟨r.rest.map Token.unplaced, 0, r.issues.map Diagnostic.unplaced⟩

variable {r : Reader} {issue : Diagnostic} {expected : TokenKind} {text : String}

theorem current_unplaced : r.unplaced.current = r.current.unplaced := by
  obtain ⟨rest, finish, issues⟩ := r
  cases rest <;> rfl

theorem kind_unplaced : r.unplaced.kind = r.kind := by
  rw [kind, current_unplaced]
  rfl

theorem record_unplaced : (r.record issue).unplaced = r.unplaced.record issue.unplaced := by
  simp [record, unplaced]

theorem inspect_unplaced : r.inspect.unplaced = r.unplaced.inspect := by
  rw [inspect, inspect, current_unplaced, Token.issue?_unplaced]
  cases r.current.issue? with
  | none => rfl
  | some issue => exact record_unplaced

theorem advance_unplaced : r.advance.unplaced = r.unplaced.advance := by
  rw [advance, inspect_unplaced]
  simp [advance, unplaced]

theorem check_unplaced : (r.check expected).unplaced = r.unplaced.check expected := by
  rw [check, check, kind_unplaced, current_unplaced]
  split
  · rfl
  · exact record_unplaced

theorem pass_unplaced : (r.pass expected).unplaced = r.unplaced.pass expected := by
  rw [pass, advance_unplaced, check_unplaced]
  rfl

theorem start_unplaced :
    (start text).unplaced = inspect ⟨(Token.scan text).map Token.unplaced, 0, #[]⟩ := by
  rw [start, inspect_unplaced]
  simp [unplaced]

theorem close_unplaced :
    (r.close text).issues.map Diagnostic.unplaced = (r.unplaced.close "").issues := by
  rw [close, close, kind_unplaced]
  split
  · rfl
  · dsimp only
    rw [current_unplaced]
    exact congrArg issues record_unplaced

end Reader

variable {m : Type → Type} [Monad m] {α β γ : Type}

/-- Places make no difference to what the reading gives and to where it leaves its reader. -/
def Placeless (x : Reading m β) : Prop := ∀ r, x r.unplaced = (fun z => (z.1, z.2.unplaced)) <$> x r

namespace Placeless

variable [LawfulMonad m] {x : Reading m β} {f : β → Reading m γ}

theorem pure (a : β) : Placeless (Pure.pure a : Reading m β) := by
  intro r
  rw [reading_pure, reading_pure, map_pure]

theorem lift (a : m β) : Placeless (liftM a : Reading m β) := by
  intro r
  rw [reading_lift, reading_lift, map_bind]
  simp only [map_pure]

theorem kind : Placeless (m := m) Production.kind := by
  intro r
  rw [reading_kind, reading_kind, map_pure, Reader.kind_unplaced]

theorem advance : Placeless (m := m) Production.advance := by
  intro r
  rw [reading_advance, reading_advance, map_pure, Reader.advance_unplaced]

theorem pass (expected : TokenKind) : Placeless (m := m) (Production.pass expected) := by
  intro r
  rw [reading_pass, reading_pass, map_pure, Reader.pass_unplaced]

theorem record {issue : Token → Diagnostic} (h : Diagnostic.Proper issue) :
    Placeless (m := m) (Production.record issue) := by
  intro r
  rw [reading_record, reading_record, map_pure, Reader.record_unplaced,
    Reader.current_unplaced, h.unplaced]

theorem bind (h : Placeless x) (hf : ∀ a, Placeless (f a)) : Placeless (x >>= f) := by
  intro r
  rw [reading_bind, reading_bind, h r, bind_map_left, map_bind]
  exact bind_congr fun z => hf z.1 z.2

/-- What follows may look at the current token, but not at its place. -/
theorem current {f : Token → Reading m γ} (hu : ∀ token, f token.unplaced = f token)
    (hf : ∀ token, Placeless (f token)) : Placeless (Production.current >>= f) := by
  intro r
  rw [reading_bind, reading_bind, reading_current, reading_current, pure_bind, pure_bind,
    Reader.current_unplaced, hu]
  exact hf r.current r

theorem get {f : Reader → Reading m γ}
    (hu : ∀ r s : Reader, r.rest.length = s.rest.length → f r = f s) (hf : ∀ r, Placeless (f r)) :
    Placeless (MonadState.get >>= f) := by
  intro r
  have hlength : r.unplaced.rest.length = r.rest.length := List.length_map _
  rw [reading_bind, reading_bind, reading_get, reading_get, pure_bind, pure_bind, hu _ _ hlength]
  exact hf r r

end Placeless

variable [LawfulMonad m] {b : Builder m α}

theorem placeless_congruence : Congruence (m := m) fun x _ => Placeless x where
  pure := .pure
  lift := .lift
  kind := .kind
  advance := .advance
  pass := .pass
  record := .record
  bind := .bind
  current := .current
  get := .get

theorem placeless_ofRoom (b : Builder m α) (room : Nat) :
    (Level.ofRoom b room).Related (fun x _ => Placeless x) (Level.ofRoom b room) := by
  induction room with
  | zero =>
    apply placeless_congruence.above
    intro refused next hn
    exact .bind (.record ⟨fun _ => ⟨rfl, rfl⟩, fun _ => rfl⟩) fun _ => .pure _
  | succ room ih =>
    apply placeless_congruence.above
    intro refused next hn
    exact hn _ _ ih

/-- The outcome of a parse without the places of its issues. -/
def Parsed.unplaced (p : Parsed α) : Parsed α := ⟨p.result, p.issues.map Diagnostic.unplaced⟩

namespace Builder

variable {text wide : String}

/-- Apart from places, the outcome of a parse is that of the productions on
a reader without places. -/
theorem parse_unplaced (b : Builder m α) (text : String) : Parsed.unplaced <$> b.parse text = do
    b.start
    let (node, reader) ← (Level.ofRoom b maxDepth).expr 0 (Reader.start text).unplaced
    let result ← b.finish node
    return ⟨result, (reader.close "").issues⟩ := by
  rw [(placeless_ofRoom b maxDepth).expr 0, parse]
  simp only [StateT.run, map_bind, map_pure, bind_map_left, Parsed.unplaced, Reader.close_unplaced]

/-- Texts with the same tokens, wherever these stand, are parsed alike. -/
theorem parse_congr (b : Builder m α)
    (h : (Token.scan wide).map Token.unplaced = (Token.scan text).map Token.unplaced) :
    Parsed.unplaced <$> b.parse wide = Parsed.unplaced <$> b.parse text := by
  rw [parse_unplaced, parse_unplaced, Reader.start_unplaced, Reader.start_unplaced, h]

end Builder

end YangConstraint
