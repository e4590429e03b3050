import Mathlib.Logic.Relation
import YangConstraint.Proofs.Expr.Congruence

/-!
A production moves its reader on and records issues of the current token, and does nothing else to
it. A production with more levels of nesting below it goes the same way as long as none of the
levels is missed.
-/
namespace YangConstraint

theorem Token.marks_issue? {token : Token} {issue : Diagnostic} (h : token.issue? = some issue) :
    issue.Marks token := by
  rw [issue?] at h
  split at h <;> cases h <;> exact ⟨rfl, rfl⟩

namespace Reader

/-- What a production may do to its reader at a time. -/
inductive Moves : Reader → Reader → Prop where
  | advance (r : Reader) : Moves r r.advance
  | record (r : Reader) (issue : Diagnostic) (h : issue.Marks r.current) : Moves r (r.record issue)

abbrev Reaches : Reader → Reader → Prop := Relation.ReflTransGen Moves

/-- Whether a level of nesting has been refused. -/
def TooDeep (r : Reader) : Prop := ∃ offset limit, Diagnostic.tooDeep offset limit ∈ r.issues

/-- What is wrong with the current token by itself has been recorded. -/
def Inspected (r : Reader) : Prop := ∀ issue, r.current.issue? = some issue → issue ∈ r.issues

variable {r s : Reader} {issue : Diagnostic} {expected : TokenKind} {token : Token}

theorem mem_issues_inspect (h : issue ∈ r.issues) : issue ∈ r.inspect.issues := by
  rw [inspect]
  split
  · simp [record, h]
  · exact h

theorem inspected_inspect : r.inspect.Inspected := by
  intro issue h
  have hc : r.inspect.current = r.current := by simp [current]
  rw [hc] at h
  simp [inspect, h, record]

theorem moves_issues (h : Moves r s) (hi : issue ∈ r.issues) : issue ∈ s.issues := by
  cases h with
  | advance => exact mem_issues_inspect hi
  | record => simp [record, hi]

theorem moves_inspected (h : Moves r s) (hr : r.Inspected) : s.Inspected := by
  cases h with
  | advance => exact inspected_inspect
  | record issue =>
    intro other ho
    have := hr other ho
    simp [record, this]

/-- A token that is passed without an issue has none by itself. -/
theorem moves_passed (h : Moves r s) (hr : r.Inspected) (hs : s.issues = #[])
    (ht : token ∈ r.rest) :
    token ∈ s.rest ∨ token.issue? = none := by
  cases h with
  | record => exact .inl ht
  | advance =>
    rw [rest_advance]
    cases hrest : r.rest with
    | nil => simp [hrest] at ht
    | cons first rest =>
      rw [hrest] at ht
      rcases List.mem_cons.1 ht with rfl | ht
      · right
        by_contra hn
        obtain ⟨issue, hi⟩ := Option.ne_none_iff_exists'.1 hn
        have hc : r.current.issue? = some issue := by simpa [current, hrest] using hi
        have := mem_issues_inspect (r := { r with rest := r.rest.tail }) (hr issue hc)
        rw [← advance, hs] at this
        simp at this
      · exact .inl ht

theorem reaches_issues (h : r.Reaches s) (hi : issue ∈ r.issues) : issue ∈ s.issues := by
  induction h with
  | refl => exact hi
  | tail _ hm ih => exact moves_issues hm ih

theorem reaches_inspected (h : r.Reaches s) (hr : r.Inspected) : s.Inspected := by
  induction h with
  | refl => exact hr
  | tail _ hm ih => exact moves_inspected hm ih

theorem reaches_clean (h : r.Reaches s) (hs : s.issues = #[]) : r.issues = #[] := by
  by_contra hr
  obtain ⟨issue, hi⟩ := Array.exists_mem_of_ne_empty _ hr
  have := reaches_issues h hi
  simp [hs] at this

theorem reaches_tooDeep (h : r.Reaches s) (hr : r.TooDeep) : s.TooDeep := by
  obtain ⟨offset, limit, hi⟩ := hr
  exact ⟨offset, limit, reaches_issues h hi⟩

theorem reaches_passed (h : r.Reaches s) (hr : r.Inspected) (hs : s.issues = #[])
    (ht : token ∈ r.rest) : token ∈ s.rest ∨ token.issue? = none := by
  induction h with
  | refl => exact .inl ht
  | tail h hm ih =>
    rcases ih (reaches_clean (.single hm) hs) with ht | ht
    · exact moves_passed hm (reaches_inspected h hr) hs ht
    · exact .inr ht

theorem reaches_check : r.Reaches (r.check expected) := by
  rw [check]
  split
  · exact .refl
  · exact .single (.record _ _ ⟨rfl, rfl⟩)

theorem reaches_pass : r.Reaches (r.pass expected) := reaches_check.tail (.advance _)

end Reader

variable {α β γ : Type}

/-- The second reading agrees with the first wherever the first has room for all its levels. -/
structure Refines (x y : Reading Id β) : Prop where
  reaches (r : Reader) : r.Reaches (x r).2
  agrees (r : Reader) : ¬ (x r).2.TooDeep → y r = x r

namespace Refines

variable {x y z : Reading Id β} {f g : β → Reading Id γ}

theorem pure (a : β) : Refines (Pure.pure a) (Pure.pure a) := ⟨fun _ => .refl, fun _ _ => rfl⟩

theorem lift (a : Id β) : Refines (liftM a) (liftM a) := ⟨fun _ => .refl, fun _ _ => rfl⟩

theorem get : Refines get get := ⟨fun _ => .refl, fun _ _ => rfl⟩

theorem current : Refines Production.current Production.current := ⟨fun _ => .refl, fun _ _ => rfl⟩

theorem kind : Refines Production.kind Production.kind := ⟨fun _ => .refl, fun _ _ => rfl⟩

theorem advance : Refines Production.advance Production.advance :=
  ⟨fun r => .single (.advance r), fun _ _ => rfl⟩

theorem pass (expected : TokenKind) :
    Refines (Production.pass expected) (Production.pass expected) :=
  ⟨fun _ => Reader.reaches_pass, fun _ _ => rfl⟩

theorem record {issue : Token → Diagnostic} (h : Diagnostic.Proper issue) :
    Refines (Production.record issue) (Production.record issue) :=
  ⟨fun r => .single (.record r _ (h.marks r.current)), fun _ _ => rfl⟩

theorem bind (h : Refines x y) (hf : ∀ a, Refines (f a) (g a)) : Refines (x >>= f) (y >>= g) where
  reaches r := (h.reaches r).trans ((hf _).reaches _)
  agrees r hr := by
    rw [run_bind] at hr
    have hx : ¬ (x r).2.TooDeep := fun hd => hr (Reader.reaches_tooDeep ((hf _).reaches _) hd)
    rw [run_bind, run_bind, h.agrees r hx, (hf _).agrees _ hr]

theorem trans (h : Refines x y) (h' : Refines y z) : Refines x z where
  reaches := h.reaches
  agrees r hr := by
    have hy := h.agrees r hr
    rw [h'.agrees r (by rwa [hy]), hy]

end Refines

theorem refines_congruence : Congruence Refines where
  pure := .pure
  lift := .lift
  kind := .kind
  advance := .advance
  pass := .pass
  record := .record
  bind := .bind
  current _ hf := .bind .current hf
  get _ hf := .bind .get hf

/-- Each production of the second level agrees with that of the first. -/
abbrev Level.Refines (L M : Level Id α) : Prop := L.Related YangConstraint.Refines M

namespace Level

open Production

variable {b : Builder Id α} {L M N : Level Id α}

/-- A level that the second one agrees with, or none at all. -/
inductive Grows : Option (Level Id α) → Level Id α → Prop where
  | none (M : Level Id α) : Grows none M
  | some {L M : Level Id α} (h : L.Refines M) : Grows (some L) M

theorem refines_deepen {inner : Option (Level Id α)} (h : Grows inner M) {refused : Option α}
    {next : Level Id α → Reading Id (Option α)}
    (hn : ∀ L, L.Refines M → YangConstraint.Refines (next L) (next M)) :
    YangConstraint.Refines (deepen inner refused next) (deepen (some M) refused next) := by
  cases h with
  | some h => exact hn _ h
  | none =>
    refine ⟨fun r => .single (.record r _ ⟨rfl, rfl⟩), fun r hr => (hr ?_).elim⟩
    exact ⟨r.current.start, maxDepth, Array.mem_push_self⟩

theorem refines_above {inner : Option (Level Id α)} (h : Grows inner M) :
    (above b inner).Refines (above b (some M)) :=
  refines_congruence.above fun hn => refines_deepen h fun L hl => hn L M hl

theorem Refines.trans (h : L.Refines M) (h' : M.Refines N) : L.Refines N where
  expr floor := (h.expr floor).trans (h'.expr floor)
  operators floor left := (h.operators floor left).trans (h'.operators floor left)
  unions left := (h.unions left).trans (h'.unions left)
  predicates reverse base := (h.predicates reverse base).trans (h'.predicates reverse base)
  relativePath := h.relativePath.trans h'.relativePath

theorem refines_ofRoom_succ (room : Nat) : (ofRoom b room).Refines (ofRoom b (room + 1)) := by
  induction room with
  | zero => exact refines_above (.none _)
  | succ room ih => exact refines_above (.some ih)

/-- A level with more others below it agrees with one that has room enough. -/
theorem refines_ofRoom {room more : Nat} (h : room < more) :
    (ofRoom b room).Refines (ofRoom b more) := by
  induction h with
  | refl => exact refines_ofRoom_succ room
  | step _ ih => exact ih.trans (refines_ofRoom_succ _)

end Level

end YangConstraint
