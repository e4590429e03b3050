import YangConstraint.Proofs.Expr.Derivation

/-!
The counter of levels. Levels that are given by their number leave open how it is kept; here the
productions keep it themselves. Each level that is taken raises it, a nested production gives its
level back, and a loop gives back at its end what it has taken. A reading with the counter tracks
one without it, as both go through the same tokens.
-/
namespace YangConstraint

/-- What the counter is when a level has been taken, or when levels are about to be given back. -/
structure Note where
  depth : Nat
  /-- How many levels are given back. -/
  levels : Nat
  /-- How many tokens have not been passed. -/
  left : Nat

/-- The counter, and all that has happened to it, the last first. -/
structure Gauge where
  depth : Nat
  notes : List Note

/-- Computations that keep the counter. -/
abbrev Gauged := StateM Gauge

variable {α β γ : Type}

/-- Builds the same beside the counter. -/
def Builder.gauged (b : Builder Id α) : Builder Gauged α where
  start := return b.start
  finish result := return b.finish result
  string value := return b.string value
  number text := return b.number text
  operator op left right := return b.operator op left right
  axis axis type qualifier name := return b.axis axis type qualifier name
  step left right := return b.step left right
  predicate base condition reverse := return b.predicate base condition reverse
  reference qualifier name := return b.reference qualifier name
  call qualifier name args := return b.call qualifier name args

namespace Production

/-- Takes a level, unless all of them are taken. -/
def raise : Reading Gauged Bool := do
  if maxDepth ≤ (← getThe Gauge).depth then
    record fun token => .tooDeep token.start maxDepth
    return false
  let left := (← get).rest.length
  modifyThe Gauge fun gauge => ⟨gauge.depth + 1, ⟨gauge.depth + 1, 0, left⟩ :: gauge.notes⟩
  return true

/-- Gives levels back. -/
def lower (levels : Nat) : Reading Gauged Unit := do
  let left := (← get).rest.length
  modifyThe Gauge fun gauge => ⟨gauge.depth - levels, ⟨gauge.depth, levels, left⟩ :: gauge.notes⟩

/-- Ends what has taken `levels` levels. -/
def stop (levels : Nat) (node : Option α) : Reading Gauged (Option α) := do
  lower levels
  return node

/-- Runs a production one level below, or none. -/
def nested (production : Reading Gauged (Option α)) : Reading Gauged (Option α) := do
  if ← raise then stop 1 (← production)
  else return none

end Production

namespace Level

open Production

/-- The level above others, of which `inner levels` goes on with a loop that has
taken so many levels. -/
def counting (b : Builder Gauged α) (inner : Nat → Level Gauged α) (levels : Nat) :
    Level Gauged α where
  expr floor := nested do
    (inner 0).operators floor (← operand b (inner 0))
  operators floor left := do
    match ← kind with
    | .operator op =>
      if op.precedence ≤ floor then stop levels left
      else if ← raise then
        advance
        let right ← (inner 0).expr op.precedence
        (inner (levels + 1)).operators floor (some (← b.operator (.binary op) left right))
      else stop levels left
    | _ => stop levels left
  unions left := do
    if (← kind) = .operator .union then
      if ← raise then
        advance
        let right ← path b (inner 0)
        (inner (levels + 1)).unions (some (← b.operator (.binary .union) left right))
      else stop levels left
    else stop levels left
  predicates reverse base := do
    if (← kind) = .mark .leftBracket then
      if ← raise then
        let condition ← condition (inner 0)
        (inner (levels + 1)).predicates reverse (some (← b.predicate base condition reverse))
      else stop levels base
    else stop levels base
  relativePath := nested (Production.relativePath b (inner 0))

/-- The level below all others, which is not reached where the counter is right. -/
def resting (levels : Nat) : Level Gauged α where
  expr _ := return none
  operators _ left := stop levels left
  unions left := stop levels left
  predicates _ base := stop levels base
  relativePath := return none

/-- The `room`-th level from below, in whose loops `levels` levels have been taken. -/
def counted (b : Builder Gauged α) : (room levels : Nat) → Level Gauged α
  | 0 => resting
  | room + 1 => counting b (counted b room)

end Level

/-- Parses as `Builder.parse` does, by the counter. -/
def Builder.parseCounting (b : Builder Gauged α) (text : String) : Gauged (Parsed α) := do
  b.start
  let (node, reader) ← ((Level.counted b (maxDepth + 1) 0).expr 0).run (Reader.start text)
  let result ← b.finish node
  return ⟨result, (reader.close text).issues⟩

namespace Reader

variable {r : Reader} {issue : Diagnostic} {expected : TokenKind}

theorem length_advance : r.advance.rest.length = r.rest.length - 1 := by simp

theorem length_pass : (r.pass expected).rest.length = r.rest.length - 1 := by simp

/-- The end of the text stands behind the last token only. -/
theorem length_pos (h : r.kind ≠ .eof) : 0 < r.rest.length := by
  rw [rest_cons h]
  exact Nat.succ_pos _

theorem kind_ne_eof {symbol : Symbol} (h : r.current.symbol = symbol) (hs : symbol.kind ≠ .eof) :
    r.kind ≠ .eof := by
  rwa [← h] at hs

theorem tooDeep_of_record (h : (r.record issue).TooDeep)
    (hi : ∀ offset limit, issue ≠ .tooDeep offset limit) :
    r.TooDeep := by
  obtain ⟨offset, limit, hmem⟩ := h
  rcases Array.mem_push.1 hmem with hmem | rfl
  · exact ⟨offset, limit, hmem⟩
  · exact absurd rfl (hi offset limit)

theorem tooDeep_of_inspect (h : r.inspect.TooDeep) : r.TooDeep := by
  rw [inspect] at h
  split at h
  · rename_i issue hissue
    refine tooDeep_of_record h fun offset limit hi => ?_
    rw [hi, Token.issue?] at hissue
    split at hissue <;> cases hissue
  · exact h

theorem tooDeep_of_advance (h : r.advance.TooDeep) : r.TooDeep :=
  tooDeep_of_inspect (r := { r with rest := r.rest.tail }) h

theorem tooDeep_of_pass (h : (r.pass expected).TooDeep) : r.TooDeep := by
  have h := tooDeep_of_advance h
  rw [check] at h
  split at h
  · exact h
  · exact tooDeep_of_record h fun offset limit hi => Diagnostic.noConfusion hi

end Reader

/-- No more is given back than has been taken, not too much has been taken, and two levels are left
for each token. -/
structure Note.Within (limit : Nat) (note : Note) : Prop where
  levels_le : note.levels ≤ note.depth
  depth_le : note.depth ≤ maxDepth
  shares : note.depth + 2 * note.left ≤ limit

/-- How `y` goes on at `r`: it ends in `out` and leaves `more` notes. The counter goes from `d` to
`d'`, at most `n` tokens are left, and where `p` holds the outcome is that of `x`. -/
structure Runs (p : Prop) (limit d d' n : Nat) (x : Reading Id β) (y : Reading Gauged β)
    (r : Reader)
    (notes : List Note) (out : β × Reader) (more : List Note) : Prop where
  eq : y r ⟨d, notes⟩ = (out, ⟨d', more ++ notes⟩)
  agrees (h : p) : x r = out
  left : out.2.rest.length ≤ n
  /-- No level is refused unless the share of the tokens exceeds the levels that there are. -/
  shallow (h : limit ≤ maxDepth) (ht : out.2.TooDeep) : r.TooDeep
  within : ∀ note ∈ more, note.Within limit

/-- The second reading goes on like that whatever has happened to the counter before. -/
def Tracks (p : Prop) (limit d d' n : Nat) (x : Reading Id β) (y : Reading Gauged β) (r : Reader) :
    Prop :=
  ∀ notes, ∃ out more, Runs p limit d d' n x y r notes out more

theorem run_bind_gauged (y : Reading Gauged β) (next : β → Reading Gauged γ) (r : Reader)
    (gauge : Gauge) :
    (y >>= next) r gauge = next (y r gauge).1.1 (y r gauge).1.2 (y r gauge).2 := rfl

namespace Production

variable {d levels : Nat} {r : Reader} {notes : List Note}

theorem run_raise_refused (h : maxDepth ≤ d) :
    raise r ⟨d, notes⟩ = ((false, r.record (.tooDeep r.current.start maxDepth)), ⟨d, notes⟩) := by
  show (if maxDepth ≤ d then _ else _ : Reading Gauged Bool) r ⟨d, notes⟩ = _
  rw [if_pos h]
  rfl

theorem run_raise (h : d < maxDepth) :
    raise r ⟨d, notes⟩ = ((true, r), ⟨d + 1, ⟨d + 1, 0, r.rest.length⟩ :: notes⟩) := by
  show (if maxDepth ≤ d then _ else _ : Reading Gauged Bool) r ⟨d, notes⟩ = _
  rw [if_neg (Nat.not_le_of_lt h)]
  rfl

theorem run_stop (node : Option α) :
    stop levels node r ⟨d, notes⟩ =
      ((node, r), ⟨d - levels, ⟨d, levels, r.rest.length⟩ :: notes⟩) := rfl

end Production

namespace Tracks

variable {p : Prop} {limit d d' d'' k n : Nat} {x : Reading Id β} {y : Reading Gauged β}
  {f : β → Reading Id γ} {g : β → Reading Gauged γ} {r : Reader}

theorem pure (a : β) (h : r.rest.length ≤ n) : Tracks p limit d d n (Pure.pure a) (Pure.pure a) r :=
  fun _ => ⟨(a, r), [], rfl, fun _ => rfl, h, fun _ ht => ht, nofun⟩

theorem lift {a : Id β} (h : r.rest.length ≤ n) :
    Tracks p limit d d n (liftM a) (liftM (Pure.pure a.run : Gauged β)) r := pure a.run h

theorem bind (h : Tracks p limit d d' k x y r)
    (hf : ∀ a s, s.rest.length ≤ k → Tracks p limit d' d'' n (f a) (g a) s) :
    Tracks p limit d d'' n (x >>= f) (y >>= g) r := by
  intro notes
  obtain ⟨out, more, hx⟩ := h notes
  obtain ⟨last, behind, hl⟩ := hf out.1 out.2 hx.left (more ++ notes)
  refine ⟨last, behind ++ more, ?_, fun hp => ?_, hl.left, fun hlimit ht => ?_, fun note hn => ?_⟩
  · rw [run_bind_gauged, hx.eq, List.append_assoc]
    exact hl.eq
  · rw [run_bind, hx.agrees hp]
    exact hl.agrees hp
  · exact hx.shallow hlimit (hl.shallow hlimit ht)
  · rcases List.mem_append.1 hn with hn | hn
    · exact hl.within note hn
    · exact hx.within note hn

/-- What comes first leaves the counter as it is. -/
theorem after (h : ∀ gauge, y r gauge = (x r, gauge)) (ht : (x r).2.TooDeep → r.TooDeep)
    (hf : Tracks p limit d d' n (f (x r).1) (g (x r).1) (x r).2) :
    Tracks p limit d d' n (x >>= f) (y >>= g) r := by
  intro notes
  obtain ⟨out, more, hout⟩ := hf notes
  refine ⟨out, more, ?_, hout.agrees, hout.left, fun hlimit hs => ht (hout.shallow hlimit hs),
    hout.within⟩
  rw [← hout.eq, run_bind_gauged, h]

theorem made {a : Id β} (hf : Tracks p limit d d' n (f a) (g a) r) :
    Tracks p limit d d' n (liftM a >>= f) (liftM (Pure.pure a.run : Gauged β) >>= g) r :=
  after (fun _ => rfl) id hf

/-- A node is built of what has been read. -/
theorem built {a : Id β} (h : r.rest.length ≤ n) :
    Tracks p limit d d n (do return some (← a))
      (do return some (← (Pure.pure a.run : Gauged β))) r :=
  made (pure _ h)

theorem kind {f : TokenKind → Reading Id γ} {g : TokenKind → Reading Gauged γ}
    (hf : Tracks p limit d d' n (f r.kind) (g r.kind) r) :
    Tracks p limit d d' n (Production.kind >>= f) (Production.kind >>= g) r :=
  after (fun _ => rfl) id hf

theorem current {f : Token → Reading Id γ} {g : Token → Reading Gauged γ}
    (hf : Tracks p limit d d' n (f r.current) (g r.current) r) :
    Tracks p limit d d' n (Production.current >>= f) (Production.current >>= g) r :=
  after (fun _ => rfl) id hf

theorem get {f : Reader → Reading Id γ} {g : Reader → Reading Gauged γ}
    (hf : Tracks p limit d d' n (f r) (g r) r) :
    Tracks p limit d d' n (MonadState.get >>= f) (MonadState.get >>= g) r :=
  after (fun _ => rfl) id hf

section

variable {f : Unit → Reading Id γ} {g : Unit → Reading Gauged γ} {expected : TokenKind}
  {issue : Token → Diagnostic}

theorem advance
    (hf : ∀ s, s.rest.length = r.rest.length - 1 → Tracks p limit d d' n (f ()) (g ()) s) :
    Tracks p limit d d' n (Production.advance >>= f) (Production.advance >>= g) r :=
  after (fun _ => rfl) Reader.tooDeep_of_advance (hf _ Reader.length_advance)

theorem pass (hf : ∀ s, s.rest.length = r.rest.length - 1 → Tracks p limit d d' n (f ()) (g ()) s) :
    Tracks p limit d d' n (Production.pass expected >>= f) (Production.pass expected >>= g) r :=
  after (fun _ => rfl) Reader.tooDeep_of_pass (hf _ Reader.length_pass)

theorem record (hi : ∀ token offset limit, issue token ≠ .tooDeep offset limit)
    (hf : ∀ s, s.rest.length = r.rest.length → Tracks p limit d d' n (f ()) (g ()) s) :
    Tracks p limit d d' n (Production.record issue >>= f) (Production.record issue >>= g) r :=
  after (fun _ => rfl) (fun h => Reader.tooDeep_of_record h (hi _)) (hf _ rfl)

end

/-- Where nothing has to agree, any reading is tracked. -/
theorem other (hp : ¬ p) {z : Reading Id β} (h : Tracks p limit d d' n x y r) :
    Tracks p limit d d' n z y r := by
  intro notes
  obtain ⟨out, more, hout⟩ := h notes
  exact ⟨out, more, { hout with agrees := fun h => absurd h hp }⟩

/-- What has taken `levels` levels from `d'` on gives them back. -/
theorem stop {levels : Nat} (hl : d' + levels = d) (hd : d ≤ maxDepth)
    (hr : d + 2 * r.rest.length ≤ limit) (hn : r.rest.length ≤ n) (node : Option α) :
    Tracks p limit d d' n (Pure.pure node) (Production.stop levels node) r := by
  intro notes
  refine ⟨(node, r), [⟨d, levels, r.rest.length⟩], ?_,
    fun _ => rfl, hn, fun _ ht => ht, fun note h => ?_⟩
  · rw [Production.run_stop, ← hl, Nat.add_sub_cancel]
    rfl
  · rw [List.mem_singleton.1 h]
    exact ⟨hl ▸ Nat.le_add_left .., hd, hr⟩

/-- Going one level below raises the counter, and is refused where all levels are taken. -/
theorem raise {inner : Option (Level Id α)} {refused : Option α}
    {next : Level Id α → Reading Id (Option α)} {y z : Reading Gauged (Option α)}
    (hr : d + 1 + 2 * r.rest.length ≤ limit) (hnone : maxDepth ≤ d → p → inner = none)
    (hsome : d < maxDepth → ∃ L, (p → inner = some L) ∧ Tracks p limit (d + 1) d' n (next L) y r)
    (hz : ∀ s, s.rest.length = r.rest.length → Tracks p limit d d' n (Pure.pure refused) z s) :
    Tracks p limit d d' n (Production.deepen inner refused next)
      (do if ← Production.raise then y else z) r := by
  intro notes
  rcases Nat.lt_or_ge d maxDepth with hd | hd
  · obtain ⟨L, hL, hnext⟩ := hsome hd
    obtain ⟨out, more, hout⟩ := hnext (⟨d + 1, 0, r.rest.length⟩ :: notes)
    refine ⟨out, more ++ [⟨d + 1, 0, r.rest.length⟩], ?_, fun hp => ?_, hout.left, hout.shallow,
      fun note hn => ?_⟩
    · rw [run_bind_gauged, Production.run_raise hd, List.append_assoc]
      exact hout.eq
    · rw [hL hp]
      exact hout.agrees hp
    · rcases List.mem_append.1 hn with hn | hn
      · exact hout.within note hn
      · rw [List.mem_singleton.1 hn]
        exact ⟨Nat.zero_le _, hd, hr⟩
  · obtain ⟨out, more, hout⟩ := hz (r.record (.tooDeep r.current.start maxDepth)) rfl notes
    refine ⟨out, more, ?_, fun hp => ?_, hout.left, fun hlimit _ => ?_, hout.within⟩
    · rw [run_bind_gauged, Production.run_raise_refused hd]
      exact hout.eq
    · rw [hnone hd hp]
      exact hout.agrees hp
    · -- The share of the tokens leaves a level to take here.
      omega

end Tracks

end YangConstraint
