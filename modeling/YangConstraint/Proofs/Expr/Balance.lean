import YangConstraint.Proofs.Expr.Counter

/-!
The counter is the same behind a production as before it, whichever way the production ends. Each
level below takes one of the levels that are left, so that the readings with the counter refuse a
level where those without it have none. Two levels are taken at most before the first token is
passed, and two for each token.
-/
namespace YangConstraint

open Production

variable {α β : Type}

/-- The productions of `M` track those of `L` where `d` levels have been taken, the loops also
where `levels` of these are their own. An expression needs two levels before it passes a token,
and all others one. -/
structure Level.Tracks (p : Prop) (limit d : Nat) (L : Level Id α) (M : Nat → Level Gauged α) :
    Prop where
  expr (floor levels : Nat) {n : Nat} {r : Reader} (hr : d + 2 + 2 * r.rest.length ≤ limit)
    (hn : r.rest.length ≤ n) :
    YangConstraint.Tracks p limit d d n (L.expr floor) ((M levels).expr floor) r
  operators (floor : Nat) (left : Option α) {outer levels n : Nat} {r : Reader}
    (hl : outer + levels = d) (hr : d + 1 + 2 * r.rest.length ≤ limit) (hn : r.rest.length ≤ n) :
    YangConstraint.Tracks p limit d outer n (L.operators floor left)
      ((M levels).operators floor left) r
  unions (left : Option α) {outer levels n : Nat} {r : Reader} (hl : outer + levels = d)
    (hr : d + 1 + 2 * r.rest.length ≤ limit) (hn : r.rest.length ≤ n) :
    YangConstraint.Tracks p limit d outer n (L.unions left) ((M levels).unions left) r
  predicates (reverse : Bool) (base : Option α) {outer levels n : Nat} {r : Reader}
    (hl : outer + levels = d) (hr : d + 1 + 2 * r.rest.length ≤ limit) (hn : r.rest.length ≤ n) :
    YangConstraint.Tracks p limit d outer n (L.predicates reverse base)
      ((M levels).predicates reverse base) r
  relativePath (levels : Nat) {n : Nat} {r : Reader} (hr : d + 1 + 2 * r.rest.length ≤ limit)
    (hn : r.rest.length ≤ n) :
    YangConstraint.Tracks p limit d d n L.relativePath (M levels).relativePath r

namespace Production

variable {p : Prop} {limit d k n : Nat} {b : Builder Id α} {L : Level Id α}
  {M : Nat → Level Gauged α} {axis : Axis} {left : Option α} {r : Reader}

theorem tracks_abbreviated (hn : r.rest.length ≤ n) :
    Tracks p limit d d n (abbreviated b axis) (abbreviated b.gauged axis) r := by
  refine .advance fun s hs => .made (.kind ?_)
  split
  · exact .record nofun fun s' hs' => .pure _ (by omega)
  · exact .pure _ (by omega)

theorem tracks_instructionName (hn : r.rest.length ≤ n) :
    Tracks p limit d d n (instructionName (m := Id)) instructionName r := by
  refine .kind ?_
  split
  · exact .pure _ hn
  · exact .current (.pass fun s hs => .pure _ (by omega))

/-- A name or a star is passed. -/
theorem tracks_nodeTest (hn : r.rest.length - 1 ≤ n)
    (ho : r.kind = .name ∨ r.kind = .mark .star ∨ r.rest.length ≤ n) :
    Tracks p limit d d n (nodeTest b axis) (nodeTest b.gauged axis) r := by
  refine .current ?_
  split
  · split
    · refine .advance fun s hs => .pass fun t ht => ?_
      split
      · exact .bind (tracks_instructionName (Nat.le_refl _)) fun _ u hu =>
          .pass fun v hv => .built (by omega)
      · exact .bind (.pure _ (Nat.le_refl _)) fun _ u hu => .pass fun v hv => .built (by omega)
    · exact .advance fun s hs => .built (by omega)
  · exact .advance fun s hs => .built (by omega)
  · rename_i hname hstar
    refine .record nofun fun s hs => .built ?_
    rcases ho with ho | ho | ho
    · obtain ⟨_, _, _, ho⟩ := Symbol.kind_eq_name_iff.1 ho
      exact absurd ho (hname _ _ _)
    · exact absurd (Reader.kind_eq_mark_iff.1 ho) hstar
    · exact Nat.le_trans (Nat.le_of_eq hs) ho

theorem tracks_tested (h : L.Tracks p limit d M) (hr : d + 1 + 2 * k ≤ limit) (hn : k ≤ n)
    (hk : r.rest.length - 1 ≤ k) (ho : r.kind = .name ∨ r.kind = .mark .star ∨ r.rest.length ≤ k) :
    Tracks p limit d d n (tested b L axis) (tested b.gauged (M 0) axis) r :=
  .bind (tracks_nodeTest hk ho) fun _ s hs => h.predicates _ _ rfl (by omega) (by omega)

theorem tracks_step (h : L.Tracks p limit d M) (hr : d + 2 * r.rest.length ≤ limit)
    (hn : r.rest.length ≤ n)
    (ho : r.current.startsStep = true ∨ d + 1 + 2 * r.rest.length ≤ limit) :
    Tracks p limit d d n (step b L) (step b.gauged (M 0)) r := by
  have hpos (hc : r.kind ≠ .eof) : d + 1 + 2 * (r.rest.length - 1) ≤ limit := by
    have := r.length_pos hc
    omega
  refine .current ?_
  split
  · exact tracks_abbreviated hn
  · exact tracks_abbreviated hn
  · rename_i hk
    have := hpos (Reader.kind_ne_eof hk nofun)
    exact .advance fun s hs =>
      tracks_tested h (by omega) (by omega) (Nat.sub_le ..) (.inr (.inr (Nat.le_refl _)))
  · rename_i hk
    have := hpos (Reader.kind_ne_eof hk nofun)
    exact .advance fun s hs => .pass fun t ht =>
      tracks_tested h (by omega) (by omega) (Nat.sub_le ..) (.inr (.inr (Nat.le_refl _)))
  · rename_i hdot hdotDot hat haxis
    rcases ho with ho | ho
    · obtain hk | hk | hk | ⟨axis, hk⟩ | hk := Token.startsStep_cases ho
      · exact absurd hk hdot
      · exact absurd hk hdotDot
      · exact absurd hk hat
      · exact absurd hk (haxis axis)
      · have hk : r.kind = .name ∨ r.kind = .mark .star := hk
        have := hpos (by rcases hk with hk | hk <;> simp [hk])
        exact tracks_tested h this (by omega) (Nat.le_refl _) (hk.imp_right .inl)
    · exact tracks_tested h ho hn (Nat.sub_le ..) (.inr (.inr (Nat.le_refl _)))

theorem tracks_descendants (h : L.Tracks p limit d M) (hr : d + 1 + 2 * r.rest.length ≤ limit)
    (hn : r.rest.length ≤ n) :
    Tracks p limit d d n (descendants b L) (descendants b.gauged (M 0)) r :=
  .made (.bind (h.relativePath 0 hr (Nat.le_refl _)) fun _ s hs => .lift (by omega))

theorem tracks_continued (h : L.Tracks p limit d M) (hr : d + 2 * r.rest.length ≤ limit)
    (hn : r.rest.length ≤ n) :
    Tracks p limit d d n (continued b L left) (continued b.gauged (M 0) left) r := by
  refine .kind ?_
  split
  · rename_i hk
    have := r.length_pos (by simp [hk])
    exact .advance fun s hs => .bind (h.relativePath 0 (by omega) (Nat.le_refl _)) fun _ t ht =>
      .built (by omega)
  · rename_i hk
    have := r.length_pos (by simp [hk])
    exact .advance fun s hs => .bind (tracks_descendants h (by omega) (Nat.le_refl _)) fun _ t ht =>
      .built (by omega)
  · exact .pure _ hn

theorem tracks_relativePath (h : L.Tracks p limit d M) (hr : d + 2 * r.rest.length ≤ limit)
    (hn : r.rest.length ≤ n) :
    Tracks p limit d d n (Production.relativePath b L)
      (Production.relativePath b.gauged (M 0)) r := by
  refine .current ?_
  split
  · rename_i hs
    exact .bind (tracks_step h hr (Nat.le_refl _) (.inl hs)) fun _ s hs =>
      tracks_continued h (by omega) (by omega)
  · exact .record nofun fun s hs => .pure _ (by omega)

theorem tracks_locationPath (h : L.Tracks p limit d M) (hr : d + 1 + 2 * r.rest.length ≤ limit)
    (hn : r.rest.length ≤ n) :
    Tracks p limit d d n (locationPath b L) (locationPath b.gauged (M 0)) r := by
  refine .kind ?_
  split
  · refine .advance fun s hs => .made (.current ?_)
    split
    · exact .bind (h.relativePath 0 (by omega) (Nat.le_refl _)) fun _ t ht => .built (by omega)
    · exact .pure _ (by omega)
  · exact .advance fun s hs =>
      .made (.bind (tracks_descendants h (by omega) (Nat.le_refl _)) fun _ t ht =>
        .built (by omega))
  · exact h.relativePath 0 hr hn

theorem tracks_arguments (h : L.Tracks p limit d M) (count : Nat)
    (hr : d + 2 + 2 * r.rest.length ≤ limit) (hn : r.rest.length ≤ n) :
    Tracks p limit d d n (arguments L count) (arguments (M 0) count) r := by
  induction count generalizing r n with
  | zero => exact .pure _ hn
  | succ count ih =>
    refine .bind (h.expr 0 0 hr (Nat.le_refl _)) fun arg s hs => .kind ?_
    split
    · exact .advance fun t ht => .bind (ih (by omega) (Nat.le_refl _)) fun _ u hu =>
        .pure _ (by omega)
    · exact .pure _ (by omega)

theorem tracks_call (h : L.Tracks p limit d M) {qualifier : Option String} {name : String}
    (hr : d + 2 + 2 * (r.rest.length - 1) ≤ limit) (hn : r.rest.length ≤ n) :
    Tracks p limit d d n (call b L qualifier name) (call b.gauged (M 0) qualifier name) r := by
  refine .advance fun s hs => .pass fun t ht => .kind ?_
  split
  · exact .bind (.pure _ (Nat.le_refl _)) fun _ u hu => .pass fun v hv => .built (by omega)
  · refine .get (.bind (tracks_arguments h _ (by omega) (Nat.le_refl _)) fun _ u hu => ?_)
    exact .pass fun v hv => .built (by omega)

theorem tracks_primary (h : L.Tracks p limit d M) (hr : d + 2 * r.rest.length ≤ limit)
    (hn : r.rest.length ≤ n) :
    Tracks p limit d d n (primary b L) (primary b.gauged (M 0)) r := by
  have hpos (hc : r.kind ≠ .eof) : d + 2 + 2 * (r.rest.length - 1) ≤ limit := by
    have := r.length_pos hc
    omega
  refine .current ?_
  split
  · exact .advance fun s hs => .built (by omega)
  · exact .advance fun s hs => .built (by omega)
  · refine .advance fun s hs => .current (.pass fun t ht => ?_)
    split <;> exact .built (by omega)
  · rename_i hk
    have := hpos (Reader.kind_ne_eof hk nofun)
    refine .advance fun s hs => .bind (h.expr 0 0 (by omega) (Nat.le_refl _)) fun _ t ht => ?_
    exact .pass fun u hu => .pure _ (by omega)
  · rename_i hk
    exact tracks_call h (hpos (Reader.kind_ne_eof hk nofun)) hn
  · exact .pure _ hn

theorem tracks_path (h : L.Tracks p limit d M) (hr : d + 1 + 2 * r.rest.length ≤ limit)
    (hn : r.rest.length ≤ n) :
    Tracks p limit d d n (path b L) (path b.gauged (M 0)) r := by
  refine .current ?_
  split
  · refine .bind (tracks_primary h (by omega) (Nat.le_refl _)) fun _ s hs => ?_
    exact .bind (h.predicates _ _ rfl (by omega) (Nat.le_refl _)) fun _ t ht =>
      tracks_continued h (by omega) (by omega)
  · exact tracks_locationPath h hr hn

theorem tracks_operand (h : L.Tracks p limit d M) (hr : d + 1 + 2 * r.rest.length ≤ limit)
    (hn : r.rest.length ≤ n) :
    Tracks p limit d d n (operand b L) (operand b.gauged (M 0)) r := by
  refine .kind ?_
  split
  · rename_i hk
    have := r.length_pos (by simp [hk])
    exact .advance fun s hs => .bind (h.expr _ 0 (by omega) (Nat.le_refl _)) fun _ t ht =>
      .built (by omega)
  · exact .bind (tracks_path h hr (Nat.le_refl _)) fun _ s hs =>
      h.unions _ rfl (by omega) (by omega)

theorem tracks_condition (h : L.Tracks p limit d M) (hr : d + 2 + 2 * (r.rest.length - 1) ≤ limit)
    (hn : r.rest.length - 1 ≤ n) : Tracks p limit d d n (condition L) (condition (M 0)) r :=
  .pass fun s hs => .bind (h.expr 0 0 (by omega) (Nat.le_refl _)) fun _ t ht =>
    .pass fun u hu => .pure _ (by omega)

end Production

namespace Level

variable {p : Prop} {limit d n : Nat} {b : Builder Id α} {L : Level Id α} {M : Nat → Level Gauged α}
  {r : Reader}

theorem tracks_resting (hp : ¬ p) (hd : d ≤ maxDepth) : L.Tracks p limit d resting where
  expr _ _ _ _ _ hn := .other hp (.pure none hn)
  operators _ left _ _ _ _ hl hr hn := .other hp (.stop hl hd (by omega) hn left)
  unions left _ _ _ _ hl hr hn := .other hp (.stop hl hd (by omega) hn left)
  predicates _ base _ _ _ _ hl hr hn := .other hp (.stop hl hd (by omega) hn base)
  relativePath _ _ _ _ hn := .other hp (.pure none hn)

/-- Below a level where `d` levels have been taken there is none when these are all, and else one
that is tracked. -/
structure Below (p : Prop) (limit d : Nat) (inner : Option (Level Id α))
    (M : Nat → Level Gauged α) : Prop where
  none (h : maxDepth ≤ d) (hp : p) : inner = none
  some (h : d < maxDepth) : ∃ L : Level Id α, (p → inner = some L) ∧ L.Tracks p limit (d + 1) M

section

variable {inner : Option (Level Id α)} {next : Level Id α → Reading Id (Option α)}
  {y : Reading Gauged (Option α)}

/-- A nested production gives its level back. -/
theorem tracks_nested (h : Below p limit d inner M) (hr : d + 1 + 2 * r.rest.length ≤ limit)
    (hn : r.rest.length ≤ n) (hnext : ∀ L : Level Id α, L.Tracks p limit (d + 1) M →
      YangConstraint.Tracks p limit (d + 1) (d + 1) r.rest.length (next L) y r) :
    YangConstraint.Tracks p limit d d n (deepen inner none next) (nested y) r := by
  refine .raise hr h.none (fun hd => ?_) fun s hs => .pure none (by omega)
  obtain ⟨L, hL, hM⟩ := h.some hd
  refine ⟨L, hL, ?_⟩
  rw [← bind_pure (next L)]
  exact .bind (hnext L hM) fun node s hs => .stop rfl hd (by omega) (by omega) node

/-- A loop that stops for want of levels gives back those that it has taken. -/
theorem tracks_loop {outer levels : Nat} {node : Option α} (h : Below p limit d inner M)
    (hl : outer + levels = d) (hd : d ≤ maxDepth) (hr : d + 1 + 2 * r.rest.length ≤ limit)
    (hn : r.rest.length ≤ n) (hnext : ∀ L : Level Id α, L.Tracks p limit (d + 1) M →
      YangConstraint.Tracks p limit (d + 1) outer n (next L) y r) :
    YangConstraint.Tracks p limit d outer n (deepen inner node next)
      (do if ← raise then y else stop levels node) r := by
  refine .raise hr h.none (fun hd => ?_) fun s hs => .stop hl hd (by omega) (by omega) node
  obtain ⟨L, hL, hM⟩ := h.some hd
  exact ⟨L, hL, hnext L hM⟩

/-- The level above takes one more level each time. -/
theorem tracks_counting (h : Below p limit d inner M) (hd : d ≤ maxDepth) :
    (above b inner).Tracks p limit d (counting b.gauged M) where
  expr floor levels {n r} hr hn := by
    refine tracks_nested h (by omega) hn fun L hM => ?_
    exact .bind (tracks_operand hM (by omega) (Nat.le_refl _)) fun _ s hs =>
      hM.operators _ _ rfl (by omega) hs
  operators floor left {outer levels n r} hl hr hn := by
    refine .kind ?_
    cases hk : r.kind with
    | operator op =>
      dsimp only
      split
      · exact .stop hl hd (by omega) hn left
      · have := r.length_pos (by simp [hk])
        refine tracks_loop h hl hd hr hn fun L hM => .advance fun s hs => ?_
        refine .bind (hM.expr _ 0 (by omega) (Nat.le_refl _)) fun _ t ht => .made ?_
        exact hM.operators _ _ (congrArg (· + 1) hl) (by omega) (by omega)
    | _ => exact .stop hl hd (by omega) hn left
  unions left {outer levels n r} hl hr hn := by
    refine .kind ?_
    split
    · rename_i hk
      have := r.length_pos (by simp [hk])
      refine tracks_loop h hl hd hr hn fun L hM => .advance fun s hs => ?_
      refine .bind (tracks_path hM (by omega) (Nat.le_refl _)) fun _ t ht => .made ?_
      exact hM.unions _ (congrArg (· + 1) hl) (by omega) (by omega)
    · exact .stop hl hd (by omega) hn left
  predicates reverse base {outer levels n r} hl hr hn := by
    refine .kind ?_
    split
    · rename_i hk
      have := r.length_pos (by simp [hk])
      refine tracks_loop h hl hd hr hn fun L hM => ?_
      refine .bind (tracks_condition hM (by omega) (Nat.le_refl _)) fun _ s hs => .made ?_
      exact hM.predicates _ _ (congrArg (· + 1) hl) (by omega) (by omega)
    · exact .stop hl hd (by omega) hn base
  relativePath levels {n r} hr hn :=
    tracks_nested h hr hn fun L hM => Production.tracks_relativePath hM (by omega) (Nat.le_refl _)

end

/-- The levels agree where those that are taken and those that are left make up
all that there are. -/
theorem tracks_counted {room : Nat} (hd : d ≤ maxDepth) (hp : p → d + room = maxDepth + 1) :
    (ofRoom b (room - 1)).Tracks p limit d (counted b.gauged room) := by
  induction room generalizing d with
  | zero => exact tracks_resting (fun h => absurd (hp h) (by omega)) hd
  | succ room ih =>
    have hbelow (h : d < maxDepth) :
        (ofRoom b (room - 1)).Tracks p limit (d + 1) (counted b.gauged room) :=
      ih h fun h => by rw [Nat.add_right_comm, ← hp h, Nat.add_assoc]
    cases room with
    | zero =>
      refine tracks_counting ⟨fun _ _ => rfl, fun h => ⟨_, fun hq => ?_, hbelow h⟩⟩ hd
      exact absurd (hp hq) (by omega)
    | succ room =>
      refine tracks_counting ⟨fun h hq => ?_, fun h => ⟨_, fun _ => rfl, hbelow h⟩⟩ hd
      exact absurd (hp hq) (by omega)

end Level

/-- The productions of a parser, which go on at the level `L`. -/
inductive IsProduction {m : Type → Type} [Monad m] (b : Builder m α) (L : Level m α) :
    {β : Type} → Reading m β → Prop where
  | expr (floor : Nat) : IsProduction b L (L.expr floor)
  | operators (floor : Nat) (left : Option α) : IsProduction b L (L.operators floor left)
  | unions (left : Option α) : IsProduction b L (L.unions left)
  | predicates (reverse : Bool) (base : Option α) : IsProduction b L (L.predicates reverse base)
  | relativePath : IsProduction b L L.relativePath
  /-- What an expression is, one level below it. -/
  | operation (floor : Nat) : IsProduction b L (do L.operators floor (← operand b L))
  | operand : IsProduction b L (operand b L)
  | union : IsProduction b L (do L.unions (← path b L))
  | path : IsProduction b L (path b L)
  | filter : IsProduction b L (do L.predicates false (← primary b L))
  | primary : IsProduction b L (primary b L)
  | call (qualifier : Option String) (name : String) : IsProduction b L (call b L qualifier name)
  | arguments (count : Nat) : IsProduction b L (arguments L count)
  | locationPath : IsProduction b L (locationPath b L)
  /-- What a relative path is, one level below it. -/
  | steps : IsProduction b L (Production.relativePath b L)
  | continued (left : Option α) : IsProduction b L (continued b L left)
  | descendants : IsProduction b L (descendants b L)
  | step : IsProduction b L (step b L)
  | abbreviated (axis : Axis) : IsProduction b L (abbreviated b axis)
  | tested (axis : Axis) : IsProduction b L (tested b L axis)
  | nodeTest (axis : Axis) : IsProduction b L (nodeTest b axis)
  | instructionName : IsProduction b L instructionName
  | condition : IsProduction b L (condition L)

variable {b : Builder Id α} {room : Nat} {y : Reading Gauged β}

theorem IsProduction.tracks (h : IsProduction b.gauged (Level.counted b.gauged room 0) y) {d : Nat}
    {r : Reader} (hd : d ≤ maxDepth) :
    ∃ x, Tracks False (d + 2 + 2 * r.rest.length) d d r.rest.length x y r := by
  have hL : (Level.ofRoom b (room - 1)).Tracks False (d + 2 + 2 * r.rest.length) d
      (Level.counted b.gauged room) :=
    Level.tracks_counted hd nofun
  have hr := Nat.le_refl r.rest.length
  cases h with
  | expr floor => exact ⟨_, hL.expr floor 0 (by omega) hr⟩
  | operators floor left => exact ⟨_, hL.operators floor left rfl (by omega) hr⟩
  | unions left => exact ⟨_, hL.unions left rfl (by omega) hr⟩
  | predicates reverse base => exact ⟨_, hL.predicates reverse base rfl (by omega) hr⟩
  | relativePath => exact ⟨_, hL.relativePath 0 (by omega) hr⟩
  | operation floor =>
    exact ⟨_, .bind (tracks_operand hL (by omega) hr) fun _ s hs =>
      hL.operators floor _ rfl (by omega) hs⟩
  | operand => exact ⟨_, tracks_operand hL (by omega) hr⟩
  | union =>
    exact ⟨_, .bind (tracks_path hL (by omega) hr) fun _ s hs => hL.unions _ rfl (by omega) hs⟩
  | path => exact ⟨_, tracks_path hL (by omega) hr⟩
  | filter =>
    exact ⟨_, .bind (tracks_primary hL (by omega) hr) fun _ s hs =>
      hL.predicates _ _ rfl (by omega) hs⟩
  | primary => exact ⟨_, tracks_primary hL (by omega) hr⟩
  | call qualifier name => exact ⟨_, tracks_call hL (by omega) hr⟩
  | arguments count => exact ⟨_, tracks_arguments hL count (by omega) hr⟩
  | locationPath => exact ⟨_, tracks_locationPath hL (by omega) hr⟩
  | steps => exact ⟨_, tracks_relativePath hL (by omega) hr⟩
  | continued left => exact ⟨_, tracks_continued hL (by omega) hr⟩
  | descendants => exact ⟨_, tracks_descendants hL (by omega) hr⟩
  | step => exact ⟨_, tracks_step hL (by omega) hr (.inr (by omega))⟩
  | abbreviated axis => exact ⟨_, tracks_abbreviated hr⟩
  | tested axis => exact ⟨_, tracks_tested hL (by omega) hr (Nat.sub_le ..) (.inr (.inr hr))⟩
  | nodeTest axis => exact ⟨_, tracks_nodeTest (Nat.sub_le ..) (.inr (.inr hr))⟩
  | instructionName => exact ⟨_, tracks_instructionName hr⟩
  | condition => exact ⟨_, tracks_condition hL (by omega) (Nat.sub_le ..)⟩

/-- Whatever a production reads, the counter stands behind it where it stood before. -/
theorem IsProduction.balanced (h : IsProduction b.gauged (Level.counted b.gauged room 0) y)
    (r : Reader) {gauge : Gauge} (hd : gauge.depth ≤ maxDepth) :
    (y r gauge).2.depth = gauge.depth := by
  obtain ⟨x, hx⟩ := h.tracks (r := r) hd
  obtain ⟨out, more, hout⟩ := hx gauge.notes
  have heq : y r gauge = _ := hout.eq
  rw [heq]

theorem Reader.not_tooDeep_start (text : String) : ¬ (start text).TooDeep := by
  intro h
  obtain ⟨offset, limit, hmem⟩ := tooDeep_of_inspect h
  exact Array.not_mem_empty _ hmem

theorem Reader.tooDeep_of_close {r : Reader} {text : String} (h : (r.close text).TooDeep) :
    r.TooDeep := by
  rw [close] at h
  split at h
  · exact h
  · exact tooDeep_of_record h nofun

theorem run_parseCounting (b : Builder Id α) (text : String) (gauge : Gauge) :
    b.gauged.parseCounting text gauge =
      let out := (Level.counted b.gauged (maxDepth + 1) 0).expr 0 (Reader.start text) gauge
      (⟨b.finish out.1.1, (out.1.2.close text).issues⟩, out.2) := rfl

/-- Kept by the productions themselves, the counter leads to the same parse. It is at 0 again in the
end, has never been too small for what was given back, nor exceeded the levels there are, nor two
levels more than twice the tokens passed; so an expression of few tokens does not exhaust it. Each
production leaves it as it was. -/
theorem parse_counting (b : Builder Id α) (text : String) :
    (∃ notes, (b.gauged.parseCounting text).run ⟨0, []⟩ = ((b.parse text).run, ⟨0, notes⟩) ∧
      ∀ note ∈ notes, note.levels ≤ note.depth ∧ note.depth ≤ maxDepth ∧
        note.depth ≤ 2 + 2 * ((Token.scan text).length - note.left)) ∧
    (∀ {room : Nat} {β : Type} {y : Reading Gauged β},
      IsProduction b.gauged (Level.counted b.gauged room 0) y →
      ∀ (r : Reader) {gauge : Gauge}, gauge.depth ≤ maxDepth → (y r gauge).2.depth = gauge.depth) ∧
    ((Token.scan text).length ≤ 60 →
      ∀ offset limit, Diagnostic.tooDeep offset limit ∉ (b.parse text).run.issues) := by
  have hlevel : (Level.ofRoom b maxDepth).Tracks True (2 + 2 * (Token.scan text).length) 0
      (Level.counted b.gauged (maxDepth + 1)) :=
        Level.tracks_counted (Nat.zero_le _) fun _ => Nat.zero_add _
  have htext : (Reader.start text).rest.length = (Token.scan text).length := by
    rw [Reader.rest_start]
  obtain ⟨out, notes, hout⟩ := hlevel.expr 0 0 (by omega) (Nat.le_of_eq htext) []
  have hparse : (b.parse text).run = ⟨b.finish out.1, (out.2.close text).issues⟩ := by
    rw [← hout.agrees trivial]
    rfl
  refine ⟨⟨notes, ?_, fun note hn => ?_⟩, fun h r _ hd => h.balanced r hd,
    fun hshort offset limit hmem => ?_⟩
  · rw [hparse, StateT.run, run_parseCounting, hout.eq, List.append_nil]
  · obtain ⟨hlevels, hdepth, hshares⟩ := hout.within note hn
    exact ⟨hlevels, hdepth, by omega⟩
  · have hdeep : (out.2.close text).TooDeep := ⟨offset, limit, by rwa [hparse] at hmem⟩
    have hlimit : 2 + 2 * (Token.scan text).length ≤ maxDepth := by
      rw [maxDepth]
      omega
    exact Reader.not_tooDeep_start text (hout.shallow hlimit (Reader.tooDeep_of_close hdeep))

/-- Also where one level is left, of which the sum needs two. -/
theorem parse_counting_full :
    ((Level.counted Expr.builder.gauged 2 0).expr 0 (Reader.start "a + b") ⟨127, []⟩).2.depth =
      127 ∧
    (Token.scan "a + b").length ≤ 60 ∧
    ∀ offset limit, Diagnostic.tooDeep offset limit ∉ (Expr.builder.parse "a + b").run.issues := by
  have hshort : (Token.scan "a + b").length ≤ 60 := by decide +kernel
  obtain ⟨-, hbalanced, hdeep⟩ := parse_counting Expr.builder "a + b"
  exact ⟨hbalanced (.expr 0) _ (by decide), hshort, hdeep hshort⟩

end YangConstraint
