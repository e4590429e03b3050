import YangConstraint.Proofs.Expr.Rescan

/-!
The trees whose canonical text is read back. Every tree that is read is one, unless some node of it
is spelled as another would be. A predicate behind another is spelled without its direction, so that
the tree is read back with the direction of the one before it.
-/
namespace YangConstraint

namespace Expr

mutual

/-- The nodes of a tree, without its holes. -/
def parts : Expr → List Expr
  | hole => []
  | string value => [string value]
  | number text => [number text]
  | operator op left right => operator op left right :: (parts left ++ parts right)
  | axis a type qualifier name => [axis a type qualifier name]
  | step left right => step left right :: (parts left ++ parts right)
  | predicate base condition reverse =>
    predicate base condition reverse :: (parts base ++ parts condition)
  | reference qualifier name => [reference qualifier name]
  | call qualifier name args => call qualifier name args :: partsAll args

def partsAll : List Expr → List Expr
  | [] => []
  | arg :: args => parts arg ++ partsAll args

end

/-- How many nodes a tree has. -/
def nodes (e : Expr) : Nat := e.parts.length

/-- Whether the canonical text of a node tells it apart: the literal of a processing instruction
stands in single quotes, so it holds none; a word or a star behind the bare root is a step there, so
it is no operator; and a predicate behind another takes its direction, so it has the same. -/
def Legible : Expr → Prop
  | axis _ .processingInstruction _ (some literal) => '\'' ∉ literal.toList
  | operator (.binary op) (axis .root ..) _ => op ∉ [BinaryOp.or, .and, .times, .div, .mod]
  | predicate (predicate _ _ inner) _ reverse => reverse = inner
  | _ => True

/-- Whether the canonical text of a node tells it apart, but for the direction of a predicate. -/
def Recoverable : Expr → Prop
  | axis _ .processingInstruction _ (some literal) => '\'' ∉ literal.toList
  | operator (.binary op) (axis .root ..) _ => op ∉ [BinaryOp.or, .and, .times, .div, .mod]
  | _ => True

/-- The direction of a predicate behind `base`: that of the predicate there, or else its own. -/
def directionBehind (base : Expr) (reverse : Bool) : Bool :=
  match base with
  | predicate _ _ inner => inner
  | _ => reverse

mutual

/-- The tree in which every predicate behind another has its direction. -/
def aligned : Expr → Expr
  | operator op left right => operator op (aligned left) (aligned right)
  | step left right => step (aligned left) (aligned right)
  | predicate base condition reverse =>
    predicate (aligned base) (aligned condition) (directionBehind (aligned base) reverse)
  | call qualifier name args => call qualifier name (alignedAll args)
  | e => e

def alignedAll : List Expr → List Expr
  | [] => []
  | arg :: args => aligned arg :: alignedAll args

end

variable {a b m arg : Expr} {args : List Expr} {op : BinaryOp}

theorem alignedAll_eq_map : alignedAll args = args.map aligned := by
  induction args with
  | nil => rfl
  | cons arg args ih => rw [alignedAll, ih, List.map_cons]

theorem Legible.recoverable (h : m.Legible) : m.Recoverable := by
  unfold Recoverable
  split
  · exact h
  · exact h
  · trivial

theorem Recoverable.legible (h : (operator (.binary op) a b).Recoverable) :
    (operator (.binary op) a.aligned b.aligned).Legible := by
  cases a with
  | axis axis => cases axis <;> exact h
  | _ => trivial

mutual

/-- Legible nodes have the direction of the predicate before them. -/
theorem aligned_eq (e : Expr) (h : ∀ m ∈ e.parts, m.Legible) : e.aligned = e := by
  cases e with
  | operator op left right =>
    simp only [parts, List.forall_mem_cons, List.forall_mem_append] at h
    rw [aligned, aligned_eq left h.2.1, aligned_eq right h.2.2]
  | step left right =>
    simp only [parts, List.forall_mem_cons, List.forall_mem_append] at h
    rw [aligned, aligned_eq left h.2.1, aligned_eq right h.2.2]
  | predicate base condition reverse =>
    simp only [parts, List.forall_mem_cons, List.forall_mem_append] at h
    have hd : directionBehind base reverse = reverse := by
      cases base with
      | predicate => exact h.1.symm
      | _ => rfl
    rw [aligned, aligned_eq base h.2.1, aligned_eq condition h.2.2, hd]
  | call qualifier name args =>
    simp only [parts, List.forall_mem_cons] at h
    rw [aligned, alignedAll_eq args h.2]
  | _ => rfl

theorem alignedAll_eq (args : List Expr) (h : ∀ m ∈ partsAll args, m.Legible) :
    alignedAll args = args := by
  cases args with
  | nil => rfl
  | cons arg args =>
    simp only [partsAll, List.forall_mem_append] at h
    rw [alignedAll, aligned_eq arg h.1, alignedAll_eq args h.2]

end

mutual

/-- The canonical text does not tell a tree from the aligned one. -/
theorem canonical_aligned (e : Expr) : e.aligned.canonical = e.canonical := by
  cases e with
  | operator op left right =>
    cases op with
    | negate => rw [aligned, canonical, canonical, canonical_aligned left]
    | binary op =>
      rw [aligned, canonical, canonical, canonical_aligned left, canonical_aligned right]
  | step left right =>
    have hl := canonical_aligned left
    have hr := canonical_aligned right
    cases left with
    | axis axis => cases axis <;> simp [aligned, canonical, hr]
    | _ => simp_all [aligned, canonical]
  | predicate base condition reverse =>
    have hp : needsParens (directionBehind base.aligned reverse) base.aligned =
        needsParens reverse base := by
      cases base <;> rfl
    rw [aligned, canonical, canonical, hp, canonical_aligned base, canonical_aligned condition]
  | call qualifier name args => rw [aligned, canonical, canonical, canonicalAll_aligned args]
  | _ => rfl

theorem canonicalAll_aligned (args : List Expr) :
    canonicalAll (alignedAll args) = canonicalAll args := by
  match args with
  | [] => rfl
  | [arg] => simp [alignedAll, canonicalAll, canonical_aligned arg]
  | arg :: next :: args =>
    have h := canonicalAll_aligned (next :: args)
    simp only [alignedAll] at h
    simp [alignedAll, canonicalAll, canonical_aligned arg, h]

end

theorem parts_subset_partsAll (h : arg ∈ args) : arg.parts ⊆ partsAll args := by
  induction args with
  | nil => cases h
  | cons first args ih =>
    intro m hm
    rw [partsAll, List.mem_append]
    rcases List.mem_cons.1 h with rfl | h
    · exact .inl hm
    · exact .inr (ih h hm)

end Expr

open Lexeme

/-- What the canonical text of a tree is read as. -/
inductive Printable : Nonterminal → Expr → Prop where
  | name {axis : Axis} {qualifier : Option String} {label : String} (h : IsName qualifier label) :
    Printable (.tested axis)
      (.axis axis axis.principal qualifier (if label = "*" then none else some label))
  | star {axis : Axis} : Printable (.tested axis) (.axis axis axis.principal none none)
  | type {axis : Axis} {type : NodeType} {keyword : String} (h : type.keyword? = some keyword) :
    Printable (.tested axis) (.axis axis type none none)
  | instruction {axis : Axis} {literal : String} (h : '\'' ∉ literal.toList) :
    Printable (.tested axis) (.axis axis .processingInstruction none (some literal))
  | predicate {axis : Axis} {a c : Expr} (ha : Printable (.tested axis) a)
    (hc : Printable .path c) :
    Printable (.tested axis) (.predicate a c axis.isReverse)
  | ofTested {axis : Axis} {e : Expr} (ha : axis ≠ .root) (h : Printable (.tested axis) e) :
    Printable .step e
  | ofStep {e : Expr} (h : Printable .step e) : Printable .relative e
  | stepPath {a b : Expr} (ha : Printable .step a) (hb : Printable .relative b) :
    Printable .relative (.step a b)
  | string {value : String} (h : '\'' ∈ value.toList → '"' ∉ value.toList) :
    Printable .filter (.string value)
  | number {text : String} (h : IsNumeral text.toList) : Printable .filter (.number text)
  | reference {qualifier : Option String} {label : String} (h : IsName qualifier label) :
    Printable .filter (.reference qualifier (some label))
  | call {qualifier : Option String} {label : String} {args : List Expr}
    (h : IsName qualifier label) (hw : label ≠ "*")
    (hk : qualifier = none → NodeType.ofKeyword? label = none)
    (hargs : ∀ arg ∈ args, Printable .path arg) : Printable .filter (.call qualifier label args)
  | negate {a : Expr} (h : Printable .path a) : Printable .filter (.operator .negate a .hole)
  | binary {op : BinaryOp} {a b : Expr} (ha : Printable .path a) (hb : Printable .path b)
    (h : (Expr.operator (.binary op) a b).Legible) : Printable .filter (.operator (.binary op) a b)
  | filtered {a c : Expr} (ha : Printable .filter a) (hc : Printable .path c) :
    Printable .filter (.predicate a c false)
  /-- A predicate behind parentheses. -/
  | enclosed {a c : Expr} (h : a.needsParens false = true) (ha : Printable .path a)
    (hc : Printable .path c) : Printable .filter (.predicate a c false)
  | root : Printable .path (.axis .root .any none none)
  | rootPath {b : Expr} (hb : Printable .relative b) :
    Printable .path (.step (.axis .root .any none none) b)
  | ofRelative {e : Expr} (h : Printable .relative e) : Printable .path e
  | ofFilter {e : Expr} (h : Printable .filter e) : Printable .path e
  | filterPath {a b : Expr} (ha : Printable .filter a) (hb : Printable .relative b) :
    Printable .path (.step a b)
  /-- A path behind another in parentheses. -/
  | pathPath {a b c : Expr} (ha : Printable .path (.step a b)) (hc : Printable .relative c) :
    Printable .path (.step (.step a b) c)

/-- As what a phrase is read again that comes from the canonical text of its tree. -/
def Nonterminal.printed : Nonterminal → Nonterminal
  | step => step
  | relative => relative
  | tested axis | test axis => tested axis
  | _ => path

namespace Printable

variable {a b c : Expr} {axis : Axis}

theorem needsParens_tested (h : Printable (.tested axis) a) (ha : axis ≠ .root) :
    a.needsParens axis.isReverse = false := by
  cases h with
  | predicate => rfl
  | _ => cases axis <;> first | rfl | contradiction

/-- Behind a step with its predicates, a predicate has the direction of the axis. -/
theorem directionBehind_tested (h : Printable (.tested axis) a) :
    Expr.directionBehind a axis.isReverse = axis.isReverse := by
  cases h <;> rfl

/-- The step before a predicate that runs forward does so too, unless it stands in parentheses. -/
theorem directionBehind_step (h : Printable (.tested axis) a) (ha : axis ≠ .root)
    (hp : a.needsParens false = false) : Expr.directionBehind a false = axis.isReverse := by
  cases h with
  | predicate => rfl
  | _ => cases axis <;> first | rfl | contradiction

theorem directionBehind_filter (h : Printable .filter a) :
    Expr.directionBehind a false = false := by
  cases h <;> rfl

theorem directionBehind_parens (h : a.needsParens false = true) :
    Expr.directionBehind a false = false := by
  cases a with
  | predicate => cases h
  | _ => rfl

/-- A predicate stands behind its base as the base is read, or behind parentheses. -/
theorem filtered_of_path (ha : Printable .path a) (hc : Printable .path c) :
    Printable .path (.predicate a c (Expr.directionBehind a false)) := by
  cases hn : a.needsParens false with
  | true =>
    rw [directionBehind_parens hn]
    exact .ofFilter (.enclosed hn ha hc)
  | false =>
    cases ha with
    | root | rootPath | filterPath | pathPath => cases hn
    | ofFilter ha =>
      rw [directionBehind_filter ha]
      exact .ofFilter (.filtered ha hc)
    | ofRelative ha =>
      cases ha with
      | stepPath => cases hn
      | ofStep ha =>
        cases ha with
        | ofTested hr ha =>
          rw [directionBehind_step ha hr hn]
          exact .ofRelative (.ofStep (.ofTested hr (.predicate ha hc)))

theorem path_of_path (ha : Printable .path a) (hb : Printable .relative b) :
    Printable .path (.step a b) := by
  cases ha with
  | root => exact .rootPath hb
  | rootPath ha => exact .pathPath (.rootPath ha) hb
  | filterPath ha hb' => exact .pathPath (.filterPath ha hb') hb
  | pathPath ha hb' => exact .pathPath (.pathPath ha hb') hb
  | ofFilter ha => exact .filterPath ha hb
  | ofRelative ha =>
    cases ha with
    | stepPath ha hb' => exact .pathPath (.ofRelative (.stepPath ha hb')) hb
    | ofStep ha => exact .ofRelative (.stepPath ha hb)

end Printable

theorem Nonterminal.printed_above (level : Nat) : (above level).printed = .path := by
  rw [above]
  split <;> rfl

theorem printable_leads {t : Token} {b path : Expr} (ht : t.Leads b path)
    (hb : Printable .relative b.aligned) : Printable .relative path.aligned := by
  cases ht with
  | slash => exact hb
  | slashSlash => exact .stepPath (.ofTested (by decide) (.type rfl)) hb

theorem parts_leads {t : Token} {b path : Expr} (ht : t.Leads b path) : b.parts ⊆ path.parts := by
  intro m hm
  cases ht with
  | slash => exact hm
  | slashSlash => simp [Expr.parts, hm]

theorem separated_subset {ws : List (List Token)} {u w : List Token} (h : Separated ws w)
    (hu : u ∈ ws) :
    u ⊆ w := by
  induction h with
  | none => cases hu
  | one v =>
    rw [List.mem_singleton.1 hu]
    exact List.Subset.refl _
  | more v ht h ih =>
    intro t hmem
    rcases List.mem_cons.1 hu with rfl | hu
    · simp [hmem]
    · simp [ih hu hmem]

theorem keyword_of_nodeType {n : Token} {type : NodeType} (h : n.nodeType? = some type) :
    ∃ keyword, type.keyword? = some keyword := by
  rw [Token.nodeType?] at h
  split at h
  · exact ⟨_, NodeType.ofKeyword?_eq_some_iff.1 h⟩
  · cases h

open YangConstraint.Expr in
/-- The tree of every phrase is printable once it is aligned, if its nodes can be recovered. -/
theorem Phrase.printable {X : Nonterminal} {w : List Token} {e : Expr} (h : Phrase X w e)
    (hw : ∀ t ∈ w, t.issue? = none ∧ t.Spelled) (he : ∀ m ∈ e.parts, m.Recoverable) :
    Printable X.printed e.aligned := by
  -- both hypotheses are split along the phrase, so that each part of it is printable by itself
  induction h with
  | @tighter level _ _ _ ih =>
    have hp := ih hw he
    rwa [Nonterminal.printed_above] at hp
  | binary _ _ _ _ hu hv =>
    simp only [List.forall_mem_append, List.forall_mem_cons, parts] at hw he
    have ha := hu hw.1 he.2.1
    have hb := hv hw.2.2 he.2.2
    rw [Nonterminal.printed_above] at hb
    exact .ofFilter (.binary ha hb he.1.legible)
  | ofUnion _ ih => exact ih hw he
  | negate _ _ ih =>
    simp only [List.forall_mem_cons, parts] at hw he
    exact .ofFilter (.negate (ih hw.2 fun m hm => he.2 m (by simp [hm])))
  | ofPath _ ih => exact ih hw he
  | union _ _ _ hu hv =>
    simp only [List.forall_mem_append, List.forall_mem_cons, parts] at hw he
    have ha := hu hw.1 he.2.1
    have hb := hv hw.2.2 he.2.2
    exact .ofFilter (.binary ha hb he.1.legible)
  | ofLocation _ ih => exact ih hw he
  | ofFilter _ ih => exact ih hw he
  | filterPath _ ht _ hu hv =>
    simp only [List.forall_mem_append, List.forall_mem_cons, parts] at hw he
    have ha := hu hw.1 he.2.1
    have hb := hv hw.2.2 fun m hm => he.2.2 m (parts_leads ht hm)
    exact ha.path_of_path (printable_leads ht hb)
  | ofPrimary _ ih => exact ih hw he
  | filtered _ _ _ _ hu hv =>
    simp only [List.forall_mem_append, List.forall_mem_cons, parts] at hw he
    have ha := hu hw.1 he.2.1
    have hc := hv hw.2.2.1 he.2.2
    exact ha.filtered_of_path hc
  | @string t value closed ht =>
    obtain ⟨hi, hs⟩ := hw t (.head _)
    cases closed with
    | false => simp [Token.issue?, ht] at hi
    | true => exact .ofFilter (.string (by simpa [Token.Spelled, ht] using hs))
  | @number t ht =>
    exact .ofFilter (.number (by simpa [Token.Spelled, ht] using (hw t (.head _)).2))
  | @reference s t _ _ _ _ ht =>
    exact .ofFilter (.reference (by simpa [Token.Spelled, ht] using (hw t (.tail _ (.head _))).2))
  | parens _ _ _ ih =>
    simp only [List.forall_mem_append, List.forall_mem_cons] at hw
    exact ih hw.2.1 he
  | @call n s t qualifier label callable args w hn hl hk _ _ hsep _ ih =>
    rw [aligned, alignedAll_eq_map]
    refine .ofFilter (.call (by simpa [Token.Spelled, hn] using (hw n (.head _)).2) hl ?_ ?_)
    · rintro rfl
      simpa [Token.nodeType?, hn] using hk
    · simp only [List.forall_mem_append, List.forall_mem_cons, parts] at hw he
      rw [List.map_map]
      intro e hmem
      obtain ⟨arg, harg, rfl⟩ := List.mem_map.1 hmem
      have hsub := separated_subset hsep (List.mem_map_of_mem harg)
      exact ih arg harg (fun t ht => hw.2.2.1 t (hsub ht))
        fun m hm => he.2 m (parts_subset_partsAll (List.mem_map_of_mem harg) hm)
  | root => exact .root
  | rootPath ht _ ih =>
    simp only [List.forall_mem_cons, parts] at hw he
    have hb := ih hw.2 fun m hm => he.2 m (by simp [parts_leads ht hm])
    exact .rootPath (printable_leads ht hb)
  | ofRelative _ ih => exact .ofRelative (ih hw he)
  | ofStep _ ih => exact .ofStep (ih hw he)
  | stepPath _ ht _ hu hv =>
    simp only [List.forall_mem_append, List.forall_mem_cons, parts] at hw he
    have ha := hu hw.1 he.2.1
    have hb := hv hw.2.2 fun m hm => he.2.2 m (parts_leads ht hm)
    exact .stepPath ha (printable_leads ht hb)
  | dot => exact .ofTested (by decide) (.type rfl)
  | dotDot => exact .ofTested (by decide) (.type rfl)
  | child _ ih => exact .ofTested (by decide) (ih hw he)
  | «attribute» _ _ ih =>
    rw [List.forall_mem_cons] at hw
    exact .ofTested (by decide) (ih hw.2 he)
  | @axis s t axis _ _ hs _ _ ih =>
    simp only [List.forall_mem_cons] at hw
    have ha : axis ≠ .root := by simpa [Token.Spelled, hs] using hw.1.2
    exact .ofTested ha (ih hw.2.2 he)
  | ofTest _ ih => exact ih hw he
  | predicate _ _ _ _ hu hv =>
    simp only [List.forall_mem_append, List.forall_mem_cons, parts] at hw he
    have ha := hu hw.1 he.2.1
    have hc := hv hw.2.2.1 he.2.2
    rw [aligned, ha.directionBehind_tested]
    exact .predicate ha hc
  | @name _ t _ _ _ ht => exact .name (by simpa [Token.Spelled, ht] using (hw t (.head _)).2)
  | star => exact .star
  | type hn =>
    obtain ⟨keyword, hk⟩ := keyword_of_nodeType hn
    exact .type hk
  | instruction => exact .instruction (he _ (.head _))

end YangConstraint
