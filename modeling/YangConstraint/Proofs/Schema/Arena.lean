import Mathlib.Data.List.Count
import Mathlib.Data.List.Nodup
import Mathlib.Logic.Function.Iterate
import Mathlib.Logic.Relation
import Mathlib.Tactic.Common
import YangConstraint.Eval.Context

/-!
The table of a schema. Whatever is added to it, the nodes below the root form a tree in which a node
stands behind the one that encloses it, so that the way out of a node is the way in backwards.
-/
namespace YangConstraint

namespace Schema

/-- What may be done to a schema, at places known or not. -/
inductive Change where
  | addNode (parent : Nat) (name : String)
  | insertPath (path : String)
  | setAttribute (id : Nat) (key value : String)
  | addValue (id : Nat) (name value : String)

def Change.apply (schema : Schema) : Change → Schema
  | addNode parent name => (schema.addNode parent name).2
  | insertPath path => (schema.insertPath path).2
  | setAttribute id key value => schema.setAttribute id key value
  | addValue id name value => schema.addValue id name value

/-- The schema that changes make, one after the other. -/
def ofChanges (changes : List Change) : Schema := changes.foldl Change.apply empty

/-- Whether a node is below the root. -/
abbrev Below (schema : Schema) : Nat → Prop :=
  Relation.TransGen (fun parent id => id ∈ schema.children parent) root

/-- The nodes that the segments of a path lead to, one below the other. -/
def trail? (schema : Schema) (id : Nat) : List String → Option (List Nat)
  | [] => some []
  | segment :: rest =>
    (schema.child? id segment).bind fun child => (trail? schema child rest).map (child :: ·)

/-- The node that is reached in `steps` steps from a node to the enclosing one. -/
def outward (schema : Schema) (id steps : Nat) : Option Nat :=
  (·.bind schema.parent?)^[steps] (some id)

/-- Each entry among the children of a node is a node that has it as its parent, and there is no
other. A node may still be its own child, where nothing leads to it. -/
structure Linked (schema : Schema) : Prop where
  root_parent : (schema.node root).parent = none
  child {id child : Nat} (h : child ∈ schema.children id) :
    (schema.node child).parent = some id ∧ id ≤ child ∧ child < schema.nodes.size
  nodup (id : Nat) : (schema.children id).Nodup

variable {schema : Schema} {id parent child : Nat} {name : String}

theorem node_modify (change : SchemaNode → SchemaNode) (i : Nat) :
    (schema.modify id change).node i =
      if id = i ∧ i < schema.nodes.size then change (schema.node i) else schema.node i := by
  rw [node, node, modify, Array.getElem?_modify]
  by_cases hi : i < schema.nodes.size
  · by_cases hid : id = i <;> simp [hi, hid]
  · by_cases hid : id = i <;> simp [hi, hid]

theorem node_push (new : SchemaNode) (h : 0 < (schema.nodes.push new).size) (i : Nat) :
    (⟨schema.nodes.push new, h⟩ : Schema).node i =
      if i = schema.nodes.size then new else schema.node i := by
  rw [node, Array.getElem?_push]
  split <;> rfl

theorem size_addNode : (schema.addNode parent name).2.nodes.size = schema.nodes.size + 1 := by
  simp [addNode, modify]

/-- The new node takes the place behind the others. -/
theorem parent_addNode (i : Nat) : ((schema.addNode parent name).2.node i).parent =
    if i = schema.nodes.size then some parent else (schema.node i).parent := by
  rw [addNode, node_modify, node_push]
  split <;> split <;> rfl

theorem children_addNode (i : Nat) : (schema.addNode parent name).2.children i =
    schema.children i ++ if parent = i ∧ i ≤ schema.nodes.size then [schema.nodes.size]
      else [] := by
  have hnew : (if i = schema.nodes.size then ({ name, parent := some parent } : SchemaNode)
      else schema.node i).children = schema.children i := by
    split
    · rename_i hi
      simp [children, node, hi]
    · rfl
  rw [children, addNode, node_modify, node_push, Array.size_push]
  simp only [Nat.lt_add_one_iff]
  split
  · rw [hnew]
  · rw [hnew, List.append_nil]

theorem children_empty (i : Nat) : empty.children i = [] := by
  cases i <;> rfl

theorem linked_empty : empty.Linked where
  root_parent := rfl
  child {id _} h := by
    rw [children_empty id] at h
    cases h
  nodup id := by
    rw [children_empty id]
    exact List.nodup_nil

theorem linked_addNode (h : schema.Linked) : (schema.addNode parent name).2.Linked where
  root_parent := by
    have hroot : root ≠ schema.nodes.size := Nat.ne_of_lt schema.rooted
    rw [parent_addNode, if_neg hroot]
    exact h.root_parent
  child {id c} hc := by
    rw [parent_addNode, size_addNode]
    rw [children_addNode, List.mem_append] at hc
    rcases hc with hc | hc
    · obtain ⟨hp, hle, hlt⟩ := h.child hc
      rw [if_neg (Nat.ne_of_lt hlt)]
      exact ⟨hp, hle, by omega⟩
    · split at hc
      · rename_i hi
        obtain rfl : c = _ := List.mem_singleton.1 hc
        rw [if_pos rfl, hi.1]
        exact ⟨rfl, hi.2, by omega⟩
      · simp at hc
  nodup id := by
    rw [children_addNode]
    split
    · refine (h.nodup id).append (List.nodup_singleton _) ?_
      rw [List.disjoint_singleton]
      intro hc
      exact Nat.lt_irrefl _ (h.child hc).2.2
    · rw [List.append_nil]
      exact h.nodup id

theorem linked_modify (h : schema.Linked) {change : SchemaNode → SchemaNode}
    (hp : ∀ n, (change n).parent = n.parent) (hc : ∀ n, (change n).children = n.children) :
    (schema.modify id change).Linked := by
  have hparent (i : Nat) : ((schema.modify id change).node i).parent = (schema.node i).parent := by
    rw [node_modify]
    split
    · exact hp _
    · rfl
  have hchildren (i : Nat) : (schema.modify id change).children i = schema.children i := by
    rw [children, node_modify]
    split
    · exact hc _
    · rfl
  have hsize : (schema.modify id change).nodes.size = schema.nodes.size := Array.size_modify
  refine ⟨?_, fun hchild => ?_, fun i => ?_⟩
  · rw [hparent]
    exact h.root_parent
  · rw [hchildren] at hchild
    rw [hparent, hsize]
    exact h.child hchild
  · rw [hchildren]
    exact h.nodup i

theorem linked_insertNames (h : schema.Linked) (names : List String) :
    (insertNames id names schema).2.Linked := by
  induction names generalizing id schema with
  | nil => exact h
  | cons name names ih =>
    rw [insertNames]
    split
    · exact ih h
    · exact ih (linked_addNode h)

/-- Each change keeps the nodes linked. -/
theorem linked_apply (h : schema.Linked) (change : Change) : (change.apply schema).Linked := by
  cases change with
  | addNode parent name => exact linked_addNode h
  | insertPath path => exact linked_insertNames h _
  | setAttribute id key value => exact linked_modify h (fun _ => rfl) fun _ => rfl
  | addValue id name value => exact linked_modify h (fun _ => rfl) fun _ => rfl

theorem linked_ofChanges (changes : List Change) : (ofChanges changes).Linked := by
  have hrun (schema : Schema) (h : schema.Linked) : (changes.foldl Change.apply schema).Linked := by
    induction changes generalizing schema with
    | nil => exact h
    | cons change changes ih => exact ih _ (linked_apply h change)
  exact hrun empty linked_empty

namespace Linked

variable {n : Nat}

theorem ne_root (h : schema.Linked) (hc : child ∈ schema.children id) : child ≠ root := by
  rintro rfl
  have := (h.child hc).1
  rw [h.root_parent] at this
  cases this

/-- The way to a node below the root ends with a step from its parent, which stands before it. -/
theorem below_parent (h : schema.Linked) (hn : schema.Below n) :
    ∃ p, (p = root ∨ schema.Below p) ∧ n ∈ schema.children p ∧
      (schema.node n).parent = some p ∧ p < n := by
  induction hn with
  | single hc =>
    obtain ⟨hp, hle, -⟩ := h.child hc
    exact ⟨root, .inl rfl, hc, hp, Nat.lt_of_le_of_ne hle (h.ne_root hc).symm⟩
  | @tail p n hb hc ih =>
    obtain ⟨hp, hle, -⟩ := h.child hc
    refine ⟨p, .inr hb, hc, hp, Nat.lt_of_le_of_ne hle ?_⟩
    -- a node that is its own child has no other parent that leads to it
    rintro rfl
    obtain ⟨q, -, -, hq, hlt⟩ := ih
    rw [hp, Option.some.injEq] at hq
    omega

theorem below_ne_root (h : schema.Linked) (hn : schema.Below n) : n ≠ root := by
  obtain ⟨p, -, hc, -⟩ := h.below_parent hn
  exact h.ne_root hc

/-- A node below the root is at the top, or lies in another that stands before it. -/
theorem below_parent? (h : schema.Linked) (hn : schema.Below n) :
    n ∈ schema.children root ∧ schema.parent? n = none ∨
      ∃ p, schema.Below p ∧ schema.parent? n = some p ∧
        (schema.node n).parent = some p ∧ p < n := by
  obtain ⟨p, rfl | hb, hc, hp, hlt⟩ := h.below_parent hn
  · exact .inl ⟨hc, by simp [parent?, hp]⟩
  · refine .inr ⟨p, hb, ?_, hp, hlt⟩
    rw [parent?, hp]
    simp [h.below_ne_root hb]

/-- A node below the root is in one list of children, once, and that is the list of its parent. -/
theorem below_once (h : schema.Linked) (hn : schema.Below n) :
    ∃ p, (schema.node n).parent = some p ∧ p < n ∧ n < schema.nodes.size ∧
      (schema.children p).count n = 1 ∧ ∀ q, q ≠ p → n ∉ schema.children q := by
  obtain ⟨p, -, hc, hp, hlt⟩ := h.below_parent hn
  refine ⟨p, hp, hlt, (h.child hc).2.2, List.count_eq_one_of_mem (h.nodup p) hc,
    fun q hq hmem => hq ?_⟩
  have := (h.child hmem).1
  rw [hp, Option.some.injEq] at this
  exact this.symm

theorem lineage_top (hp : schema.parent? n = none) : schema.lineage n = [n] := by
  rw [lineage, hp]

theorem lineage_inner {p : Nat} (hp : schema.parent? n = some p) (hlt : p < n) :
    schema.lineage n = n :: schema.lineage p := by
  rw [lineage, hp]
  simp [hlt]

/-- The nodes around a node below the root are met on the way from each node to the enclosing one,
and that way ends. -/
theorem outward_eq (h : schema.Linked) (hn : schema.Below n) (steps : Nat) :
    schema.outward n steps = (schema.lineage n)[steps]? := by
  induction n using Nat.strongRecOn generalizing steps with
  | ind n ih =>
    rcases h.below_parent? hn with ⟨-, hp⟩ | ⟨p, hb, hp, -, hlt⟩
    · rw [lineage_top hp]
      cases steps with
      | zero => rfl
      | succ steps =>
        rw [outward, Function.iterate_succ_apply, Option.bind_some, hp]
        exact Function.iterate_fixed rfl steps
    · rw [lineage_inner hp hlt]
      cases steps with
      | zero => rfl
      | succ steps =>
        rw [outward, Function.iterate_succ_apply, Option.bind_some, hp]
        exact ih p hlt hb steps

theorem nextSibling?_eq (h : schema.Linked) (hn : schema.Below n)
    (htop : n ∉ schema.children root) :
    schema.nextSibling? n = schema.nextBelowParent? n := by
  rcases h.below_parent? hn with ⟨hc, -⟩ | ⟨p, -, hp, hparent, -⟩
  · exact absurd hc htop
  · rw [nextSibling?, nextBelowParent?, hp, hparent]

end Linked

theorem child?_mem {segment : String} (h : schema.child? id segment = some child) :
    child ∈ schema.children id := by
  have hnamed {name : String} (h : schema.childNamed? id name = some child) :
      child ∈ schema.children id :=
    List.mem_of_find?_eq_some h
  rw [child?, Option.or_eq_some_iff, Option.or_eq_some_iff] at h
  rcases h with h | ⟨-, h | ⟨-, h⟩⟩
  · exact hnamed h
  · obtain ⟨name, -, h⟩ := Option.bind_eq_some_iff.1 h
    exact hnamed h
  · exact hnamed h

namespace Linked

variable {n : Nat}

/-- The nodes around a place, from the inside out; there are none around the root. -/
def around (schema : Schema) (id : Nat) : List Nat := if id = root then [] else schema.lineage id

theorem around_child (h : schema.Linked) (hid : id = root ∨ schema.Below id)
    (hc : child ∈ schema.children id) : around schema child = child :: around schema id := by
  have hb : schema.Below child := by
    rcases hid with rfl | hb
    · exact .single hc
    · exact hb.tail hc
  have hparent := (h.child hc).1
  rw [around, if_neg (h.ne_root hc)]
  rcases h.below_parent? hb with ⟨htop, hp⟩ | ⟨p, hpb, hp, hpp, hlt⟩
  · have hroot := (h.child htop).1
    rw [hparent, Option.some.injEq] at hroot
    rw [lineage_top hp, around, if_pos hroot]
  · rw [hparent, Option.some.injEq] at hpp
    subst hpp
    rw [lineage_inner hp hlt, around, if_neg (h.below_ne_root hpb)]

/-- The way out of a node is the way on which the segments lead to it, backwards. -/
theorem trail_of_foldlM (h : schema.Linked) {segments : List String}
    (hid : id = root ∨ schema.Below id) (hn : segments.foldlM schema.child? id = some n) :
    ∃ trail, schema.trail? id segments = some trail ∧ trail.getLast?.getD id = n ∧
      around schema n = trail.reverse ++ around schema id ∧ (n = id ∨ schema.Below n) := by
  induction segments generalizing id with
  | nil =>
    obtain rfl : id = n := by simpa using hn
    exact ⟨[], rfl, rfl, rfl, .inl rfl⟩
  | cons segment segments ih =>
    rw [List.foldlM_cons] at hn
    obtain ⟨c, hc, hn⟩ := Option.bind_eq_some_iff.1 hn
    have hmem := child?_mem hc
    have hb : schema.Below c := by
      rcases hid with rfl | hb
      · exact .single hmem
      · exact hb.tail hmem
    obtain ⟨trail, ht, hlast, haround, hbelow⟩ := ih (.inr hb) hn
    refine ⟨c :: trail, by simp [trail?, hc, ht], ?_, ?_, .inr ?_⟩
    · rw [List.getLast?_cons]
      exact hlast
    · rw [haround, h.around_child hid hmem]
      simp
    · rcases hbelow with rfl | hbelow
      · exact hb
      · exact hbelow

theorem lookup_trail (h : schema.Linked) {path : String} (hn : schema.lookup path = some n) :
    ∃ trail, schema.trail? root (Path.segments path) = some trail ∧ trail.getLast? = some n ∧
      schema.Below n ∧ schema.lineage n = trail.reverse := by
  rw [lookup, lookupFrom] at hn
  split at hn
  · cases hn
  · rename_i segment segments hsegments
    have hfold : (segment :: segments).foldlM schema.child? root = some n := hn
    obtain ⟨trail, ht, hlast, haround, hbelow⟩ := h.trail_of_foldlM (.inl rfl) hfold
    obtain ⟨first, -, hfirst⟩ := Option.bind_eq_some_iff.1 ht
    obtain ⟨rest, -, rfl⟩ := Option.map_eq_some_iff.1 hfirst
    rw [hsegments]
    refine ⟨_, ht, ?_, ?_⟩
    · rw [List.getLast?_cons] at hlast ⊢
      exact congrArg some hlast
    · rcases hbelow with rfl | hbelow
      · simp [around] at haround
      · rw [around, around, if_neg (h.below_ne_root hbelow), if_pos rfl, List.append_nil] at haround
        exact ⟨hbelow, haround⟩

end Linked

/-- The features of the first node that names any, or of none. -/
theorem find?_features (schema : Schema) (ids : List Nat) :
    (∃ before id rest features, ids = before ++ id :: rest ∧
      schema.attribute? id "features" = some features ∧ features ≠ "" ∧
      (∀ other ∈ before, ∀ text, schema.attribute? other "features" = some text → text = "") ∧
      (ids.filterMap (schema.attribute? · "features")).find? (· ≠ "") = some features) ∨
    (∀ other ∈ ids, ∀ text, schema.attribute? other "features" = some text → text = "") ∧
      (ids.filterMap (schema.attribute? · "features")).find? (· ≠ "") = none := by
  induction ids with
  | nil => exact .inr ⟨by simp, rfl⟩
  | cons id ids ih =>
    by_cases hid : ∃ features, schema.attribute? id "features" = some features ∧ features ≠ ""
    · obtain ⟨features, hf, hn⟩ := hid
      refine .inl ⟨[], id, ids, features, rfl, hf, hn, by simp, ?_⟩
      simp [hf, hn]
    · have hskip : ∀ text, schema.attribute? id "features" = some text → text = "" := by
        intro text ht
        by_contra hn
        exact hid ⟨text, ht, hn⟩
      have hfind : ((id :: ids).filterMap (schema.attribute? · "features")).find? (· ≠ "") =
          (ids.filterMap (schema.attribute? · "features")).find? (· ≠ "") := by
        cases ht : schema.attribute? id "features" with
        | none => simp [ht]
        | some text => simp [ht, hskip text ht]
      rw [hfind]
      rcases ih with ⟨before, other, rest, features, rfl, hf, hn, hb, hfound⟩ | ⟨hall, hnone⟩
      · have hbefore := List.forall_mem_cons.2 ⟨hskip, hb⟩
        exact .inl ⟨id :: before, other, rest, features, rfl, hf, hn, hbefore, hfound⟩
      · exact .inr ⟨List.forall_mem_cons.2 ⟨hskip, hall⟩, hnone⟩

/-- The innermost node on the way of a path that names features decides whether one is enabled. -/
theorem featureEnabled_cases {ctx : Context} {n : Nat} {trail : List Nat}
    (hn : ctx.schema.lookup ctx.path = some n) (hl : ctx.schema.lineage n = trail.reverse)
    (feature : String) :
    (∃ outer id inner features, trail = outer ++ id :: inner ∧
      ctx.schema.attribute? id "features" = some features ∧ features ≠ "" ∧
      (∀ other ∈ inner, ∀ text, ctx.schema.attribute? other "features" = some text → text = "") ∧
      ctx.featureEnabled feature = Text.occursIn feature.toList features.toList) ∨
    (∀ other ∈ trail, ∀ text, ctx.schema.attribute? other "features" = some text → text = "") ∧
      ctx.featureEnabled feature = false := by
  rw [Context.featureEnabled, hn, Option.bind_some, features?, hl]
  rcases find?_features ctx.schema trail.reverse with
    ⟨inner, id, outer, features, htrail, hf, hne, hinner, hfound⟩ | ⟨hall, hnone⟩
  · have hsplit : trail = outer.reverse ++ id :: inner.reverse := by
      rw [← trail.reverse_reverse, htrail]
      simp
    refine .inl ⟨_, id, _, features, hsplit, hf, hne, fun other ho => ?_, ?_⟩
    · exact hinner other (List.mem_reverse.1 ho)
    · rw [hfound]
      rfl
  · refine .inr ⟨fun other ho => hall other (List.mem_reverse.2 ho), ?_⟩
    rw [hnone]
    rfl

/-- However a schema has been made, its nodes below the root form a tree in which a node stands
behind its parent. The way out of the node at a path is the way in backwards; on it the innermost
node that names features decides whether one is enabled. -/
theorem ofChanges_tree (changes : List Change) :
    let schema := ofChanges changes
    (∀ n, schema.Below n → ∃ p, (schema.node n).parent = some p ∧ p < n ∧ n < schema.nodes.size ∧
      (schema.children p).count n = 1 ∧ ∀ q, q ≠ p → n ∉ schema.children q) ∧
    (∀ path n, schema.lookup path = some n → ∃ trail,
      schema.trail? root (Path.segments path) = some trail ∧ trail.getLast? = some n ∧
      (∀ steps, schema.outward n steps = trail.reverse[steps]?) ∧
      ∀ (ctx : Context) (feature : String), ctx.schema = schema → ctx.path = path →
        (∃ outer id inner features, trail = outer ++ id :: inner ∧
          schema.attribute? id "features" = some features ∧ features ≠ "" ∧
          (∀ other ∈ inner, ∀ text, schema.attribute? other "features" = some text → text = "") ∧
          ctx.featureEnabled feature = Text.occursIn feature.toList features.toList) ∨
        (∀ other ∈ trail, ∀ text, schema.attribute? other "features" = some text → text = "") ∧
          ctx.featureEnabled feature = false) ∧
    ∀ n, schema.Below n → n ∉ schema.children root →
      schema.nextSibling? n = schema.nextBelowParent? n := by
  intro schema
  have h : schema.Linked := linked_ofChanges changes
  refine ⟨fun n hn => h.below_once hn,
    fun path n hn => ?_, fun n hn htop => h.nextSibling?_eq hn htop⟩
  obtain ⟨trail, ht, hlast, hbelow, hlineage⟩ := h.lookup_trail hn
  refine ⟨trail, ht, hlast, fun steps => by rw [h.outward_eq hbelow, hlineage], ?_⟩
  rintro ctx feature hctx rfl
  rw [← hctx] at hn hlineage ⊢
  exact featureEnabled_cases hn hlineage feature

/-- A node below a place without one, a node below itself, and two on the way of a path. -/
def strayChanges : List Change :=
  [.addNode 7 "stray", .addNode 2 "own", .insertPath "/a/b", .setAttribute 3 "features" "fast"]

theorem ofChanges_tree_stray :
    let schema := ofChanges strayChanges
    2 ∈ schema.children 2 ∧ schema.lookup "/a/b" = some 4 ∧ schema.outward 4 1 = some 3 ∧
      schema.outward 4 2 = none ∧
      ({ schema, source := .none, path := "/a/b", data := .new "/" } : Context).featureEnabled
        "fast" = true ∧
      (schema.children 3).count 4 = 1 ∧ schema.nextSibling? 4 = schema.nextBelowParent? 4 := by
  intro schema
  obtain ⟨honce, hlookup, hsibling⟩ := ofChanges_tree strayChanges
  have hn : schema.lookup "/a/b" = some 4 := by decide +kernel
  have htop : 3 ∈ schema.children root := by decide +kernel
  have hinner : 4 ∈ schema.children 3 := by decide +kernel
  have hbelow : schema.Below 4 := .tail (.single htop) hinner
  obtain ⟨trail, ht, -, hout, hfeatures⟩ := hlookup "/a/b" 4 hn
  obtain rfl : [3, 4] = trail := by
    have : schema.trail? root (Path.segments "/a/b") = some [3, 4] := by decide +kernel
    exact Option.some.inj (this.symm.trans ht)
  obtain ⟨p, hp, -, -, hcount, -⟩ := honce 4 hbelow
  obtain rfl : 3 = p :=
    Option.some.inj ((by decide +kernel : (schema.node 4).parent = some 3).symm.trans hp)
  refine ⟨by decide +kernel, hn, hout 1, hout 2, ?_, hcount, hsibling 4 hbelow (by decide +kernel)⟩
  have hthree : schema.attribute? 3 "features" = some "fast" := by decide +kernel
  have hfour : schema.attribute? 4 "features" = none := by decide +kernel
  rcases hfeatures { schema, source := .none, path := "/a/b", data := .new "/" } "fast" rfl rfl with
    ⟨outer, id, inner, features, htrail, hf, -, -, he⟩ | ⟨hall, -⟩
  · have hid : id ∈ [3, 4] := by simp [htrail]
    simp only [List.mem_cons, List.not_mem_nil, or_false] at hid
    rcases hid with rfl | rfl
    · obtain rfl : "fast" = features := Option.some.inj (hthree.symm.trans hf)
      rw [he]
      decide +kernel
    · rw [hfour] at hf
      cases hf
  · exact absurd (hall 3 (by simp) "fast" hthree) (by decide)

end Schema

end YangConstraint
