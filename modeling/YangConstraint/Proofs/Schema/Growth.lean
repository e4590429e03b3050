import Mathlib.Data.List.Find
import YangConstraint.Proofs.Schema.Arena

/-!
How a schema grows. What is there stays as it is, with new children behind the old ones, so that the
nodes on the way of a path that has been inserted are found again.
-/
namespace YangConstraint

namespace Schema

/-- Nodes stay where they are and keep what they have; new children stand behind the old ones. -/
structure Extends (schema grown : Schema) : Prop where
  size_le : schema.nodes.size ≤ grown.nodes.size
  node {i : Nat} (hi : i < schema.nodes.size) :
    ∃ more, grown.node i = { schema.node i with children := schema.children i ++ more }

/-- The nodes of just these names, one below the other. -/
def named? (schema : Schema) (id : Nat) : List String → Option (List Nat)
  | [] => some []
  | name :: names =>
    (schema.childNamed? id name).bind fun child => (named? schema child names).map (child :: ·)

variable {schema grown : Schema} {id child i : Nat} {segment : String} {names : List String}
  {trail : List Nat}

namespace Extends

theorem refl (schema : Schema) : schema.Extends schema where
  size_le := Nat.le_refl _
  node {i} _ := by
    refine ⟨[], ?_⟩
    rw [List.append_nil]
    rfl

theorem trans {between : Schema} (h : schema.Extends between) (h' : between.Extends grown) :
    schema.Extends grown where
  size_le := Nat.le_trans h.size_le h'.size_le
  node {i} hi := by
    obtain ⟨first, hf⟩ := h.node hi
    obtain ⟨second, hs⟩ := h'.node (Nat.lt_of_lt_of_le hi h.size_le)
    refine ⟨first ++ second, ?_⟩
    rw [hs, children, hf, List.append_assoc]

theorem name (h : schema.Extends grown) (hi : i < schema.nodes.size) :
    grown.name i = schema.name i := by
  obtain ⟨more, hm⟩ := h.node hi
  rw [Schema.name, hm, Schema.name]

theorem children (h : schema.Extends grown) (hi : i < schema.nodes.size) :
    schema.children i <+: grown.children i := by
  obtain ⟨more, hm⟩ := h.node hi
  rw [Schema.children, Schema.children, hm]
  exact List.prefix_append _ more

/-- The old children are looked through as before. -/
theorem find?_children (h : schema.Extends grown) (hl : schema.Linked) (id : Nat) (name : String) :
    (schema.children id).find? (grown.name · = name) = schema.childNamed? id name := by
  apply List.find?_congr
  intro child hc
  rw [h.name (hl.child hc).2.2]

/-- A child that is found by its name is found among more children, too. -/
theorem childNamed? (h : schema.Extends grown) (hl : schema.Linked) (hid : id < schema.nodes.size)
    (hc : schema.childNamed? id segment = some child) :
    grown.childNamed? id segment = some child := by
  obtain ⟨more, hm⟩ := h.children hid
  rw [Schema.childNamed?, ← hm, List.find?_append, h.find?_children hl, hc]
  rfl

end Extends

theorem childNamed?_lt (h : schema.Linked) (hc : schema.childNamed? id segment = some child) :
    child < schema.nodes.size := (h.child (List.mem_of_find?_eq_some hc)).2.2

theorem name_of_childNamed? (hc : schema.childNamed? id segment = some child) :
    schema.name child = segment := by
  simpa using List.find?_some hc

theorem extends_addNode (parent : Nat) (name : String) :
    schema.Extends (schema.addNode parent name).2 where
  size_le := by
    rw [size_addNode]
    omega
  node {i} hi := by
    rw [addNode, node_modify, node_push, if_neg (Nat.ne_of_lt hi)]
    split
    · exact ⟨[schema.nodes.size], rfl⟩
    · refine ⟨[], ?_⟩
      rw [List.append_nil]
      rfl

theorem name_addNode (parent : Nat) (name : String) :
    (schema.addNode parent name).2.name schema.nodes.size = name := by
  rw [Schema.name, addNode, node_modify, node_push, if_pos rfl]
  split <;> rfl

theorem children_size (schema : Schema) : schema.children schema.nodes.size = [] := by
  simp [children, node]

/-- A new node is found below its parent, unless there is another of its name. -/
theorem childNamed?_addNode (h : schema.Linked) (hid : id < schema.nodes.size)
    (hc : schema.childNamed? id segment = none) :
    (schema.addNode id segment).2.childNamed? id segment = some schema.nodes.size := by
  rw [childNamed?, children_addNode, if_pos ⟨rfl, Nat.le_of_lt hid⟩, List.find?_append,
    (extends_addNode id segment).find?_children h, hc]
  simp [name_addNode]

/-! ### The way of a path -/

theorem named?_cons_eq_some_iff :
    schema.named? id (segment :: names) = some trail ↔
      ∃ child rest, trail = child :: rest ∧ schema.childNamed? id segment = some child ∧
        schema.named? child names = some rest := by
  rw [named?, Option.bind_eq_some_iff]
  constructor
  · rintro ⟨child, hc, hrest⟩
    obtain ⟨rest, hr, rfl⟩ := Option.map_eq_some_iff.1 hrest
    exact ⟨child, rest, rfl, hc, hr⟩
  · rintro ⟨child, rest, rfl, hc, hr⟩
    exact ⟨child, hc, Option.map_eq_some_iff.2 ⟨rest, hr, rfl⟩⟩

/-- A child of just the name of a segment is the one that the segment leads to. -/
theorem trail?_of_named? (h : schema.named? id names = some trail) :
    schema.trail? id names = some trail := by
  induction names generalizing id trail with
  | nil => exact h
  | cons segment names ih =>
    obtain ⟨child, rest, rfl, hc, hr⟩ := named?_cons_eq_some_iff.1 h
    rw [trail?, child?, hc, Option.some_or, Option.bind_some, ih hr]
    rfl

theorem map_name_of_named? (h : schema.named? id names = some trail) :
    trail.map schema.name = names := by
  induction names generalizing id trail with
  | nil =>
    obtain rfl := Option.some.inj h
    rfl
  | cons segment names ih =>
    obtain ⟨child, rest, rfl, hc, hr⟩ := named?_cons_eq_some_iff.1 h
    rw [List.map_cons, ih hr, name_of_childNamed? hc]

theorem foldlM_of_named? (h : schema.named? id names = some trail) :
    names.foldlM schema.child? id = some (trail.getLast?.getD id) := by
  induction names generalizing id trail with
  | nil =>
    obtain rfl := Option.some.inj h
    rfl
  | cons segment names ih =>
    obtain ⟨child, rest, rfl, hc, hr⟩ := named?_cons_eq_some_iff.1 h
    rw [List.foldlM_cons, child?, hc, List.getLast?_cons]
    exact ih hr

theorem lookup_of_named? {path : String} (hn : Path.segments path ≠ [])
    (h : schema.named? root (Path.segments path) = some trail) :
    schema.lookup path = some (trail.getLast?.getD root) := by
  rw [lookup, lookupFrom]
  split
  · exact absurd (by assumption) hn
  · rename_i segment segments hsegments
    rw [hsegments] at h
    exact foldlM_of_named? h

/-- Where the way is there, nothing is added to it. -/
theorem insertNames_of_named? (h : schema.named? id names = some trail) :
    insertNames id names schema = (trail.getLast?.getD id, schema) := by
  induction names generalizing id trail with
  | nil =>
    obtain rfl := Option.some.inj h
    rfl
  | cons segment names ih =>
    obtain ⟨child, rest, rfl, hc, hr⟩ := named?_cons_eq_some_iff.1 h
    rw [insertNames, hc, List.getLast?_cons]
    exact ih hr

theorem extends_insertNames (id : Nat) (names : List String) (schema : Schema) :
    schema.Extends (insertNames id names schema).2 := by
  induction names generalizing id schema with
  | nil => exact .refl schema
  | cons name names ih =>
    rw [insertNames]
    split
    · exact ih _ schema
    · exact (extends_addNode id name).trans (ih _ _)

/-- The step to a child that is there. -/
theorem insertNames_some (h : schema.Linked) (hid : id < schema.nodes.size) (names : List String)
    (hc : schema.childNamed? id segment = some child) :
    insertNames id (segment :: names) schema = insertNames child names schema ∧
      (insertNames child names schema).2.childNamed? id segment = some child := by
  refine ⟨?_, (extends_insertNames child names schema).childNamed? h hid hc⟩
  rw [insertNames, hc]

/-- The step to a child that is added. -/
theorem insertNames_none (h : schema.Linked) (hid : id < schema.nodes.size) (names : List String)
    (hc : schema.childNamed? id segment = none) :
    let grown := (schema.addNode id segment).2
    insertNames id (segment :: names) schema = insertNames schema.nodes.size names grown ∧
      (insertNames schema.nodes.size names grown).2.childNamed? id segment =
        some schema.nodes.size := by
  have hsize : (schema.addNode id segment).2.nodes.size = schema.nodes.size + 1 := size_addNode
  constructor
  · rw [insertNames, hc]
    rfl
  · exact (extends_insertNames _ names _).childNamed? (linked_addNode h) (by omega)
      (childNamed?_addNode h hid hc)

/-- The insertion ends at the last node of the way. -/
theorem fst_insertNames (h : schema.Linked) (hid : id < schema.nodes.size)
    (ht : (insertNames id names schema).2.named? id names = some trail) :
    (insertNames id names schema).1 = trail.getLast?.getD id := by
  induction names generalizing id schema trail with
  | nil =>
    obtain rfl := Option.some.inj ht
    rfl
  | cons segment names ih =>
    obtain ⟨child, rest, rfl, hc, hr⟩ := named?_cons_eq_some_iff.1 ht
    rw [List.getLast?_cons, Option.getD_some]
    cases hfirst : schema.childNamed? id segment with
    | some first =>
      obtain ⟨hinsert, hfound⟩ := insertNames_some h hid names hfirst
      rw [hinsert] at hc hr ⊢
      obtain rfl : first = child := Option.some.inj (hfound.symm.trans hc)
      exact ih h (childNamed?_lt h hfirst) hr
    | none =>
      obtain ⟨hinsert, hfound⟩ := insertNames_none h hid names hfirst
      rw [hinsert] at hc hr ⊢
      obtain rfl : schema.nodes.size = child := Option.some.inj (hfound.symm.trans hc)
      apply ih (linked_addNode h) ?_ hr
      rw [size_addNode]
      omega

/-- From where there is no node of its name, one is added for each segment. -/
theorem named?_insertNames_none (h : schema.Linked) (hid : id < schema.nodes.size)
    (names : List String) (hc : schema.childNamed? id segment = none) :
    (insertNames id (segment :: names) schema).2.named? id (segment :: names) =
        some (List.range' schema.nodes.size (names.length + 1)) ∧
      (insertNames id (segment :: names) schema).2.nodes.size =
        schema.nodes.size + (names.length + 1) := by
  induction names generalizing id segment schema with
  | nil =>
    obtain ⟨hinsert, hfound⟩ := insertNames_none h hid [] hc
    rw [hinsert]
    refine ⟨?_, size_addNode⟩
    rw [named?, hfound]
    rfl
  | cons next names ih =>
    obtain ⟨hinsert, hfound⟩ := insertNames_none h hid (next :: names) hc
    have hsize : (schema.addNode id segment).2.nodes.size = schema.nodes.size + 1 := size_addNode
    -- Nothing is below the node that has just been added.
    have hnone : (schema.addNode id segment).2.childNamed? schema.nodes.size next = none := by
      rw [childNamed?, children_addNode, children_size, if_neg (by omega)]
      rfl
    obtain ⟨htrail, hgrown⟩ := ih (linked_addNode h) (by omega) hnone
    rw [hinsert]
    constructor
    · rw [named?, hfound, Option.bind_some, htrail, hsize]
      rfl
    · rw [hgrown, hsize, List.length_cons]
      omega

/-- An insertion goes along nodes that are there, and from where there is none it adds
one for each segment. -/
theorem named?_insertNames (h : schema.Linked) (hid : id < schema.nodes.size)
    (names : List String) :
    ∃ shared added old, names = shared ++ added ∧ schema.named? id shared = some old ∧
      (insertNames id names schema).2.named? id names =
        some (old ++ List.range' schema.nodes.size added.length) ∧
      (insertNames id names schema).2.nodes.size = schema.nodes.size + added.length := by
  induction names generalizing id with
  | nil => exact ⟨[], [], [], rfl, rfl, rfl, rfl⟩
  | cons segment names ih =>
    cases hc : schema.childNamed? id segment with
    | none =>
      obtain ⟨htrail, hsize⟩ := named?_insertNames_none h hid names hc
      exact ⟨[], segment :: names, [], rfl, rfl, htrail, hsize⟩
    | some child =>
      obtain ⟨shared, added, old, rfl, hold, htrail, hsize⟩ := ih (childNamed?_lt h hc)
      obtain ⟨hinsert, hfound⟩ := insertNames_some h hid (shared ++ added) hc
      refine ⟨segment :: shared, added, child :: old, rfl, ?_, ?_, ?_⟩
      · rw [named?, hc, Option.bind_some, hold]
        rfl
      · rw [hinsert, named?, hfound, Option.bind_some, htrail]
        rfl
      · rw [hinsert, hsize]

/-- However a schema has been made, the node at which a path has been inserted is the one that is
looked up there, and the same path adds nothing again. What is added is a node for each segment from
some segment on, in the places behind the others, and the nodes that were there keep all they had,
with new children behind the old ones. -/
theorem lookup_insertPath (changes : List Change) (path : String) (hp : Path.segments path ≠ []) :
    let schema := ofChanges changes
    let (id, grown) := schema.insertPath path
    grown.lookup path = some id ∧ grown.insertPath path = (id, grown) ∧
    (∃ shared added old, Path.segments path = shared ++ added ∧
      grown.size = schema.size + added.length ∧
      schema.trail? root shared = some old ∧ old.map schema.name = shared ∧
      (List.range' schema.nodes.size added.length).map grown.name = added ∧
      grown.trail? root (Path.segments path) =
        some (old ++ List.range' schema.nodes.size added.length)) ∧
    ∀ i < schema.nodes.size, ∃ more,
      grown.node i = { schema.node i with children := schema.children i ++ more } := by
  intro schema
  have h : schema.Linked := linked_ofChanges changes
  have hroot : root < schema.nodes.size := schema.rooted
  obtain ⟨shared, added, old, hsegments, hold, htrail, hsize⟩ :=
    named?_insertNames h hroot (Path.segments path)
  have hid := fst_insertNames h hroot htrail
  have hextends := extends_insertNames root (Path.segments path) schema
  refine ⟨?_, ?_, ⟨shared, added, old, hsegments, ?_, ?_, ?_, ?_, ?_⟩, ?_⟩
  · rw [hid]
    exact lookup_of_named? hp htrail
  · rw [hid]
    exact insertNames_of_named? htrail
  · rw [size, hsize, size]
    omega
  · exact trail?_of_named? hold
  · exact map_name_of_named? hold
  · have hnames := (map_name_of_named? htrail).trans hsegments
    rw [List.map_append] at hnames
    refine (List.append_inj hnames ?_).2
    rw [List.length_map, ← map_name_of_named? hold, List.length_map]
  · exact trail?_of_named? htrail
  · intro i hi
    exact hextends.node hi

/-- Two placeholders below one node, and nodes that nothing leads to. -/
def starredChanges : List Change :=
  [.addNode 7 "stray", .addNode 2 "own", .insertPath "/a/*", .addNode 3 "*",
    .setAttribute 4 "mode" "r"]

theorem lookup_insertPath_starred :
    let schema := ofChanges starredChanges
    let path := "//a/*/x:b/c/"
    let grown := (schema.insertPath path).2
    Path.segments path ≠ [] ∧ grown.lookup path = some 7 ∧ grown.insertPath path = (7, grown) ∧
      grown.size = schema.size + 2 ∧ grown.children 4 = [6] ∧
      (grown.node 4).attributes = [("mode", "r")] := by
  intro schema path grown
  have hp : Path.segments path ≠ [] := by decide +kernel
  obtain ⟨hlookup, hagain, -, hkept⟩ := lookup_insertPath starredChanges path hp
  have hid : (schema.insertPath path).1 = 7 := by decide +kernel
  obtain ⟨more, hfour⟩ := hkept 4 (by decide +kernel)
  have hold : (schema.node 4).attributes = [("mode", "r")] := by decide +kernel
  refine ⟨hp, ?_, ?_, by decide +kernel, by decide +kernel, ?_⟩
  · rw [← hid]
    exact hlookup
  · rw [← hid]
    exact hagain
  · have hkeeps := congrArg SchemaNode.attributes hfour
    exact hkeeps.trans hold

end Schema

end YangConstraint
