import Mathlib.Data.List.Induction
import YangConstraint.Proofs.Schema.Growth
import YangConstraint.Proofs.Schema.Listing
import YangConstraint.Schema.Load

/-!
What a schema holds while a document is loaded. The elements that have been entered are those of the
document up to some place; their nodes are numbered in that order, and the next element is entered
behind them.
-/
namespace YangConstraint

namespace Schema

open Xml (Element)

/-- What is wrong with an element by itself. -/
def fault? (e : Element) : Option SchemaError :=
  if e.name = "NODE" then
    if (written? "name" e.attributes).isNone then some (.unnamed e.start) else none
  else if e.name = "VALUE" then
    if (written? "name" e.attributes).isNone || (written? "value" e.attributes).isNone then
      some (.incomplete e.start)
    else none
  else none

theorem fault?_eq_none_iff {e : Element} : fault? e = none ↔
    (e.name = "NODE" → (written? "name" e.attributes).isSome = true) ∧
    (e.name = "VALUE" →
      (written? "name" e.attributes).isSome = true ∧
        (written? "value" e.attributes).isSome = true) := by
  rw [fault?]
  cases written? "name" e.attributes <;> cases written? "value" e.attributes <;>
    by_cases hn : e.name = "NODE" <;> by_cases hv : e.name = "VALUE" <;> simp_all

/-! ### What is added to the table -/

/-- The attributes of a node that get one more. -/
def put (kept : List (String × String)) (entry : String × String) : List (String × String) :=
  entry :: kept.filter (·.1 ≠ entry.1)

/-- The attributes that are stored for an element. -/
def stores (attributes : List (String × String)) : List (String × String) :=
  (attributes.filter (·.1 ≠ "name")).foldl put []

variable {schema : Schema} {id parent i : Nat} {name key value : String}
  {attributes : List (String × String)}

theorem written?_concat (entry : String × String) :
    written? key (attributes ++ [entry]).reverse =
      if entry.1 = key then some entry.2 else written? key attributes.reverse := by
  rw [List.reverse_concat, written?, List.find?_cons]
  by_cases h : entry.1 = key <;> simp [h, written?]

/-- Of the attributes that are put one after the other the last of each name is kept. -/
theorem mem_foldl_put_iff :
    (key, value) ∈ attributes.foldl put [] ↔ written? key attributes.reverse = some value := by
  induction attributes using List.reverseRecOn with
  | nil => simp [written?]
  | append_singleton attributes entry ih =>
    obtain ⟨other, text⟩ := entry
    rw [List.foldl_concat, put, written?_concat, List.mem_cons, List.mem_filter, ih]
    by_cases h : other = key <;> simp_all [eq_comm]

theorem nodup_foldl_put : ((attributes.foldl put []).map (·.1)).Nodup := by
  induction attributes using List.reverseRecOn with
  | nil => exact .nil
  | append_singleton attributes entry ih =>
    rw [List.foldl_concat, put, List.map_cons, List.nodup_cons]
    refine ⟨?_, ih.sublist (List.filter_sublist.map _)⟩
    simp

theorem written?_filter : written? key (attributes.filter (·.1 ≠ "name")) =
    if key = "name" then none else written? key attributes := by
  rw [written?, written?]
  induction attributes with
  | nil => simp
  | cons entry attributes ih =>
    by_cases he : entry.1 = key <;> by_cases hn : entry.1 = "name" <;> simp_all

theorem mem_stores_iff :
    (key, value) ∈ stores attributes ↔
      key ≠ "name" ∧ written? key attributes.reverse = some value := by
  rw [stores, mem_foldl_put_iff, ← List.filter_reverse, written?_filter]
  by_cases h : key = "name" <;> simp [h]

/-- An element gives its attributes to its node and changes nothing else. -/
theorem node_setAttributes (h : id < schema.nodes.size) (attributes : List (String × String))
    (i : Nat) :
    (schema.setAttributes id attributes).node i =
      if i = id then
        { schema.node id with
          attributes := (attributes.filter (·.1 ≠ "name")).foldl put (schema.node id).attributes }
      else schema.node i := by
  rw [setAttributes]
  generalize attributes.filter (·.1 ≠ "name") = entries
  induction entries generalizing schema with
  | nil =>
    split
    · subst i
      rfl
    · rfl
  | cons entry entries ih =>
    have hsize : (schema.setAttribute id entry.1 entry.2).nodes.size = schema.nodes.size :=
      Array.size_modify
    have hnode (j : Nat) : (schema.setAttribute id entry.1 entry.2).node j =
        if id = j ∧ j < schema.nodes.size then
          { schema.node j with attributes := put (schema.node j).attributes entry }
        else schema.node j :=
      node_modify _ j
    rw [List.foldl_cons, ih (by omega)]
    by_cases hi : i = id
    · rw [if_pos hi, if_pos hi, hnode, if_pos ⟨rfl, h⟩]
      rfl
    · rw [if_neg hi, if_neg hi, hnode, if_neg fun he => hi he.1.symm]

theorem size_setAttributes (attributes : List (String × String)) :
    (schema.setAttributes id attributes).nodes.size = schema.nodes.size := by
  rw [setAttributes]
  generalize attributes.filter (·.1 ≠ "name") = entries
  induction entries generalizing schema with
  | nil => rfl
  | cons entry entries ih => exact ih.trans Array.size_modify

/-- Adds the node of an element below another. -/
def enter (parent : Nat) (name : String) (attributes : List (String × String)) (schema : Schema) :
    Schema :=
  (schema.addNode parent name).2.setAttributes schema.nodes.size attributes

theorem size_enter : (schema.enter parent name attributes).nodes.size = schema.nodes.size + 1 := by
  rw [enter, size_setAttributes, size_addNode]

/-- The new node stands behind the others, of which only the one around it is changed. -/
theorem node_enter (h : parent < schema.nodes.size) (i : Nat) :
    (schema.enter parent name attributes).node i =
      if i = schema.nodes.size then { name, attributes := stores attributes, parent := some parent }
      else { schema.node i with
        children := schema.children i ++ if i = parent then [schema.nodes.size] else [] } := by
  have hsize : (schema.addNode parent name).2.nodes.size = schema.nodes.size + 1 := size_addNode
  have hnode (j : Nat) : (schema.addNode parent name).2.node j =
      if j = schema.nodes.size then { name, parent := some parent }
      else { schema.node j with
        children := schema.children j ++ if j = parent then [schema.nodes.size] else [] } := by
    rw [addNode, node_modify, node_push, Array.size_push]
    by_cases hj : j = schema.nodes.size
    · rw [if_neg (by omega), if_pos hj, if_pos hj]
    · rw [if_neg hj, if_neg hj]
      by_cases hp : j = parent
      · subst hp
        rw [if_pos ⟨rfl, by omega⟩, if_pos rfl]
        rfl
      · rw [if_neg fun he => hp he.1.symm, if_neg hp, List.append_nil]
        rfl
  rw [enter, node_setAttributes (by omega), hnode, hnode, if_pos rfl]
  split <;> rfl

theorem node_addValue (name value : String) (h : parent < schema.nodes.size) (i : Nat) :
    (schema.addValue parent name value).node i =
      { schema.node i with
        values := schema.values i ++ if i = parent then [(name, value)] else [] } := by
  rw [addValue, node_modify]
  by_cases hi : i = parent
  · subst hi
    rw [if_pos ⟨rfl, h⟩, if_pos rfl]
    rfl
  · rw [if_neg fun he => hi he.1.symm, if_neg hi, List.append_nil]
    rfl

/-! ### What has been loaded -/

/-- The addresses that have a node, by the number of the node: the root,
then the `NODE` elements. -/
def places (done : List (List Nat × Element)) : List (List Nat) :=
  [] :: (done.filter (·.2.name = "NODE")).map (·.1)

/-- The enumeration entry that an element has. -/
def alias? (e : Element) : Option (String × String) :=
  (written? "name" e.attributes).bind fun name => (written? "value" e.attributes).map (name, ·)

/-- What an element enters in the enumeration of the node at `outer`. -/
def aliasAt? (outer : List Nat) (x : List Nat × Element) : Option (String × String) :=
  if x.2.name = "VALUE" ∧ x.1.dropLast = outer then alias? x.2 else none

/-- A schema in which the elements of `done` and no others have been entered. -/
structure Loaded (done : List (List Nat × Element)) (schema : Schema) : Prop where
  size : schema.nodes.size = (places done).length
  root : (schema.node root).name = "" ∧ (schema.node root).attributes = [] ∧
    (schema.node root).parent = none
  element {i : Nat} {address : List Nat} {e : Element}
    (h : (done.filter (·.2.name = "NODE"))[i]? = some (address, e)) :
    written? "name" e.attributes = some (schema.name (i + 1)) ∧
      (schema.node (i + 1)).attributes = stores e.attributes ∧
      ∃ outer, (schema.node (i + 1)).parent = some outer ∧
        (places done)[outer]? = some address.dropLast
  children {id : Nat} {address : List Nat} (h : (places done)[id]? = some address) :
    (schema.children id).Pairwise (· < ·) ∧
      ∀ child, child ∈ schema.children id ↔ ∃ k, (places done)[child]? = some (address ++ [k])
  values {id : Nat} {address : List Nat} (h : (places done)[id]? = some address) :
    schema.values id = done.filterMap (aliasAt? address)

/-- The addresses follow each other in document order, behind the top. -/
def InOrder (done : List (List Nat × Element)) : Prop := ([] :: done.map (·.1)).Pairwise (· < ·)

variable {done more : List (List Nat × Element)} {e : Element} {address outer : List Nat} {k : Nat}

theorem places_append :
    places (done ++ more) = places done ++ (more.filter (·.2.name = "NODE")).map (·.1) := by
  simp [places]

theorem InOrder.places (h : InOrder done) : (places done).Pairwise (· < ·) :=
  h.sublist ((List.filter_sublist.map _).cons_cons _)

theorem InOrder.prefix_append (h : InOrder (done ++ more)) : InOrder done := by
  rw [InOrder, List.map_append, ← List.cons_append] at h
  exact (List.pairwise_append.1 h).1

/-- What has been listed stands before what comes next. -/
theorem InOrder.lt_last {x y : List Nat × Element} (h : InOrder (done ++ [y])) (hx : x ∈ done) :
    x.1 < y.1 := by
  rw [InOrder, List.map_append, ← List.cons_append] at h
  exact (List.pairwise_append.1 h).2.2 _ (List.mem_cons_of_mem _ (List.mem_map_of_mem hx)) _
    (.head _)

/-- An address has one number. -/
theorem InOrder.eq_of_places (h : InOrder done) {i j : Nat}
    (hi : (Schema.places done)[i]? = some address) (hj : (Schema.places done)[j]? = some address) :
    i = j := by
  obtain ⟨hi, rfl⟩ := List.getElem?_eq_some_iff.1 hi
  obtain ⟨hj, heq⟩ := List.getElem?_eq_some_iff.1 hj
  have hnodup : (Schema.places done).Nodup := by
    refine h.places.imp ?_
    rintro a _ hlt rfl
    exact List.lt_irrefl a hlt
  exact hnodup.getElem_inj_iff.1 heq.symm

theorem InOrder.eq_iff (h : InOrder done) (hid : (Schema.places done)[id]? = some address)
    (hp : (Schema.places done)[parent]? = some outer) : id = parent ↔ address = outer := by
  constructor
  · rintro rfl
    exact Option.some.inj (hid.symm.trans hp)
  · rintro rfl
    exact h.eq_of_places hid hp

/-- Nothing that has been listed lies in what comes next. -/
theorem InOrder.not_prefix {x : List Nat × Element} (h : InOrder (done ++ [(address, e)]))
    (hx : x ∈ done) :
    ¬ address <+: x.1 := by
  rintro ⟨rest, heq⟩
  have hlt := h.lt_last hx
  rw [← heq] at hlt
  exact List.le_append_left hlt

theorem getElem?_concat_eq_some_iff {α : Type} {xs : List α} {a x : α} :
    (xs ++ [a])[i]? = some x ↔ xs[i]? = some x ∨ i = xs.length ∧ x = a := by
  rw [List.getElem?_append]
  split
  · rename_i hi
    exact (or_iff_left fun h => Nat.ne_of_lt hi h.1).symm
  · rename_i hi
    rw [List.getElem?_singleton, List.getElem?_eq_none (Nat.le_of_not_lt hi)]
    split
    · rename_i hlast
      have hlast : i = xs.length := by omega
      simp [hlast, eq_comm]
    · rename_i hlast
      have hlast : i ≠ xs.length := by omega
      simp [hlast]

namespace Loaded

theorem lt_size (h : Loaded done schema) (hid : (places done)[id]? = some address) :
    id < schema.nodes.size := by
  rw [h.size]
  exact (List.getElem?_eq_some_iff.1 hid).1

theorem size_eq (h : Loaded done schema) :
    (done.filter (·.2.name = "NODE")).length + 1 = schema.nodes.size := by
  rw [h.size, places, List.length_cons, List.length_map]

/-- The next node has the next number. -/
theorem place_iff (h : Loaded done schema) (htag : e.name = "NODE") :
    (places (done ++ [(outer, e)]))[id]? = some address ↔
      (places done)[id]? = some address ∨ id = schema.nodes.size ∧ address = outer := by
  rw [places_append, List.filter_cons_of_pos (by simpa using htag), List.filter_nil,
    List.map_singleton, h.size]
  exact getElem?_concat_eq_some_iff

theorem child_place_iff (h : Loaded done schema) (htag : e.name = "NODE") (child : Nat) :
    (∃ j, (places (done ++ [(outer ++ [k], e)]))[child]? = some (address ++ [j])) ↔
      (∃ j, (places done)[child]? = some (address ++ [j])) ∨
        child = schema.nodes.size ∧ address = outer := by
  simp only [h.place_iff htag, exists_or]
  refine or_congr_right ⟨?_, ?_⟩
  · rintro ⟨j, hc, he⟩
    exact ⟨hc, (List.append_inj' he rfl).1⟩
  · rintro ⟨hc, rfl⟩
    exact ⟨k, hc, rfl⟩

/-- The new node is the last child of the one around it and has no children. -/
theorem children_enter (h : Loaded done schema) (hp : (places done)[parent]? = some outer)
    (htag : e.name = "NODE") (ho : InOrder (done ++ [(outer ++ [k], e)]))
    (hid : (places (done ++ [(outer ++ [k], e)]))[id]? = some address) :
    let grown := schema.enter parent name e.attributes
    (grown.children id).Pairwise (· < ·) ∧ ∀ child, child ∈ grown.children id ↔
      ∃ j, (places (done ++ [(outer ++ [k], e)]))[child]? = some (address ++ [j]) := by
  simp only [h.child_place_iff htag]
  rw [Schema.children, node_enter (h.lt_size hp)]
  rcases (h.place_iff htag).1 hid with hold | ⟨rfl, rfl⟩
  · obtain ⟨hsorted, hmem⟩ := h.children hold
    rw [if_neg (Nat.ne_of_lt (h.lt_size hold))]
    constructor
    · refine List.pairwise_append.2 ⟨hsorted, by split <;> simp, fun child hc new hn => ?_⟩
      obtain ⟨j, hj⟩ := (hmem child).1 hc
      split at hn
      · rw [List.mem_singleton.1 hn]
        exact h.lt_size hj
      · cases hn
    · intro child
      rw [List.mem_append, hmem, ← ho.prefix_append.eq_iff hold hp]
      by_cases hpar : id = parent <;> simp [hpar]
  · rw [if_pos rfl]
    refine ⟨.nil, fun child => iff_of_false List.not_mem_nil ?_⟩
    rintro (⟨j, hj⟩ | ⟨-, he⟩)
    · have hmem := List.mem_of_getElem? hj
      rw [places, List.mem_cons, List.mem_map] at hmem
      rcases hmem with hnil | ⟨x, hx, hxj⟩
      · simp at hnil
      · exact ho.not_prefix (List.mem_of_mem_filter hx) ⟨[j], hxj.symm⟩
    · simp at he

/-- The new node has no enumeration yet, and the others keep theirs. -/
theorem values_enter (h : Loaded done schema) (hp : (places done)[parent]? = some outer)
    (htag : e.name = "NODE") (ho : InOrder (done ++ [(outer ++ [k], e)]))
    (hid : (places (done ++ [(outer ++ [k], e)]))[id]? = some address) :
    (schema.enter parent name e.attributes).values id =
      (done ++ [(outer ++ [k], e)]).filterMap (aliasAt? address) := by
  have hnone : aliasAt? address (outer ++ [k], e) = none := by
    rw [aliasAt?, if_neg]
    rintro ⟨hvalue, -⟩
    exact absurd (htag.symm.trans hvalue) (by decide)
  rw [List.filterMap_append, List.filterMap_cons_none hnone, List.filterMap_nil, List.append_nil,
    Schema.values, node_enter (h.lt_size hp)]
  rcases (h.place_iff htag).1 hid with hold | ⟨rfl, rfl⟩
  · rw [if_neg (Nat.ne_of_lt (h.lt_size hold))]
    exact h.values hold
  · rw [if_pos rfl]
    refine (List.filterMap_eq_nil_iff.2 fun x hx => ?_).symm
    rw [aliasAt?, if_neg]
    rintro ⟨-, hlast⟩
    exact ho.not_prefix hx (hlast ▸ List.dropLast_prefix x.1)

/-- The next `NODE` element is entered below the node of the element it lies in. -/
theorem enterNode (h : Loaded done schema) (hp : (places done)[parent]? = some outer)
    (htag : e.name = "NODE") (hname : written? "name" e.attributes = some name)
    (ho : InOrder (done ++ [(outer ++ [k], e)])) :
    Loaded (done ++ [(outer ++ [k], e)]) (schema.enter parent name e.attributes) where
  size := by
    rw [size_enter, h.size, places_append, List.filter_cons_of_pos (by simpa using htag)]
    simp
  root := by
    have hroot : Schema.root ≠ schema.nodes.size := Nat.ne_of_lt schema.rooted
    rw [node_enter (h.lt_size hp), if_neg hroot]
    exact h.root
  element {i address x} hx := by
    rw [List.filter_append, List.filter_cons_of_pos (by simpa using htag), List.filter_nil,
      getElem?_concat_eq_some_iff] at hx
    rw [Schema.name, node_enter (h.lt_size hp)]
    rcases hx with hx | ⟨rfl, hx⟩
    · obtain ⟨hi, -⟩ := List.getElem?_eq_some_iff.1 hx
      obtain ⟨hn, ha, around, hpar, hplace⟩ := h.element hx
      rw [if_neg (by have := h.size_eq; omega)]
      exact ⟨hn, ha, around, hpar, (h.place_iff htag).2 (.inl hplace)⟩
    · obtain ⟨rfl, rfl⟩ := Prod.mk.inj hx
      rw [if_pos h.size_eq]
      refine ⟨hname, rfl, parent, rfl, (h.place_iff htag).2 (.inl ?_)⟩
      rw [hp, List.dropLast_concat]
  children hid := h.children_enter hp htag ho hid
  values hid := h.values_enter hp htag ho hid

/-- The next `VALUE` element is entered in the enumeration of the node it lies in. -/
theorem enterValue (h : Loaded done schema) (hp : (places done)[parent]? = some outer)
    (htag : e.name = "VALUE") (hname : written? "name" e.attributes = some name)
    (hvalue : written? "value" e.attributes = some value) (ho : InOrder done) :
    Loaded (done ++ [(outer ++ [k], e)]) (schema.addValue parent name value) := by
  have hnode := node_addValue name value (h.lt_size hp)
  have hfilter : (done ++ [(outer ++ [k], e)]).filter (·.2.name = "NODE") =
      done.filter (·.2.name = "NODE") := by
    simp [htag]
  have hplaces : places (done ++ [(outer ++ [k], e)]) = places done := by
    rw [places, hfilter, places]
  constructor
  case size =>
    rw [hplaces, ← h.size]
    exact Array.size_modify
  case root =>
    rw [hnode]
    exact h.root
  case element =>
    intro i address x hx
    rw [hfilter] at hx
    rw [hplaces, Schema.name, hnode]
    exact h.element hx
  case children =>
    intro id address hid
    rw [hplaces] at hid ⊢
    rw [Schema.children, hnode]
    exact h.children hid
  case values =>
    intro id address hid
    rw [hplaces] at hid
    have halias :
        aliasAt? address (outer ++ [k], e) = if id = parent then some (name, value) else none := by
      have hkept : outer = address ↔ id = parent := eq_comm.trans (ho.eq_iff hid hp).symm
      simp [aliasAt?, alias?, htag, hkept, hname, hvalue]
    rw [List.filterMap_append, ← h.values hid, Schema.values, hnode, List.filterMap_cons, halias]
    split <;> simp_all

end Loaded

theorem loaded_empty : Loaded [] empty where
  size := rfl
  root := ⟨rfl, rfl, rfl⟩
  element h := by simp at h
  children {id address} h := by
    rw [children_empty]
    refine ⟨.nil, fun child => iff_of_false List.not_mem_nil ?_⟩
    rintro ⟨k, hk⟩
    have hmem := List.mem_of_getElem? hk
    simp [places] at hmem
  values {id address} h := by
    cases id <;> rfl

end Schema

end YangConstraint
