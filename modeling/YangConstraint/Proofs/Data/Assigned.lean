import YangConstraint.Assignment
import YangConstraint.Eval.Context
import YangConstraint.Proofs.Data.Store

/-!
Assignments read into a data tree and into a store. Both hold the same data: the search in the tree
and the scan of the store come to the same nodes, but for the order of siblings.
-/
namespace YangConstraint

open DataTree Store YangConstraint.Path

/-! ### Reading assignments -/

namespace Assignment

/-- The text is a path below the root, the first equals sign and a value. -/
def Spells (text : String) (assignment : Assignment) : Prop :=
  text = assignment.path ++ "=" ++ assignment.value ∧ '=' ∉ assignment.path.toList ∧
    ∃ rest, rest ≠ "" ∧ assignment.path = "/" ++ rest

def entry (assignment : Assignment) : String × String := (assignment.path, assignment.value)

variable {text : String} {assignment : Assignment} {tree : DataTree} {kept : Store}
  {texts : List String} {assignments : List Assignment}

theorem ofText_eq_ok_iff : ofText text = .ok assignment ↔ Spells text assignment := by
  obtain ⟨path, value⟩ := assignment
  have hcut : Text.splitFirst? '=' text = some (path, value) ↔
      text = path ++ "=" ++ value ∧ '=' ∉ path.toList := by
    rw [Text.splitFirst?_eq_some_iff, ← String.toList_inj]
    simp
  have hroot : (Text.startsWith "/" path && path ≠ "/") = true ↔
      ∃ rest, rest ≠ "" ∧ path = "/" ++ rest := by
    rw [Bool.and_eq_true, Text.startsWith_iff, decide_eq_true_eq]
    constructor
    · rintro ⟨⟨rest, rfl⟩, hne⟩
      exact ⟨rest, fun he => hne (by rw [he, String.append_empty]), rfl⟩
    · rintro ⟨rest, hr, rfl⟩
      refine ⟨⟨rest, rfl⟩, fun he => hr ?_⟩
      simpa using he
  rw [Spells, ← and_assoc, ← hcut, ← hroot]
  constructor
  · intro h
    rw [ofText] at h
    split at h
    · rename_i before rest hs
      split at h
      · rename_i hp
        obtain ⟨rfl, rfl⟩ : before = path ∧ rest = value := by simpa using h
        exact ⟨hs, hp⟩
      · cases h
    · cases h
  · rintro ⟨hs, hp⟩
    rw [ofText, hs]
    exact if_pos hp

theorem rightUnique_spells : Relator.RightUnique Spells := by
  intro text a b ha hb
  exact Except.ok.inj ((ofText_eq_ok_iff.2 ha).symm.trans (ofText_eq_ok_iff.2 hb))

theorem ofText_eq_error (h : ∀ assignment, ¬ Spells text assignment) :
    ofText text = .error (.invalid text) := by
  cases ho : ofText text with
  | ok assignment => exact absurd (ofText_eq_ok_iff.1 ho) (h assignment)
  | error e =>
    rw [ofText] at ho
    split at ho
    · split at ho <;> cases ho
      rfl
    · cases ho
      rfl

theorem insert_spelled (h : Spells text assignment) (hr : tree.rootPath = "") :
    insert text tree = .ok (tree.put assignment.value (segments assignment.path)) := by
  obtain ⟨rest, -, hpath⟩ := h.2.2
  have hjoin : assignment.path = join tree.rootPath rest := by
    rw [hr, hpath, join, String.empty_append]
  have hsegments : segments rest = segments assignment.path := by
    rw [hjoin, segments_join, hr, segments_empty, List.nil_append]
  have hinsert : tree.insert? assignment.path assignment.value =
      some (tree.put assignment.value (segments assignment.path)) := by
    rw [insert?, below?_eq_some_iff.2 hjoin, Option.map_some, hsegments]
  simp only [insert, ofText_eq_ok_iff.2 h, bind, Except.bind, hinsert]
  rfl

theorem store_spelled (h : Spells text assignment) :
    store text kept = .ok (kept.write assignment.entry) := by
  obtain ⟨rest, -, hpath⟩ := h.2.2
  have hroot : Text.startsWith "/" assignment.path = true := Text.startsWith_iff.2 ⟨rest, hpath⟩
  simp only [store, ofText_eq_ok_iff.2 h, bind, Except.bind, set_eq hroot]
  rfl

/-- Assignments put their values one after the other into the tree. -/
theorem foldlM_insert (h : List.Forall₂ Spells texts assignments) (hr : tree.rootPath = "") :
    texts.foldlM (fun tree text => insert text tree) tree =
      .ok (putAll (below [] (assignments.map entry)) tree) := by
  induction h generalizing tree with
  | nil => rfl
  | @cons text assignment texts assignments hs h ih =>
    have hroot : (tree.put assignment.value (segments assignment.path)).rootPath = "" := by
      rw [← hr, rootPath, rootPath, name_put]
    rw [List.foldlM_cons, insert_spelled hs hr]
    exact ih hroot

theorem foldlM_store (h : List.Forall₂ Spells texts assignments) :
    texts.foldlM (fun kept text => store text kept) kept =
      .ok (writeAll (assignments.map entry) kept) := by
  induction h generalizing kept with
  | nil => rfl
  | cons hs h ih =>
    rw [List.foldlM_cons, store_spelled hs]
    exact ih

/-- The first text that is no assignment is the one that is reported. -/
theorem foldlM_insert_first (h : ∀ assignment, ¬ Spells text assignment) :
    (text :: texts).foldlM (fun tree text => insert text tree) tree = .error (.invalid text) := by
  simp only [List.foldlM_cons, insert, ofText_eq_error h]
  rfl

theorem foldlM_store_first (h : ∀ assignment, ¬ Spells text assignment) :
    (text :: texts).foldlM (fun kept text => store text kept) kept = .error (.invalid text) := by
  simp only [List.foldlM_cons, store, ofText_eq_error h]
  rfl

/-- Either all the texts are assignments or there is a first that is none. -/
theorem spells_or_first (texts : List String) :
    (∃ assignments, List.Forall₂ Spells texts assignments) ∨
    ∃ before text after assignments, texts = before ++ text :: after ∧
      List.Forall₂ Spells before assignments ∧ ∀ assignment, ¬ Spells text assignment := by
  induction texts with
  | nil => exact .inl ⟨[], .nil⟩
  | cons text texts ih =>
    by_cases h : ∃ assignment, Spells text assignment
    · obtain ⟨assignment, h⟩ := h
      rcases ih with ⟨assignments, hall⟩ | ⟨before, first, after, assignments, rfl, hall, hf⟩
      · exact .inl ⟨_, .cons h hall⟩
      · exact .inr ⟨text :: before, first, after, _, rfl, .cons h hall, hf⟩
    · exact .inr ⟨[], text, texts, [], rfl, .nil, fun assignment hs => h ⟨assignment, hs⟩⟩

end Assignment

/-! ### The same data on both sides -/

namespace Store

variable {entries : List (String × String)} {names more : List String} {name path : String}

/-- What a lookup finds has been kept for the path, or for one below it. -/
theorem exists_of_tree? {store : Store} (h : (store.tree? path).isSome) :
    ∃ entry ∈ store.entries, entry.1 = path ∨ ∃ rest, entry.1 = join path rest := by
  have hfold : ∀ entries : List (String × String), (entries.foldl (fun found entry =>
      (attach? path (found.getD (new path)) entry).or found) none).isSome →
        ∃ entry ∈ entries, entry.1 = path ∨ ∃ rest, entry.1 = join path rest := by
    intro entries h
    induction entries using List.reverseRecOn with
    | nil => cases h
    | append_singleton entries entry ih =>
      rw [List.foldl_append, List.foldl_cons, List.foldl_nil, Option.isSome_or,
        Bool.or_eq_true] at h
      rcases h with h | h
      · refine ⟨entry, by simp, ?_⟩
        rw [attach?] at h
        split at h
        · rename_i he
          exact .inl he
        · split at h
          · rename_i hb
            obtain ⟨rest, hr⟩ := Option.isSome_iff_exists.1 hb
            exact .inr ⟨rest, below?_eq_some_iff.1 hr⟩
          · cases h
      · obtain ⟨other, ho, hother⟩ := ih h
        exact ⟨other, by simp [ho], hother⟩
  obtain ⟨entry, he, hentry⟩ := hfold _ h
  rw [range_eq_filter] at he
  exact ⟨entry, List.mem_of_mem_filter he, hentry⟩

/-- The data tree that entries make. -/
def assigned (entries : List (String × String)) : DataTree := putAll (below [] entries) (new "/")

theorem rootPath_assigned : (assigned entries).rootPath = "" := by
  rw [rootPath, assigned, name_putAll]
  rfl

variable (hc : ∀ entry ∈ entries, Canonical entry.1)

include hc

theorem proper_below : (putAll (below names entries) (new name)).Proper := by
  apply proper_new.putAll
  intro other ho
  obtain ⟨entry, he, rfl⟩ := List.mem_map.1 ho
  obtain ⟨keys, -, hk, hkey⟩ := hc entry (List.mem_of_mem_filter he)
  rw [hkey, segments_absolute hk]
  exact fun name hm => hk name (List.mem_of_mem_drop hm)

theorem proper_assigned : (assigned entries).Proper := proper_below hc

theorem canonical_writeAll : ∀ entry ∈ (writeAll entries empty).entries, Canonical entry.1 := by
  intro entry he
  by_contra hn
  obtain ⟨other, ho, hno⟩ := (exists_mem_writeAll_iff (¬ Canonical ·) entries).1 ⟨entry, he, hn⟩
  exact hno (hc other ho)

theorem look_assigned (hn : names ≠ []) (hs : ∀ name ∈ names, IsName name) :
    (assigned entries).look names = if ∃ entry ∈ entries, names <+: segments entry.1
      then some (lastValue (absolute names) entries) else none := by
  rw [assigned, look_below hc (by simpa using hs), List.nil_append]
  simp only [hn, false_or]

theorem look_stored (hs : ∀ name ∈ names ++ more, IsName name) :
    (putAll (below names (writeAll entries empty).entries) (new name)).look more =
      if more = [] ∨ ∃ entry ∈ entries, names ++ more <+: segments entry.1
      then some (lastValue (absolute (names ++ more)) entries) else none := by
  have hwritten := exists_mem_writeAll_iff (names ++ more <+: segments ·) entries
  rw [look_below (canonical_writeAll hc) hs, lastValue_entries, value?_writeAll]
  simp only [hwritten]

/-- At names the tree and the store have the same. -/
theorem rel_at? (hn : names ≠ []) (hs : ∀ name ∈ names, IsName name) :
    Option.Rel SameData ((assigned entries).at? names)
      ((writeAll entries empty).tree? (absolute names)) := by
  have hkept := canonical_writeAll hc
  have hproper := proper_assigned hc
  have hwritten := exists_mem_writeAll_iff (names <+: segments ·) entries
  have hone := look_assigned hc hn hs
  rw [tree?_absolute hn hs hkept]
  by_cases hr : ∃ entry ∈ entries, names <+: segments entry.1
  · rw [if_pos hr] at hone
    obtain ⟨node, ha, -⟩ := Option.map_eq_some_iff.1 hone
    rw [ha, if_neg (mt below_eq_nil_iff.1 (not_not.2 (hwritten.2 hr)))]
    refine .some (sameData_of_look (hproper.at? ha).1 (proper_below hkept) fun more => ?_)
    by_cases hm : ∀ name ∈ more, IsName name
    · have hnames : ∀ name ∈ names ++ more, IsName name :=
        fun name hmem => (List.mem_append.1 hmem).elim (hs name) (hm name)
      have hnode : node.look more = (assigned entries).look (names ++ more) := by
        rw [look_append, ha, Option.bind_some]
      have hne : names ++ more ≠ [] := fun he => hn (List.append_eq_nil_iff.1 he).1
      rw [hnode, look_assigned hc hne hnames, look_stored hc hnames]
      by_cases he : more = []
      · subst he
        simp [hr]
      · simp only [he, false_or]
    · rw [(hproper.at? ha).1.look_eq_none hm, (proper_below hkept).look_eq_none hm]
  · rw [if_neg hr] at hone
    rw [Option.map_eq_none_iff.1 hone, if_pos (below_eq_nil_iff.2 fun h => hr (hwritten.1 h))]
    exact .none

theorem find?_absolute (hs : ∀ name ∈ names, IsName name) :
    (assigned entries).find? (absolute names) = (assigned entries).at? names := by
  have hf := (proper_assigned hc).find?_foldl_join hs
  rw [rootPath_assigned] at hf
  exact hf

variable (hp : path ≠ "")

include hp

/-- Nothing but canonical paths leads into the tree. -/
theorem find?_eq_none (h : ¬ Canonical path) : (assigned entries).find? path = none := by
  rw [Option.eq_none_iff_forall_ne_some]
  intro node hf
  obtain ⟨names, ht, ha⟩ := (proper_assigned hc).find?_eq_some_iff.1 hf
  rw [rootPath_assigned] at ht
  refine h ⟨names, ?_, ((proper_assigned hc).at? ha).2, ht⟩
  rintro rfl
  exact hp ht

/-- The same holds of the store. -/
theorem tree?_eq_none (h : ¬ Canonical path) : (writeAll entries empty).tree? path = none := by
  rw [← Option.not_isSome_iff_eq_none]
  intro hs
  obtain ⟨entry, he, rfl | ⟨rest, hr⟩⟩ := exists_of_tree? hs
  · exact h (canonical_writeAll hc entry he)
  · obtain ⟨keys, -, hk, hkey⟩ := canonical_writeAll hc entry he
    obtain ⟨k, -, rfl⟩ := exists_of_absolute_eq_join (fun name hm => (hk name hm).2) (hkey ▸ hr)
    refine h ⟨keys.take k, ?_, fun name hm => hk name (List.mem_of_mem_take hm), rfl⟩
    intro he
    rw [he] at hp
    exact hp rfl

/-- At every path but the empty one the tree and the store have the same. -/
theorem rel_find? :
    Option.Rel SameData ((assigned entries).find? path) ((writeAll entries empty).tree? path) := by
  by_cases h : Canonical path
  · obtain ⟨names, hn, hs, rfl⟩ := h
    rw [find?_absolute hc hs]
    exact rel_at? hc hn hs
  · rw [find?_eq_none hc hp h, tree?_eq_none hc hp h]
    exact .none

/-- The value of a node is the last one for its path. -/
theorem value_find? : ((assigned entries).find? path).bind (·.value) = lastValue path entries := by
  by_cases h : Canonical path
  · obtain ⟨names, hn, hs, rfl⟩ := h
    have hjoin : ((assigned entries).find? (absolute names)).bind (·.value) =
        ((assigned entries).look names).join := by
      rw [find?_absolute hc hs, look]
      cases (assigned entries).at? names <;> rfl
    rw [hjoin, look_assigned hc hn hs]
    split
    · rfl
    · rename_i hr
      rw [lastValue_eq_none]
      · rfl
      · intro entry he hkey
        have hsegments : segments entry.1 = names := by rw [hkey, segments_absolute hs]
        exact hr ⟨entry, he, hsegments ▸ List.prefix_rfl⟩
  · rw [find?_eq_none hc hp h, lastValue_eq_none]
    · rfl
    · exact fun entry he hkey => h (hkey ▸ hc entry he)

end Store

/-! ### Lookups of an evaluation -/

namespace Context

/-- The context with all data in the tree. -/
def inTree (ctx : Context) (tree : DataTree) : Context := { ctx with data := tree, source := .none }

/-- The context with all data outside an empty tree. -/
def inStore (ctx : Context) (store : Store) : Context :=
  { ctx with
    data := .new "/", source := store.source,
      settings := { ctx.settings with storeFallback := true } }

variable {ctx : Context} {tree : DataTree} {store : Store} {path : String}

theorem find?_empty (hp : path ≠ "") : (DataTree.new "/").find? path = none := by
  have hroot : (DataTree.new "/").rootPath = "" := rfl
  rw [find?, hroot, if_neg (Ne.symm hp)]
  split <;> rfl

theorem node?_inTree : (ctx.inTree tree).node? path = tree.find? path := by
  rw [node?, inTree]
  cases tree.find? path with
  | some node => rfl
  | none => cases ctx.settings.storeFallback <;> rfl

theorem node?_inStore (hp : path ≠ "") : (ctx.inStore store).node? path = store.tree? path := by
  rw [node?, inStore, find?_empty hp]
  rfl

variable (hp : path ≠ "") (h : Option.Rel SameData (tree.find? path) (store.tree? path))

include hp h

theorem existing?_eq : (ctx.inTree tree).existing? path = (ctx.inStore store).existing? path := by
  rw [existing?, existing?, node?_inTree, node?_inStore hp]
  generalize tree.find? path = found, store.tree? path = kept at h
  cases h with
  | none => rfl
  | some hs =>
    rw [Option.map_some, Option.map_some, hs.1]
    rfl

theorem childCount_eq :
    (ctx.inTree tree).childCount path = (ctx.inStore store).childCount path := by
  rw [childCount, childCount, node?_inTree, node?_inStore hp]
  generalize tree.find? path = found, store.tree? path = kept at h
  cases h with
  | none => rfl
  | some hs => rw [Option.map_some, Option.map_some, hs.length_eq]

omit h

theorem stored?_eq (hv : (tree.find? path).bind (·.value) = store.value? path) :
    (ctx.inTree tree).stored? path = (ctx.inStore store).stored? path := by
  have hstore : (ctx.inStore store).stored? path = store.value? path := by
    rw [stored?, inStore, find?_empty hp]
    rfl
  rw [hstore, ← hv, stored?, inTree]
  cases tree.find? path with
  | some node => rfl
  | none => cases ctx.settings.storeFallback <;> rfl

end Context

namespace Assignment

/-- Assignments make a tree and a store, or neither because of the first text that is none.
If all paths are canonical, then the tree and the store have the same data, and evaluations
read the same there. -/
theorem treeOf_storeOf (texts : List String) :
    (∃ before text after assignments, texts = before ++ text :: after ∧
      List.Forall₂ Spells before assignments ∧ (∀ assignment, ¬ Spells text assignment) ∧
      treeOf texts = .error (.invalid text) ∧ storeOf texts = .error (.invalid text)) ∨
    ∃ assignments tree kept, List.Forall₂ Spells texts assignments ∧
      treeOf texts = .ok tree ∧ storeOf texts = .ok kept ∧
      ((∀ assignment ∈ assignments, Canonical assignment.path) → ∀ path, path ≠ "" →
        Option.Rel SameData (tree.find? path) (kept.tree? path) ∧
        (tree.find? path).bind (·.value) = kept.value? path ∧
        kept.value? path = lastValue path (assignments.map entry) ∧
        ∀ ctx : Context,
          (ctx.inTree tree).existing? path = (ctx.inStore kept).existing? path ∧
          (ctx.inTree tree).stored? path = (ctx.inStore kept).stored? path ∧
          (ctx.inTree tree).childCount path = (ctx.inStore kept).childCount path) := by
  have hroot : (DataTree.new "/").rootPath = "" := rfl
  rcases spells_or_first texts with ⟨assignments, hall⟩ |
    ⟨before, text, after, assignments, rfl, hall, hfirst⟩
  · right
    refine ⟨assignments, assigned (assignments.map entry), writeAll (assignments.map entry) empty,
      hall, foldlM_insert hall hroot, foldlM_store hall, fun hc path hp => ?_⟩
    have hentries : ∀ other ∈ assignments.map entry, Canonical other.1 := by
      intro other ho
      obtain ⟨assignment, ha, rfl⟩ := List.mem_map.1 ho
      exact hc assignment ha
    have hrel := rel_find? hentries hp
    have hvalue : ((assigned (assignments.map entry)).find? path).bind (·.value) =
        (writeAll (assignments.map entry) empty).value? path := by
      rw [value_find? hentries hp, value?_writeAll]
    exact ⟨hrel, hvalue, value?_writeAll, fun ctx =>
      ⟨Context.existing?_eq hp hrel, Context.stored?_eq hp hvalue, Context.childCount_eq hp hrel⟩⟩
  · left
    refine ⟨before, text, after, assignments, rfl, hall, hfirst, ?_, ?_⟩
    · rw [treeOf, List.foldlM_append, foldlM_insert hall hroot]
      exact foldlM_insert_first hfirst
    · rw [storeOf, List.foldlM_append, foldlM_store hall]
      exact foldlM_store_first hfirst

/-- Neither the longer name nor the one with a dash, which stands before the slash in the order of
paths, is taken for a part of `/a`, and the value that comes last is the one that is read. -/
theorem treeOf_storeOf_siblings : ∃ tree kept,
    treeOf ["/a/b=1", "/a-x=2", "/ab=3", "/a/b=4"] = .ok tree ∧
    storeOf ["/a/b=1", "/a-x=2", "/ab=3", "/a/b=4"] = .ok kept ∧
    Option.Rel SameData (tree.find? "/a") (kept.tree? "/a") ∧
    (tree.find? "/a/b").bind (·.value) = some "4" := by
  rcases treeOf_storeOf ["/a/b=1", "/a-x=2", "/ab=3", "/a/b=4"] with
    ⟨before, text, after, assignments, -, -, -, hfail, -⟩ |
      ⟨assignments, tree, kept, hall, ht, hk, hsame⟩
  · have hok : (treeOf ["/a/b=1", "/a-x=2", "/ab=3", "/a/b=4"]).isOk = true := by decide +kernel
    rw [hfail] at hok
    cases hok
  · have hspelled : List.Forall₂ Spells ["/a/b=1", "/a-x=2", "/ab=3", "/a/b=4"]
        [⟨"/a/b", "1"⟩, ⟨"/a-x", "2"⟩, ⟨"/ab", "3"⟩, ⟨"/a/b", "4"⟩] := by
      refine .cons ?_ (.cons ?_ (.cons ?_ (.cons ?_ .nil))) <;> exact ofText_eq_ok_iff.1 (by decide)
    obtain rfl := rightUnique_spells.forall₂ hall hspelled
    have hc :
        ∀ assignment ∈ [⟨"/a/b", "1"⟩, ⟨"/a-x", "2"⟩, ⟨"/ab", "3"⟩, (⟨"/a/b", "4"⟩ : Assignment)],
          Canonical assignment.path := by
      simp only [List.mem_cons, List.not_mem_nil, or_false]
      rintro assignment (rfl | rfl | rfl | rfl)
      · exact ⟨["a", "b"], by decide, by decide, by decide⟩
      · exact ⟨["a-x"], by decide, by decide, by decide⟩
      · exact ⟨["ab"], by decide, by decide, by decide⟩
      · exact ⟨["a", "b"], by decide, by decide, by decide⟩
    obtain ⟨-, hvalue, hlast, -⟩ := hsame hc "/a/b" (by decide)
    refine ⟨tree, kept, ht, hk, (hsame hc "/a" (by decide)).1, ?_⟩
    rw [hvalue, hlast]
    decide

end Assignment

end YangConstraint
