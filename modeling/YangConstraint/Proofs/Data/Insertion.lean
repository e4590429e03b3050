import Mathlib.Data.List.Forall2
import Mathlib.Data.List.Perm.Basic
import YangConstraint.Proofs.Data.Search

/-!
What insertions make of a data tree. At each path stands the value that was put there last, and
there are no other nodes than those on the way. So the order of the insertions shows in the order of
siblings alone.
-/
namespace YangConstraint.DataTree

open YangConstraint.Path

/-- What stands at the end of names: no node, or one with its value. -/
def look (path : List String) (tree : DataTree) : Option (Option String) :=
  (tree.at? path).map (·.value)

variable {tree child : DataTree} {children : List DataTree} {name value : String}
  {names path : List String} {change : DataTree → DataTree}

@[simp] theorem look_nil : tree.look [] = some tree.value := rfl

theorem look_append {more : List String} :
    tree.look (names ++ more) = (tree.at? names).bind (look more) := by
  rw [look, at?_append]
  cases tree.at? names <;> rfl

/-- Only names lead somewhere. -/
theorem Proper.look_eq_none (h : tree.Proper) (hp : ¬ ∀ name ∈ path, IsName name) :
    tree.look path = none := by
  rw [look, Option.map_eq_none_iff, Option.eq_none_iff_forall_ne_some]
  exact fun node ha => hp (h.at? ha).2

theorem look_cons : tree.look (name :: path) = (tree.child? name).bind (look path) := by
  rw [look, at?]
  cases tree.child? name <;> rfl

theorem isSome_look_single : (tree.look [name]).isSome = (tree.child? name).isSome := by
  rw [look_cons]
  cases tree.child? name <;> rfl

theorem look_new : (new name).look path = if path = [] then some none else none := by
  cases path with
  | nil => rfl
  | cons first path => simp [look_cons, DataTree.child?, new]

/-! ### One insertion -/

theorem find?_alter (hc : ∀ child, (change child).name = child.name) (other : String) :
    (alter name change children).find? (·.name = other) =
      if other = name then some (change ((children.find? (·.name = name)).getD (new name)))
      else children.find? (·.name = other) := by
  induction children with
  | nil =>
    by_cases ho : other = name
    · subst ho
      simp [alter, hc, new]
    · simp [alter, hc, new, ho, Ne.symm ho]
  | cons first rest ih =>
    rw [alter]
    by_cases hf : first.name = name
    · subst hf
      by_cases ho : other = first.name
      · subst ho
        simp [hc]
      · simp [hc, ho, Ne.symm ho]
    · rw [if_neg hf, List.find?_cons, ih, List.find?_cons_of_neg (by simpa using hf)]
      by_cases ho : other = name
      · subst ho
        simp [hf]
      · simp only [if_neg ho, List.find?_cons]

theorem child?_put (other : String) : (put value (name :: names) tree).child? other =
    if other = name then some (put value names ((tree.child? name).getD (new name)))
    else tree.child? other :=
  find?_alter (fun _ => name_put) other

/-- The nodes on the way are there afterwards, and the last of them has the value. -/
theorem look_put : (put value names tree).look path =
    if path = names then some (some value)
    else if path <+: names then some (tree.look path).join else tree.look path := by
  induction names generalizing tree path with
  | nil =>
    cases path with
    | nil => rfl
    | cons first path =>
      simp only [look_cons, put, DataTree.child?]
      simp
  | cons name names ih =>
    cases path with
    | nil => simp [put]
    | cons first path =>
      rw [look_cons, child?_put, look_cons]
      by_cases hf : first = name
      · subst hf
        rw [if_pos rfl, Option.bind_some, ih]
        simp only [List.cons.injEq, true_and, List.cons_prefix_cons]
        cases tree.child? first with
        | some child => rfl
        | none =>
          -- The node is a new one.
          rw [Option.getD_none, look_new]
          by_cases hp : path = []
          · subst hp
            simp
          · simp [hp]
      · simp [hf]

theorem map_name_alter (hc : ∀ child, (change child).name = child.name) :
    (alter name change children).map (·.name) =
      if name ∈ children.map (·.name) then children.map (·.name)
      else children.map (·.name) ++ [name] := by
  induction children with
  | nil => simp [alter, hc, new]
  | cons first rest ih =>
    rw [alter]
    by_cases hf : first.name = name
    · simp [hf, hc]
    · rw [if_neg hf, List.map_cons, ih]
      by_cases hm : name ∈ rest.map (·.name)
      · simp [hm]
      · simp [hm, Ne.symm hf]

theorem mem_alter (h : child ∈ alter name change children) :
    child ∈ children ∨ ∃ old, (old ∈ children ∨ old = new name) ∧ child = change old := by
  induction children with
  | nil => exact .inr ⟨new name, .inr rfl, by simpa [alter] using h⟩
  | cons first rest ih =>
    rw [alter] at h
    split at h
    · rcases List.mem_cons.1 h with rfl | h
      · exact .inr ⟨first, .inl (.head _), rfl⟩
      · exact .inl (.tail _ h)
    · rcases List.mem_cons.1 h with rfl | h
      · exact .inl (.head _)
      · rcases ih h with h | ⟨old, ho, rfl⟩
        · exact .inl (.tail _ h)
        · exact .inr ⟨old, ho.imp (.tail _) id, rfl⟩

theorem Proper.put (h : tree.Proper) (hn : ∀ name ∈ names, IsName name) :
    (put value names tree).Proper := by
  induction names generalizing tree with
  | nil =>
    cases h with
    | node distinct named below => exact .node distinct named below
  | cons name names ih =>
    have hname : IsName name := hn name (.head _)
    have hput : ∀ {old : DataTree}, old ∈ tree.children ∨ old = new name →
        IsName (DataTree.put value names old).name ∧ (DataTree.put value names old).Proper := by
      intro old ho
      rw [name_put]
      rcases ho with ho | rfl
      · exact ⟨h.named ho, ih (h.of_mem ho) fun other hm => hn other (.tail _ hm)⟩
      · exact ⟨hname, ih proper_new fun other hm => hn other (.tail _ hm)⟩
    refine .node ?_ ?_ ?_
    · rw [DataTree.put, map_name_alter fun _ => name_put]
      split
      · exact h.distinct
      · rename_i hm
        refine List.nodup_append.2 ⟨h.distinct, by simp, fun other ho last hl he => hm ?_⟩
        rwa [← List.mem_singleton.1 hl, ← he]
    · intro child hc
      rcases mem_alter hc with hc | ⟨old, ho, rfl⟩
      · exact h.named hc
      · exact (hput ho).1
    · intro child hc
      rcases mem_alter hc with hc | ⟨old, ho, rfl⟩
      · exact h.of_mem hc
      · exact (hput ho).2

/-! ### One insertion after the other -/

/-- Puts values at the end of names, one after the other. -/
def putAll (entries : List (List String × String)) (tree : DataTree) : DataTree :=
  entries.foldl (fun tree entry => tree.put entry.2 entry.1) tree

/-- The value of the last entry for a key. -/
def lastValue {κ : Type} [DecidableEq κ] (key : κ) (entries : List (κ × String)) : Option String :=
  (entries.reverse.find? (·.1 = key)).map (·.2)

variable {entries : List (List String × String)} {entry : List String × String}

theorem putAll_concat :
    putAll (entries ++ [entry]) tree = put entry.2 entry.1 (putAll entries tree) := by
  rw [putAll, List.foldl_append]
  rfl

theorem name_putAll : (putAll entries tree).name = tree.name := by
  induction entries using List.reverseRecOn with
  | nil => rfl
  | append_singleton entries entry ih => rw [putAll_concat, name_put, ih]

theorem Proper.putAll (h : tree.Proper) (hn : ∀ entry ∈ entries, ∀ name ∈ entry.1, IsName name) :
    (putAll entries tree).Proper := by
  induction entries using List.reverseRecOn with
  | nil => exact h
  | append_singleton entries entry ih =>
    rw [putAll_concat]
    exact (ih fun other ho => hn other (by simp [ho])).put (hn entry (by simp))

theorem lastValue_concat {κ : Type} [DecidableEq κ] (key : κ) (entries : List (κ × String))
    (entry : κ × String) :
    lastValue key (entries ++ [entry]) =
      if entry.1 = key then some entry.2 else lastValue key entries := by
  rw [lastValue, List.reverse_append]
  by_cases he : entry.1 = key <;> simp [he, lastValue]

theorem lastValue_eq_none {κ : Type} [DecidableEq κ] {key : κ} {entries : List (κ × String)}
    (h : ∀ entry ∈ entries, entry.1 ≠ key) : lastValue key entries = none := by
  rw [lastValue, Option.map_eq_none_iff, List.find?_eq_none]
  intro entry he
  simpa using h entry (List.mem_reverse.1 he)

/-- In a new tree there are the nodes on the way to what was put, with the last values. -/
theorem look_putAll_new : (putAll entries (new name)).look path =
    if path = [] ∨ ∃ entry ∈ entries, path <+: entry.1 then some (lastValue path entries)
    else none := by
  induction entries using List.reverseRecOn with
  | nil =>
    rw [putAll, List.foldl_nil, look_new]
    by_cases hp : path = [] <;> simp [hp, lastValue]
  | append_singleton entries entry ih =>
    rw [putAll_concat, look_put, ih, lastValue_concat]
    have hreach : (∃ other ∈ entries ++ [entry], path <+: other.1) ↔
        (∃ other ∈ entries, path <+: other.1) ∨ path <+: entry.1 := by
      simp only [List.mem_append, List.mem_singleton, or_and_right, exists_or, exists_eq_left]
    simp only [hreach]
    by_cases he : path = entry.1
    · subst he
      simp
    · rw [if_neg he, if_neg (Ne.symm he)]
      by_cases hp : path <+: entry.1
      · have hnow : path = [] ∨ (∃ other ∈ entries, path <+: other.1) ∨ path <+: entry.1 :=
          .inr (.inr hp)
        rw [if_pos hp, if_pos hnow]
        by_cases hold : path = [] ∨ ∃ other ∈ entries, path <+: other.1
        · rw [if_pos hold]
          rfl
        · rw [if_neg hold,
            lastValue_eq_none fun other ho heq => hold (.inr ⟨other, ho, heq ▸ List.prefix_rfl⟩)]
          rfl
      · rw [if_neg hp]
        simp only [hp, or_false]

/-! ### Insertions at any paths -/

section

variable {target rest : String}

/-- Inserts a value and tells whether the path lies below the root. Where it does
not, the tree stays. -/
def insert (target value : String) (tree : DataTree) : Bool × DataTree :=
  match tree.insert? target value with
  | some grown => (true, grown)
  | none => (false, tree)

/-- The tree after insertions, one after the other. -/
def insertAll (entries : List (String × String)) (tree : DataTree) : DataTree :=
  entries.foldl (fun tree entry => (tree.insert entry.1 entry.2).2) tree

theorem insert_below :
    tree.insert (join tree.rootPath rest) value = (true, put value (segments rest) tree) := by
  have hbelow : below? tree.rootPath (join tree.rootPath rest) = some rest :=
    below?_eq_some_iff.2 rfl
  simp [insert, insert?, hbelow]

theorem insert_apart (h : ¬ ∃ rest, target = join tree.rootPath rest) :
    tree.insert target value = (false, tree) := by
  have hnone : tree.insert? target value = none := by
    apply insert?_eq_none_iff.2
    intro rest ht
    exact h ⟨rest, ht⟩
  simp [insert, hnone]

/-- An insertion is refused exactly where its path does not lie below that of the root. -/
theorem insert_refused_iff :
    (tree.insert target value).1 = false ↔ ¬ ∃ rest, target = join tree.rootPath rest := by
  constructor
  · rintro h ⟨rest, rfl⟩
    rw [insert_below] at h
    cases h
  · intro h
    rw [insert_apart h]

theorem insert_of_refused (h : (tree.insert target value).1 = false) :
    (tree.insert target value).2 = tree := by
  rw [insert_apart (insert_refused_iff.1 h)]

theorem rootPath_insert : (tree.insert target value).2.rootPath = tree.rootPath := by
  by_cases h : ∃ rest, target = join tree.rootPath rest
  · obtain ⟨rest, rfl⟩ := h
    rw [insert_below]
    show (put value (segments rest) tree).rootPath = tree.rootPath
    rw [rootPath, name_put, rootPath]
  · rw [insert_apart h]

/-- The segments of a path are names, so an insertion keeps siblings apart. -/
theorem Proper.insert (h : tree.Proper) : (tree.insert target value).2.Proper := by
  by_cases hb : ∃ rest, target = join tree.rootPath rest
  · obtain ⟨rest, rfl⟩ := hb
    rw [insert_below]
    apply h.put
    intro name hn
    exact isName_of_mem_segments hn
  · rwa [insert_apart hb]

/-- What stands at names after one insertion. A node that was there before keeps its value. -/
theorem look_insert : (tree.insert (join tree.rootPath rest) value).2.look path =
    if path = segments rest then some (some value)
    else if (tree.look path).isSome then tree.look path
    else if path <+: segments rest then some none
    else none := by
  rw [insert_below, look_put]
  by_cases he : path = segments rest
  · simp [he]
  · rw [if_neg he, if_neg he]
    cases tree.look path with
    | none => simp
    | some old => simp

theorem Proper.value_find? (h : tree.Proper) (hn : ∀ name ∈ names, IsName name) :
    (tree.find? (names.foldl join tree.rootPath)).map (·.value) = tree.look names := by
  rw [h.find?_foldl_join hn, look]

/-- What the search finds at a path of names after one insertion. -/
theorem Proper.value_find?_insert (h : tree.Proper) (hn : ∀ name ∈ names, IsName name) :
    ((tree.insert (join tree.rootPath rest) value).2.find? (names.foldl join tree.rootPath)).map
      (·.value) =
      if names = segments rest then some (some value)
      else if (tree.find? (names.foldl join tree.rootPath)).isSome
        then (tree.find? (names.foldl join tree.rootPath)).map (·.value)
      else if names <+: segments rest then some none
      else none := by
  have hafter : (tree.insert (join tree.rootPath rest) value).2.Proper := h.insert
  have hfound := hafter.value_find? hn
  rw [rootPath_insert, look_insert] at hfound
  rw [hfound, ← h.value_find? hn, Option.isSome_map]

theorem insertAll_cons (entry : String × String) (entries : List (String × String)) :
    insertAll (entry :: entries) tree = insertAll entries (tree.insert entry.1 entry.2).2 := by
  rw [insertAll, List.foldl_cons, insertAll]

theorem rootPath_insertAll (entries : List (String × String)) (tree : DataTree) :
    (insertAll entries tree).rootPath = tree.rootPath := by
  induction entries generalizing tree with
  | nil => rfl
  | cons entry entries ih => rw [insertAll_cons, ih, rootPath_insert]

theorem Proper.insertAll (h : tree.Proper) (entries : List (String × String)) :
    (insertAll entries tree).Proper := by
  induction entries generalizing tree with
  | nil => exact h
  | cons entry entries ih =>
    rw [insertAll_cons]
    exact ih h.insert

/-- Insertions make a finite map of a new tree, whatever its name and the paths. One of them is
refused exactly where its path does not lie below that of the root, and changes nothing then. If it
is not refused, there is the value at its path; each other path of names keeps its node and value,
or gets a node without a value on the way to the inserted one, or still has none. -/
theorem insert_finiteMap (root : String) (entries : List (String × String))
    (target value : String) :
    let base := (new root).rootPath
    let tree := insertAll entries (new root)
    tree.Proper ∧
      ((tree.insert target value).1 = false ↔ ¬ ∃ rest, target = join base rest) ∧
      ((tree.insert target value).1 = false → (tree.insert target value).2 = tree) ∧
      ∀ rest, target = join base rest → ∀ names, (∀ name ∈ names, IsName name) →
        ((tree.insert target value).2.find? (names.foldl join base)).map (·.value) =
          if names = segments rest then some (some value)
          else if (tree.find? (names.foldl join base)).isSome
            then (tree.find? (names.foldl join base)).map (·.value)
          else if names <+: segments rest then some none
          else none := by
  have hproper : (insertAll entries (new root)).Proper := proper_new.insertAll entries
  dsimp only
  rw [← rootPath_insertAll entries (new root)]
  refine ⟨hproper, insert_refused_iff, insert_of_refused, ?_⟩
  rintro rest rfl names hn
  exact hproper.value_find?_insert hn

/-- In a tree at `/r`, which refuses `/rx/a`, the path `/r//ab/` stands for `/r/ab`. The
insertion at `/r/a/b/c` then finds `/r/a` with its value, makes `/r/a/b`, and comes near
neither `/r/ab` nor `/r/a/bc`. -/
theorem insert_finiteMap_prefixes :
    let tree := insertAll [("/r/a", "1"), ("/rx/a", "2"), ("/r//ab/", "3")] (new "r")
    let after := (tree.insert "/r/a/b/c" "4").2
    (tree.insert "/rx" "4").1 = false ∧ (tree.insert "/r/a/b/c" "4").1 = true ∧
      (after.find? "/r/a/b/c").map (·.value) = some (some "4") ∧
      (after.find? "/r/a").map (·.value) = some (some "1") ∧
      (after.find? "/r/a/b").map (·.value) = some none ∧
      (after.find? "/r/ab").map (·.value) = some (some "3") ∧
      (after.find? "/r/a/bc").map (·.value) = none := by
  intro tree after
  obtain ⟨-, -, -, hmap⟩ :=
    insert_finiteMap "r" [("/r/a", "1"), ("/rx/a", "2"), ("/r//ab/", "3")] "/r/a/b/c" "4"
  have hat := hmap "a/b/c" (by decide)
  refine ⟨by decide +kernel, by decide +kernel, ?_, ?_, ?_, ?_, ?_⟩
  · exact (hat ["a", "b", "c"] (by decide)).trans (by decide +kernel)
  · exact (hat ["a"] (by decide)).trans (by decide +kernel)
  · exact (hat ["a", "b"] (by decide)).trans (by decide +kernel)
  · exact (hat ["ab"] (by decide)).trans (by decide +kernel)
  · exact (hat ["a", "bc"] (by decide)).trans (by decide +kernel)

end

/-! ### Trees with the same data -/

/-- The same name and value, and alike children once those of the second tree are
put in some order. -/
inductive Alike : DataTree → DataTree → Prop where
  | node {name : String} {value : Option String} {as bs ordered : List DataTree}
    (order : bs.Perm ordered) (h : List.Forall₂ Alike as ordered) :
    Alike ⟨name, value, as⟩ ⟨name, value, bs⟩

/-- The same value and children, whatever the names of the two nodes. -/
def SameData (a b : DataTree) : Prop :=
  a.value = b.value ∧ ∃ ordered, b.children.Perm ordered ∧ List.Forall₂ Alike a.children ordered

theorem SameData.length_eq {a b : DataTree} (h : SameData a b) :
    a.children.length = b.children.length := by
  obtain ⟨-, ordered, hp, hf⟩ := h
  rw [hf.length_eq, hp.length_eq]

theorem SameData.alike {a b : DataTree} (h : SameData a b) (hn : a.name = b.name) : Alike a b := by
  obtain ⟨hv, ordered, hp, hf⟩ := h
  cases a
  cases b
  obtain rfl : _ = _ := hn
  obtain rfl : _ = _ := hv
  exact .node hp hf

/-- The child of the same name in another tree. -/
def counterpart (tree child : DataTree) : DataTree := (tree.child? child.name).getD child

/-- Where two trees have children of the same names, those of the second are the
counterparts of the first. -/
theorem perm_counterpart {a b : DataTree} (ha : a.Proper) (hb : b.Proper)
    (h : ∀ name, (a.child? name).isSome = (b.child? name).isSome) :
    b.children.Perm (a.children.map b.counterpart) := by
  have hfound : ∀ child ∈ a.children, ∃ other ∈ b.children, other.name = child.name ∧
      b.counterpart child = other := by
    intro child hc
    have hs := h child.name
    rw [ha.child? hc, Option.isSome_some] at hs
    obtain ⟨other, ho⟩ := Option.isSome_iff_exists.1 hs.symm
    obtain ⟨hm, hn⟩ := child?_eq_some ho
    exact ⟨other, hm, hn, by rw [counterpart, ho]; rfl⟩
  have hnames : (a.children.map b.counterpart).map (·.name) = a.children.map (·.name) := by
    rw [List.map_map]
    apply List.map_congr_left
    intro child hc
    obtain ⟨other, -, hn, heq⟩ := hfound child hc
    rw [Function.comp_apply, heq, hn]
  have hdistinct : (a.children.map b.counterpart).Nodup :=
    List.Nodup.of_map (·.name) (hnames ▸ ha.distinct)
  rw [List.perm_ext_iff_of_nodup (List.Nodup.of_map _ hb.distinct) hdistinct]
  intro other
  rw [List.mem_map]
  constructor
  · intro ho
    have hs := h other.name
    rw [hb.child? ho, Option.isSome_some] at hs
    obtain ⟨child, hc⟩ := Option.isSome_iff_exists.1 hs
    obtain ⟨hm, hn⟩ := child?_eq_some hc
    exact ⟨child, hm, by rw [counterpart, hn, hb.child? ho]; rfl⟩
  · rintro ⟨child, hc, rfl⟩
    obtain ⟨other, ho, -, heq⟩ := hfound child hc
    rw [heq]
    exact ho

/-- Trees in which the same stands at all paths have the same data. -/
theorem sameData_of_look {a b : DataTree} (ha : a.Proper) (hb : b.Proper)
    (h : ∀ path, a.look path = b.look path) : SameData a b := by
  refine ⟨by simpa using h [], a.children.map b.counterpart,
    perm_counterpart ha hb fun name => ?_, ?_⟩
  · rw [← isSome_look_single, h, isSome_look_single]
  · rw [List.forall₂_map_right_iff, List.forall₂_same]
    intro child hc
    -- The same stands below a child and its counterpart.
    have hlook : ∀ path, child.look path = a.look (child.name :: path) := by
      intro path
      rw [look_cons, ha.child? hc, Option.bind_some]
    have hone := h [child.name]
    rw [← hlook, look_cons, look_nil] at hone
    obtain ⟨other, ho, -⟩ := Option.bind_eq_some_iff.1 hone.symm
    obtain ⟨hm, hname⟩ := child?_eq_some ho
    have hsame : ∀ path, child.look path = other.look path := by
      intro path
      rw [hlook, h, look_cons, ho, Option.bind_some]
    have halike := (sameData_of_look (ha.of_mem hc) (hb.of_mem hm) hsame).alike hname.symm
    rw [counterpart, ho]
    exact halike
termination_by sizeOf a
decreasing_by
  have := List.sizeOf_lt_of_mem hc
  cases a
  simp_all
  omega

end YangConstraint.DataTree
