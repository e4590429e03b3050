import Mathlib.Data.List.Nodup
import YangConstraint.DataTree
import YangConstraint.Proofs.Data.Path

/-!
Search in a data tree. Where siblings have names of their own, the search for a path comes to the
node that the names of the path lead to, one after the other.
-/
namespace YangConstraint.DataTree

open YangConstraint.Path

/-- The names of siblings differ, and each of them can stand in a path. -/
inductive Proper : DataTree → Prop where
  | node {tree : DataTree} (distinct : (tree.children.map (·.name)).Nodup)
    (named : ∀ child ∈ tree.children, IsName child.name)
    (below : ∀ child ∈ tree.children, Proper child) :
    Proper tree

/-- The node that names lead to, from one child to the next. -/
def at? : (names : List String) → DataTree → Option DataTree
  | [], tree => some tree
  | name :: names, tree => (tree.child? name).bind (at? names)

variable {tree child node : DataTree} {children : List DataTree} {own target name : String}
  {names more : List String}

theorem Proper.distinct (h : tree.Proper) : (tree.children.map (·.name)).Nodup := by
  cases h
  assumption

theorem Proper.named (h : tree.Proper) (hc : child ∈ tree.children) : IsName child.name := by
  cases h with
  | node _ named _ => exact named child hc

theorem Proper.of_mem (h : tree.Proper) (hc : child ∈ tree.children) : child.Proper := by
  cases h with
  | node _ _ below => exact below child hc

theorem proper_new : (new name).Proper := by
  refine .node ?_ ?_ ?_ <;> simp [new]

theorem child?_eq_some (h : tree.child? name = some child) :
    child ∈ tree.children ∧ child.name = name :=
  ⟨List.mem_of_find?_eq_some h, by simpa using List.find?_some h⟩

/-- Where keys differ, an element is found by its key. -/
theorem find?_of_nodup_map {α κ : Type} [DecidableEq κ] {f : α → κ} {xs : List α} {x : α}
    (h : (xs.map f).Nodup) (hx : x ∈ xs) : xs.find? (f · = f x) = some x := by
  have hs : (xs.find? (f · = f x)).isSome := List.find?_isSome.2 ⟨x, hx, decide_eq_true rfl⟩
  obtain ⟨other, ho⟩ := Option.isSome_iff_exists.1 hs
  have hkey : f other = f x := by simpa using List.find?_some ho
  rw [ho, List.inj_on_of_nodup_map h (List.mem_of_find?_eq_some ho) hx hkey]

theorem Proper.child? (h : tree.Proper) (hc : child ∈ tree.children) :
    tree.child? child.name = some child :=
  find?_of_nodup_map h.distinct hc

theorem at?_append : tree.at? (names ++ more) = (tree.at? names).bind (at? more) := by
  induction names generalizing tree with
  | nil => rfl
  | cons name names ih =>
    rw [List.cons_append, at?, at?]
    cases tree.child? name with
    | none => rfl
    | some child => exact ih

theorem Proper.at? (h : tree.Proper) (ha : tree.at? names = some node) :
    node.Proper ∧ ∀ name ∈ names, IsName name := by
  induction names generalizing tree with
  | nil =>
    obtain rfl := Option.some.inj ha
    exact ⟨h, by simp⟩
  | cons name names ih =>
    obtain ⟨child, hc, hchild⟩ := Option.bind_eq_some_iff.1 ha
    obtain ⟨hm, rfl⟩ := child?_eq_some hc
    obtain ⟨hp, hn⟩ := ih (h.of_mem hm) hchild
    exact ⟨hp, fun name hmem => (List.mem_cons.1 hmem).elim (fun he => he ▸ h.named hm) (hn name)⟩

/-- The name of a tree that is a path of names is its path. -/
theorem rootPath_absolute (hn : names ≠ []) (hs : ∀ name ∈ names, IsName name)
    (ht : tree.name = absolute names) : tree.rootPath = absolute names := by
  obtain ⟨cs, hcs⟩ := toList_absolute hn
  -- The path does not end with a slash.
  have htrim : ((absolute names).toList.reverse.dropWhile (· = '/')).reverse =
      (absolute names).toList := by
    obtain ⟨before, last, rfl⟩ := (List.eq_nil_or_concat' names).resolve_left hn
    have hlast := hs last (by simp)
    have hjoin : absolute (before ++ [last]) = join (absolute before) last := by simp [absolute]
    obtain ⟨c, rest, hc⟩ : ∃ c rest, last.toList.reverse = c :: rest := by
      refine List.exists_cons_of_ne_nil fun he => hlast.1 ?_
      rwa [List.reverse_eq_nil_iff, String.toList_eq_nil_iff] at he
    have hne : c ≠ '/' := by
      rintro rfl
      exact hlast.2 (List.mem_reverse.1 (hc ▸ .head _))
    rw [hjoin, toList_join, List.reverse_append, List.reverse_cons, hc, List.cons_append,
      List.cons_append, List.dropWhile_cons, if_neg (by simpa using hne), ← List.cons_append,
      ← List.cons_append, ← hc]
    simp
  rw [rootPath, ht, htrim.trans hcs]
  exact (congrArg String.ofList hcs).symm.trans String.ofList_toList

/-! ### What is found -/

mutual

/-- What is found below a path stands at the end of names that lead there. -/
theorem at?_of_findBelow {own target : String} {node : DataTree} (tree : DataTree) (h : tree.Proper)
    (hf : findBelow own target tree = some node) :
    ∃ names, names ≠ [] ∧ target = names.foldl join own ∧ tree.at? names = some node := by
  cases tree with
  | mk rootName value children =>
    obtain ⟨child, hc, names, ht, ha⟩ := at?_of_findAmong children (fun child hc => h.of_mem hc) hf
    refine ⟨child.name :: names, List.cons_ne_nil _ _, ht, ?_⟩
    rw [DataTree.at?, h.child? hc]
    exact ha

theorem at?_of_findAmong {own target : String} {node : DataTree} (children : List DataTree)
    (h : ∀ child ∈ children, child.Proper) (hf : findAmong own target children = some node) :
    ∃ child ∈ children, ∃ names, target = names.foldl join (join own child.name) ∧
      child.at? names = some node := by
  cases children with
  | nil => cases hf
  | cons child rest =>
    rw [findAmong] at hf
    split at hf
    · rename_i hp
      exact ⟨child, .head _, [], hp.symm, hf⟩
    · split at hf
      · rename_i found hb
        obtain rfl := Option.some.inj hf
        split at hb
        · obtain ⟨names, -, ht, ha⟩ := at?_of_findBelow child (h child (.head _)) hb
          exact ⟨child, .head _, names, ht, ha⟩
        · cases hb
      · obtain ⟨other, ho, found⟩ := at?_of_findAmong rest (fun other ho => h other (.tail _ ho)) hf
        exact ⟨other, .tail _ ho, found⟩

end

/-- The search comes to an end at a child that has the path, or has it below. -/
theorem isSome_findAmong (hc : child ∈ children)
    (h : join own child.name = target ∨ (Text.startsWith (join own child.name) target = true ∧
      (findBelow (join own child.name) target child).isSome)) :
    (findAmong own target children).isSome := by
  induction children with
  | nil => cases hc
  | cons first rest ih =>
    rw [findAmong]
    split
    · rfl
    · rename_i hp
      split
      · rfl
      · rename_i hb
        rcases List.mem_cons.1 hc with rfl | hc
        · rcases h with h | ⟨hs, h⟩
          · exact absurd h hp
          · rw [if_pos hs] at hb
            rw [hb] at h
            cases h
        · exact ih hc

theorem startsWith_foldl_join (names : List String) :
    Text.startsWith own (names.foldl join own) = true := by
  rw [Text.startsWith_iff]
  by_cases h : names = []
  · subst h
    exact ⟨"", by simp⟩
  · obtain ⟨rest, hr⟩ := exists_foldl_join own h
    exact ⟨"/" ++ rest, by rw [hr, join, String.append_assoc]⟩

theorem isSome_findBelow (ha : tree.at? names = some node) (hn : names ≠ []) :
    (findBelow own (names.foldl join own) tree).isSome := by
  induction names generalizing own tree with
  | nil => exact absurd rfl hn
  | cons name names ih =>
    obtain ⟨child, hc, hchild⟩ := Option.bind_eq_some_iff.1 ha
    obtain ⟨hm, rfl⟩ := child?_eq_some hc
    cases tree with
    | mk rootName value children =>
      rw [findBelow]
      apply isSome_findAmong hm
      by_cases he : names = []
      · subst he
        exact .inl rfl
      · exact .inr ⟨startsWith_foldl_join names, ih hchild he⟩

/-- The search finds just what the names of the path lead to. -/
theorem Proper.find?_eq_some_iff (h : tree.Proper) : tree.find? target = some node ↔
    ∃ names, target = names.foldl join tree.rootPath ∧ tree.at? names = some node := by
  constructor
  · intro hf
    rw [find?] at hf
    split at hf
    · rename_i hr
      exact ⟨[], hr.symm, hf⟩
    · split at hf
      · obtain ⟨names, -, ht, ha⟩ := at?_of_findBelow tree h hf
        exact ⟨names, ht, ha⟩
      · cases hf
  · rintro ⟨names, rfl, ha⟩
    by_cases hn : names = []
    · subst hn
      rw [find?]
      exact (if_pos rfl).trans ha
    · obtain ⟨rest, hr⟩ := exists_foldl_join tree.rootPath hn
      obtain ⟨found, hf⟩ := Option.isSome_iff_exists.1 (@isSome_findBelow _ _ tree.rootPath _ ha hn)
      -- No other names lead to the same path.
      obtain ⟨others, -, ho, hb⟩ := at?_of_findBelow tree h hf
      obtain rfl := foldl_join_inj (h.at? ha).2 (h.at? hb).2 ho
      have hbelow : (below? tree.rootPath (names.foldl join tree.rootPath)).isSome = true := by
        rw [below?_eq_some_iff.2 hr]
        rfl
      have hne : tree.rootPath ≠ names.foldl join tree.rootPath :=
        fun he => join_ne_self _ _ (hr ▸ he.symm)
      rw [find?]
      rw [if_neg hne, if_pos hbelow, hf, ← hb, ha]

/-- The search for a path of names. -/
theorem Proper.find?_foldl_join (h : tree.Proper) (hn : ∀ name ∈ names, IsName name) :
    tree.find? (names.foldl join tree.rootPath) = tree.at? names := by
  apply Option.ext
  intro node
  rw [h.find?_eq_some_iff]
  constructor
  · rintro ⟨others, ho, ha⟩
    obtain rfl := foldl_join_inj hn (h.at? ha).2 ho
    exact ha
  · exact fun ha => ⟨names, rfl, ha⟩

end YangConstraint.DataTree
