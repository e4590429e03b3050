import Mathlib.Tactic.Common
import YangConstraint.Proofs.Data.Search

/-!
Going through a data tree. A visit takes its state to every node below the root, in the order of the
walk. Whatever the names are, the search finds the first node that the walk comes to. Where siblings
have names of their own, the walk comes to just the paths that the search finds, but for that of the
root.
-/
namespace YangConstraint.DataTree

open YangConstraint.Path

variable {σ : Type} {tree child node : DataTree} {children : List DataTree} {own path : String}
  {names : List String} {place : String × DataTree}

/-! ### Visits -/

mutual

/-- Takes a state to the nodes below a tree at the path `own`, to each before its own children. -/
def visitBelow (step : σ → String → DataTree → σ) (own : String) : DataTree → σ → σ
  | ⟨_, _, children⟩, s => visitAll step own children s

def visitAll (step : σ → String → DataTree → σ) (own : String) : List DataTree → σ → σ
  | [], s => s
  | child :: rest, s =>
    let path := join own child.name
    visitAll step own rest (visitBelow step path child (step s path child))

end

/-- Takes a state to all nodes below the root. No node can end the visit. -/
def visit (step : σ → String → DataTree → σ) (tree : DataTree) (s : σ) : σ :=
  visitBelow step tree.rootPath tree s

mutual

theorem visitBelow_eq_foldl (step : σ → String → DataTree → σ) (own : String) (tree : DataTree)
    (s : σ) :
    visitBelow step own tree s =
      (walkBelow own tree).foldl (fun s place => step s place.1 place.2) s := by
  cases tree with
  | mk name value children => rw [visitBelow, walkBelow, visitAll_eq_foldl]

theorem visitAll_eq_foldl (step : σ → String → DataTree → σ) (own : String)
    (children : List DataTree) (s : σ) :
    visitAll step own children s =
      (walkAll own children).foldl (fun s place => step s place.1 place.2) s := by
  cases children with
  | nil => rfl
  | cons child rest =>
    rw [visitAll, walkAll, List.foldl_cons, List.foldl_append, visitAll_eq_foldl,
      visitBelow_eq_foldl]

end

/-- A visit goes along the walk. -/
theorem visit_eq_foldl (step : σ → String → DataTree → σ) (tree : DataTree) (s : σ) :
    tree.visit step s = tree.walk.foldl (fun s place => step s place.1 place.2) s :=
  visitBelow_eq_foldl step tree.rootPath tree s

/-! ### Where a walk comes to -/

theorem mem_walkAll_iff : place ∈ walkAll own children ↔
    ∃ child ∈ children, place = (join own child.name, child) ∨
      place ∈ walkBelow (join own child.name) child := by
  induction children with
  | nil => simp [walkAll]
  | cons first rest ih => simp [walkAll, ih, or_assoc]

theorem mem_walkBelow_iff : place ∈ walkBelow own tree ↔ ∃ child ∈ tree.children,
    place = (join own child.name, child) ∨ place ∈ walkBelow (join own child.name) child := by
  cases tree with
  | mk name value children => rw [walkBelow, mem_walkAll_iff]

theorem mem_walkBelow_of_at? (hn : names ≠ []) (ha : tree.at? names = some node) :
    (names.foldl join own, node) ∈ walkBelow own tree := by
  induction names generalizing own tree with
  | nil => exact absurd rfl hn
  | cons name names ih =>
    obtain ⟨child, hc, hchild⟩ := Option.bind_eq_some_iff.1 ha
    obtain ⟨hm, rfl⟩ := child?_eq_some hc
    rw [mem_walkBelow_iff]
    refine ⟨child, hm, ?_⟩
    by_cases he : names = []
    · subst he
      obtain rfl := Option.some.inj hchild
      exact .inl rfl
    · exact .inr (ih he hchild)

/-- Where siblings have names of their own, a walk comes to what the names of its path lead to. -/
theorem Proper.at?_of_mem_walkBelow (h : tree.Proper) (hw : (path, node) ∈ walkBelow own tree) :
    ∃ names, names ≠ [] ∧ path = names.foldl join own ∧ tree.at? names = some node := by
  induction h generalizing own with
  | @node tree distinct named below ih =>
    obtain ⟨child, hc, hw⟩ := mem_walkBelow_iff.1 hw
    have hchild : tree.child? child.name = some child :=
      (Proper.node distinct named below).child? hc
    rcases hw with hw | hw
    · obtain ⟨rfl, rfl⟩ := Prod.mk.inj hw
      exact ⟨[node.name], List.cons_ne_nil _ _, rfl, by rw [DataTree.at?, hchild]; rfl⟩
    · obtain ⟨names, -, hp, ha⟩ := ih child hc hw
      exact ⟨child.name :: names, List.cons_ne_nil _ _, hp, by rw [DataTree.at?, hchild]; exact ha⟩

/-- A walk comes to each node that the search finds, except for the root. -/
theorem Proper.mem_walk_iff (h : tree.Proper) :
    (path, node) ∈ tree.walk ↔ path ≠ tree.rootPath ∧ tree.find? path = some node := by
  rw [h.find?_eq_some_iff]
  constructor
  · intro hw
    obtain ⟨names, hn, rfl, ha⟩ := h.at?_of_mem_walkBelow hw
    obtain ⟨rest, hr⟩ := exists_foldl_join tree.rootPath hn
    exact ⟨hr ▸ join_ne_self tree.rootPath rest, names, rfl, ha⟩
  · rintro ⟨hne, names, rfl, ha⟩
    have hn : names ≠ [] := by
      rintro rfl
      exact hne rfl
    exact mem_walkBelow_of_at? hn ha

/-! ### What a search finds -/

mutual

/-- A walk stays below the path that it starts from. -/
theorem exists_join_of_mem_walkBelow {own : String} {place : String × DataTree} (tree : DataTree)
    (h : place ∈ walkBelow own tree) : ∃ rest, place.1 = join own rest := by
  cases tree with
  | mk name value children => exact exists_join_of_mem_walkAll children h

theorem exists_join_of_mem_walkAll {own : String} {place : String × DataTree}
    (children : List DataTree) (h : place ∈ walkAll own children) :
    ∃ rest, place.1 = join own rest := by
  cases children with
  | nil => cases h
  | cons child rest =>
    rw [walkAll, List.mem_cons, List.mem_append] at h
    rcases h with rfl | h | h
    · exact ⟨child.name, rfl⟩
    · obtain ⟨below, hb⟩ := exists_join_of_mem_walkBelow child h
      exact ⟨join child.name below, hb.trans (join_join ..)⟩
    · exact exists_join_of_mem_walkAll rest h

end

/-- Below a path that does not begin the target there is nothing to find. -/
theorem find?_walkBelow_of_not_startsWith {target : String}
    (h : ¬ Text.startsWith own target = true) :
    (walkBelow own tree).find? (·.1 = target) = none := by
  rw [List.find?_eq_none]
  intro place hp ht
  obtain ⟨rest, hr⟩ := exists_join_of_mem_walkBelow tree hp
  apply h
  rw [Text.startsWith_iff]
  refine ⟨"/" ++ rest, ?_⟩
  rw [← of_decide_eq_true ht, hr, join, String.append_assoc]

mutual

/-- The search passes over what cannot hold the target, and finds what the walk comes to first. -/
theorem findBelow_eq_find?_walkBelow (own target : String) (tree : DataTree) :
    findBelow own target tree = ((walkBelow own tree).find? (·.1 = target)).map (·.2) := by
  cases tree with
  | mk name value children => exact findAmong_eq_find?_walkAll own target children

theorem findAmong_eq_find?_walkAll (own target : String) (children : List DataTree) :
    findAmong own target children = ((walkAll own children).find? (·.1 = target)).map (·.2) := by
  cases children with
  | nil => rfl
  | cons child rest =>
    rw [findAmong, walkAll]
    by_cases hp : join own child.name = target
    · simp [hp]
    · have hbelow : (if Text.startsWith (join own child.name) target then
          findBelow (join own child.name) target child else none) =
            ((walkBelow (join own child.name) child).find? (·.1 = target)).map (·.2) := by
        split
        · exact findBelow_eq_find?_walkBelow _ target child
        · rename_i hs
          rw [find?_walkBelow_of_not_startsWith hs]
          rfl
      rw [if_neg hp, hbelow, findAmong_eq_find?_walkAll own target rest,
        List.find?_cons_of_neg (by simpa using hp), List.find?_append]
      cases (walkBelow (join own child.name) child).find? (·.1 = target) <;> rfl

end

/-- The search finds the root, or else what the walk comes to first at the target,
whatever the names are. -/
theorem find?_eq_find?_walk (tree : DataTree) (target : String) : tree.find? target =
    if tree.rootPath = target then some tree else (tree.walk.find? (·.1 = target)).map (·.2) := by
  rw [find?]
  apply if_congr Iff.rfl rfl
  split
  · exact findBelow_eq_find?_walkBelow tree.rootPath target tree
  · rename_i hb
    have hnone : tree.walk.find? (·.1 = target) = none := by
      rw [List.find?_eq_none]
      intro place hp ht
      obtain ⟨rest, hr⟩ := exists_join_of_mem_walkBelow tree hp
      apply hb
      rw [below?_eq_some_iff.2 ((of_decide_eq_true ht).symm.trans hr)]
      rfl
    rw [hnone]
    rfl

/-- Names that begin one another, that are empty, that hold a slash, and the same name twice. -/
example :
    let tree : DataTree := ⟨"/r/", none, [⟨"a", some "1", []⟩, ⟨"", none, [⟨"b", some "2", []⟩]⟩,
      ⟨"a", none, [⟨"b", some "3", []⟩]⟩, ⟨"a/b", some "4", []⟩]⟩
    (tree.find? "/r/a/b").bind (·.value) = some "3" ∧
    (tree.find? "/r//b").bind (·.value) = some "2" := by
  decide +kernel

end YangConstraint.DataTree
