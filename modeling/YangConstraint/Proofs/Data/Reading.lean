import YangConstraint.Proofs.Data.Store

/-!
The two ways to read a value from a store. One looks for the path itself. The other takes the value
of the tree that is read for the path, in which a path with slashes behind it stands for the same
node.
-/
namespace YangConstraint

namespace Path

/-- A path with slashes behind it. -/
def padded (path : String) (n : Nat) : String := path ++ String.ofList (List.replicate n '/')

variable {path rest : String} {n m : Nat}

@[simp] theorem toList_padded : (padded path n).toList = path.toList ++ List.replicate n '/' := by
  simp [padded]

@[simp] theorem padded_zero : padded path 0 = path := by
  simp [padded]

theorem padded_succ : padded path (n + 1) = join path (padded "" n) := by
  apply String.toList_inj.1
  simp [List.replicate_succ]

theorem startsWith_padded : Text.startsWith path (padded path n) = true :=
  Text.startsWith_iff.2 ⟨_, rfl⟩

theorem padded_lt_padded (h : n < m) : padded path n < padded path m := by
  obtain ⟨k, rfl⟩ : ∃ k, m = n + (k + 1) := ⟨m - n - 1, by omega⟩
  have hlt : List.replicate n '/' ++ [] < List.replicate n '/' ++ List.replicate (k + 1) '/' := by
    apply List.append_left_lt
    rw [List.replicate_succ]
    exact List.nil_lt_cons _ _
  rw [List.append_nil, ← List.replicate_add] at hlt
  rw [String.lt_iff, toList_padded, toList_padded]
  exact List.append_left_lt hlt

theorem padded_lt_iff : padded path n < padded path m ↔ n < m := by
  constructor
  · intro h
    rcases Nat.lt_trichotomy n m with hn | rfl | hm
    · exact hn
    · exact absurd h (String.lt_irrefl _)
    · exact absurd (String.lt_trans h (padded_lt_padded hm)) (String.lt_irrefl _)
  · exact padded_lt_padded

theorem padded_inj (h : padded path n = padded path m) : n = m := by
  have hlength := congrArg (fun text : String => text.toList.length) h
  simpa using hlength

/-- Only a text of slashes has no segments. -/
theorem segments_eq_nil_iff : segments rest = [] ↔ ∃ n, rest = padded "" n := by
  have hlist : ∀ cs : List Char, (cs.splitOn '/').filter (!·.isEmpty) = [] ↔ ∀ c ∈ cs, c = '/' := by
    intro cs
    induction cs with
    | nil => simp
    | cons c cs ih =>
      rw [List.splitOn_cons_eq_if_modifyHead]
      by_cases hc : c = '/'
      · simpa [hc] using ih
      · obtain ⟨first, others, hs⟩ := List.exists_cons_of_ne_nil (List.splitOn_ne_nil '/' cs)
        simp [hc, hs]
  rw [segments, List.map_eq_nil_iff, hlist]
  constructor
  · intro h
    refine ⟨rest.toList.length, String.toList_inj.1 ?_⟩
    simpa using List.eq_replicate_length.2 h
  · rintro ⟨n, rfl⟩
    simp

theorem segments_padded_append : segments (padded "" n ++ rest) = segments rest := by
  induction n with
  | zero => simp
  | succ n ih =>
    have hjoin : padded "" (n + 1) ++ rest = join "" (padded "" n ++ rest) := by
      apply String.toList_inj.1
      simp [List.replicate_succ]
    rw [hjoin, segments_join, segments_empty, List.nil_append, ih]

/-- What is left of a text without the slashes at its end. -/
theorem trimmed_append_slashes (cs : List Char) :
    ∃ n, cs = (cs.reverse.dropWhile (· = '/')).reverse ++ List.replicate n '/' := by
  have hslashes : ∀ c ∈ cs.reverse.takeWhile (· = '/'), c = '/' := by
    intro c hc
    simpa using List.all_eq_true.1 List.all_takeWhile c hc
  have hsplit := List.takeWhile_append_dropWhile (p := (· = '/')) (l := cs.reverse)
  rw [List.eq_replicate_length.2 hslashes] at hsplit
  exact ⟨_, by simpa using (congrArg List.reverse hsplit).symm⟩

/-- The paths at which there can be a tree: that of the root and those that begin with a slash. -/
def Rooted (path : String) : Prop := path = "" ∨ Text.startsWith "/" path = true

end Path

open YangConstraint.Path

namespace DataTree

variable {tree : DataTree} {path : String}

/-- A tree named after an absolute path stands at that path, but for slashes at its end. -/
theorem exists_padded_rootPath (h : Rooted path) (ht : tree.name = path) :
    ∃ n, path = padded tree.rootPath n := by
  obtain ⟨n, hpath⟩ := trimmed_append_slashes path.toList
  refine ⟨n, String.toList_inj.1 ?_⟩
  rw [toList_padded, rootPath, ht]
  cases htrimmed : (path.toList.reverse.dropWhile (· = '/')).reverse with
  | nil =>
    rw [htrimmed] at hpath
    exact hpath
  | cons c cs =>
    rw [htrimmed] at hpath
    have hc : c = '/' := by
      rcases h with rfl | h
      · simp at hpath
      · obtain ⟨rest, rfl⟩ := Text.startsWith_iff.1 h
        simp at hpath
        exact hpath.1.symm
    subst hc
    simpa using hpath

/-- Where the path of an insertion lies below the name of the tree, the slashes at the end of the
name do not matter. -/
theorem insert?_join (h : Rooted path) (ht : tree.name = path) (rest value : String) :
    tree.insert? (join path rest) value = some (put value (segments rest) tree) := by
  obtain ⟨n, hn⟩ := exists_padded_rootPath h ht
  have hbelow : join path rest = join tree.rootPath (padded "" n ++ rest) := by
    have hshift : List.replicate n '/' ++ '/' :: rest.toList =
        '/' :: (List.replicate n '/' ++ rest.toList) := by
      rw [← List.cons_append, ← List.replicate_succ, List.replicate_succ', List.append_assoc]
      rfl
    apply String.toList_inj.1
    rw [toList_join, hn, toList_padded, toList_join, List.append_assoc, hshift]
    simp
  rw [insert?, below?_eq_some_iff.2 hbelow, Option.map_some, segments_padded_append]

end DataTree

namespace Store

open DataTree

/-! ### What a store goes through -/

/-- What may be done to a store, with any paths. -/
inductive Change where
  | set (path value : String)
  | remove (path : String)
  | clear

/-- A refused path changes nothing. -/
def Change.apply (store : Store) : Change → Store
  | set path value =>
    match store.set path value with
    | .ok written => written
    | .error _ => store
  | remove path => store.remove path
  | clear => empty

/-- The store that changes make, one after the other. -/
def ofChanges (changes : List Change) : Store := changes.foldl Change.apply empty

/-- All paths that are kept begin with a slash. -/
def Slashed (store : Store) : Prop := ∀ entry ∈ store.entries, Text.startsWith "/" entry.1 = true

variable {store : Store} {tree : DataTree} {path key value : String} {entry : String × String}
  {entries : List (String × String)} {changes : List Change} {n m : Nat}

theorem slashed_apply (h : store.Slashed) (change : Change) : (change.apply store).Slashed := by
  intro entry he
  cases change with
  | set path value =>
    simp only [Change.apply, set] at he
    split at he
    · rename_i written hw
      split at hw
      · rename_i hp
        obtain rfl := Except.ok.inj hw
        rcases mem_place he with rfl | he
        · exact hp
        · exact h entry he
      · cases hw
    · exact h entry he
  | remove path => exact h entry (List.mem_of_mem_filter he)
  | clear => cases he

theorem slashed_ofChanges (changes : List Change) : (ofChanges changes).Slashed := by
  induction changes using List.reverseRecOn with
  | nil =>
    intro entry he
    cases he
  | append_singleton changes change ih =>
    rw [ofChanges, List.foldl_append]
    exact slashed_apply ih change

/-! ### The value of a tree -/

/-- The tree that entries make at a path, if one of them lies there. -/
def gather (path : String) (entries : List (String × String)) : Option DataTree :=
  entries.foldl (fun found entry => (attach? path (found.getD (new path)) entry).or found) none

theorem gather_concat : gather path (entries ++ [entry]) =
    (attach? path ((gather path entries).getD (new path)) entry).or (gather path entries) := by
  rw [gather, List.foldl_append]
  rfl

theorem tree?_eq_gather : store.tree? path = gather path (store.range path) := rfl

/-- An entry sets the value of the tree, or puts a node below it, or does not belong to it. -/
theorem attach?_cases (h : Rooted path) (ht : tree.name = path) :
    (∃ n, key = padded path n) ∧ attach? path tree (key, value) = some (put value [] tree) ∨
      (¬ ∃ n, key = padded path n) ∧ (attach? path tree (key, value) = none ∨
        ∃ name names, attach? path tree (key, value) = some (put value (name :: names) tree)) := by
  rw [attach?]
  by_cases hk : key = path
  · exact .inl ⟨⟨0, by rw [hk, padded_zero]⟩, if_pos hk⟩
  rw [if_neg hk]
  cases hb : below? path key with
  | none =>
    refine .inr ⟨?_, .inl rfl⟩
    rintro ⟨n, rfl⟩
    cases n with
    | zero => exact hk padded_zero
    | succ n =>
      rw [below?_eq_some_iff.2 padded_succ] at hb
      cases hb
  | some rest =>
    obtain rfl := below?_eq_some_iff.1 hb
    rw [Option.isSome_some, if_pos rfl, insert?_join h ht]
    cases hs : segments rest with
    | nil =>
      obtain ⟨n, rfl⟩ := segments_eq_nil_iff.1 hs
      exact .inl ⟨⟨n + 1, padded_succ.symm⟩, rfl⟩
    | cons name names =>
      refine .inr ⟨?_, .inr ⟨name, names, rfl⟩⟩
      rintro ⟨n, hn⟩
      cases n with
      | zero => exact hk (by rw [hn, padded_zero])
      | succ n =>
        rw [padded_succ] at hn
        rw [hn, below?_eq_some_iff.2 rfl] at hb
        rw [segments_eq_nil_iff.2 ⟨n, (Option.some.inj hb).symm⟩] at hs
        cases hs

theorem name_gather (h : Rooted path) : ((gather path entries).getD (new path)).name = path := by
  induction entries using List.reverseRecOn with
  | nil => rfl
  | append_singleton entries entry ih =>
    obtain ⟨key, value⟩ := entry
    rw [gather_concat]
    rcases attach?_cases h ih with ⟨-, ha⟩ | ⟨-, ha | ⟨name, names, ha⟩⟩
    · rw [ha, Option.some_or, Option.getD_some, name_put, ih]
    · rw [ha, Option.none_or, ih]
    · rw [ha, Option.some_or, Option.getD_some, name_put, ih]

theorem value_getD_new (found : Option DataTree) :
    (found.getD (new path)).value = found.bind (·.value) := by
  cases found <;> rfl

theorem value_gather_padded (h : Rooted path) :
    (gather path (entries ++ [(padded path n, value)])).bind (·.value) = some value := by
  rw [gather_concat]
  rcases attach?_cases h (name_gather h) with ⟨-, ha⟩ | ⟨hn, -⟩
  · rw [ha]
    rfl
  · exact absurd ⟨n, rfl⟩ hn

theorem value_gather_other (h : Rooted path) (hk : ¬ ∃ n, key = padded path n) :
    (gather path (entries ++ [(key, value)])).bind (·.value) =
      (gather path entries).bind (·.value) := by
  rw [gather_concat]
  rcases attach?_cases h (name_gather h) with ⟨hn, -⟩ | ⟨-, ha | ⟨name, names, ha⟩⟩
  · exact absurd hn hk
  · rw [ha, Option.none_or]
  · rw [ha, Option.some_or, Option.bind_some]
    exact value_getD_new _

theorem mem_concat_other {last : String} (hk : ¬ ∃ n, key = padded path n) :
    (padded path n, value) ∈ entries ++ [(key, last)] ↔ (padded path n, value) ∈ entries := by
  constructor
  · intro hm
    rcases List.mem_append.1 hm with hm | hm
    · exact hm
    · exact absurd ⟨n, (congrArg Prod.fst (List.mem_singleton.1 hm)).symm⟩ hk
  · exact List.mem_append_left _

/-- The value of the tree comes from the longest of the paths that differ only in slashes at the
end, since that one is the last in the order. -/
theorem value_gather_eq_some_iff (h : Rooted path) (hs : entries.Pairwise fun a b => a.1 < b.1) :
    (gather path entries).bind (·.value) = some value ↔
      ∃ n, (padded path n, value) ∈ entries ∧
        ∀ m other, n < m → (padded path m, other) ∉ entries := by
  induction entries using List.reverseRecOn with
  | nil => simp [gather]
  | append_singleton entries entry ih =>
    obtain ⟨key, last⟩ := entry
    obtain ⟨hsorted, -, hlast⟩ := List.pairwise_append.1 hs
    by_cases hk : ∃ n, key = padded path n
    · obtain ⟨k, rfl⟩ := hk
      have hless : ∀ m other, (padded path m, other) ∈ entries → m < k := by
        intro m other hm
        exact padded_lt_iff.1 (hlast _ hm _ (.head _))
      rw [value_gather_padded h]
      constructor
      · intro hv
        obtain rfl := Option.some.inj hv
        refine ⟨k, by simp, ?_⟩
        intro m other hm hmem
        rcases List.mem_append.1 hmem with hmem | hmem
        · have := hless m other hmem
          omega
        · have hp : padded path m = padded path k := congrArg Prod.fst (List.mem_singleton.1 hmem)
          have := padded_inj hp
          omega
      · rintro ⟨n, hmem, hmax⟩
        rcases List.mem_append.1 hmem with hmem | hmem
        · exact absurd (by simp) (hmax k last (hless n value hmem))
        · exact congrArg some (congrArg Prod.snd (List.mem_singleton.1 hmem)).symm
    · rw [value_gather_other h hk, ih hsorted]
      simp only [mem_concat_other hk]

theorem isSome_value_gather (h : Rooted path) (hm : (padded path n, value) ∈ entries) :
    ((gather path entries).bind (·.value)).isSome := by
  induction entries using List.reverseRecOn with
  | nil => cases hm
  | append_singleton entries entry ih =>
    obtain ⟨key, last⟩ := entry
    by_cases hk : ∃ n, key = padded path n
    · obtain ⟨k, rfl⟩ := hk
      rw [value_gather_padded h]
      rfl
    · rw [value_gather_other h hk]
      exact ih ((mem_concat_other hk).1 hm)

/-! ### The two reads -/

theorem mem_range_padded_iff :
    (padded path n, value) ∈ store.range path ↔ store.value? (padded path n) = some value := by
  rw [range_eq_filter, List.mem_filter, value?_eq_some_iff]
  exact and_iff_left startsWith_padded

/-- Where no path can be kept, neither read finds a thing. -/
theorem reads_eq_none (h : store.Slashed) (hp : ¬ Rooted path) :
    store.tree? path = none ∧ ∀ n, store.value? (padded path n) = none := by
  have hstart : ∀ entry ∈ store.entries, ¬ Text.startsWith path entry.1 = true := by
    intro entry he ho
    obtain ⟨rest, hrest⟩ := Text.startsWith_iff.1 ho
    obtain ⟨more, hmore⟩ := Text.startsWith_iff.1 (h entry he)
    apply hp
    rw [hrest] at hmore
    cases hc : path.toList with
    | nil => exact .inl (String.toList_eq_nil_iff.1 hc)
    | cons c cs =>
      have hlist := congrArg String.toList hmore
      simp [hc] at hlist
      refine .inr (Text.startsWith_iff.2 ⟨String.ofList cs, String.toList_inj.1 ?_⟩)
      simp [hc, hlist.1]
  constructor
  · have hempty : store.range path = [] := by
      rw [range_eq_filter, List.filter_eq_nil_iff]
      exact hstart
    rw [tree?_eq_gather, hempty]
    rfl
  · intro n
    rw [Option.eq_none_iff_forall_ne_some]
    intro value hv
    exact hstart _ (value?_eq_some_iff.1 hv) startsWith_padded

/-- The value of the tree read for a path is that of the longest path with slashes behind it. -/
theorem value_tree?_eq_some_iff (h : store.Slashed) :
    (store.tree? path).bind (·.value) = some value ↔
      ∃ n, store.value? (padded path n) = some value ∧
        ∀ m, n < m → store.value? (padded path m) = none := by
  by_cases hp : Rooted path
  · have hsorted : (store.range path).Pairwise fun a b => a.1 < b.1 := by
      rw [range_eq_filter]
      exact store.sorted.filter _
    rw [tree?_eq_gather, value_gather_eq_some_iff hp hsorted]
    simp only [mem_range_padded_iff, Option.eq_none_iff_forall_ne_some]
    constructor
    · rintro ⟨n, hn, hmax⟩
      exact ⟨n, hn, fun m hm other => hmax m other hm⟩
    · rintro ⟨n, hn, hmax⟩
      exact ⟨n, hn, fun m other hm => hmax m hm other⟩
  · obtain ⟨ht, hv⟩ := reads_eq_none h hp
    simp [ht, hv]

theorem isSome_value_tree? (h : store.Slashed) (hv : store.value? (padded path n) = some value) :
    ((store.tree? path).bind (·.value)).isSome := by
  by_cases hp : Rooted path
  · exact isSome_value_gather hp (mem_range_padded_iff.2 hv)
  · rw [(reads_eq_none h hp).2 n] at hv
    cases hv

/-- After any changes, the value of the tree read for a path is the value read there, except where a
longer path that ends in slashes holds another one: the tree takes the value of the longest such
path for that of its root. -/
theorem value_tree?_eq_iff (changes : List Change) (path : String) :
    ((ofChanges changes).tree? path).bind (·.value) = (ofChanges changes).value? path ↔
      ∀ n value, (ofChanges changes).value? (padded path (n + 1)) = some value →
        (∀ m, n + 1 < m → (ofChanges changes).value? (padded path m) = none) →
        (ofChanges changes).value? path = some value := by
  have hs : (ofChanges changes).Slashed := slashed_ofChanges changes
  constructor
  · intro he n value hv hmax
    rw [← he]
    exact (value_tree?_eq_some_iff hs).2 ⟨n + 1, hv, hmax⟩
  · intro hlonger
    -- What the tree says is said by the longest path, and so by the path itself.
    have hexact : ∀ value, ((ofChanges changes).tree? path).bind (·.value) = some value →
        (ofChanges changes).value? path = some value := by
      intro value ht
      obtain ⟨n, hv, hmax⟩ := (value_tree?_eq_some_iff hs).1 ht
      cases n with
      | zero => rwa [padded_zero] at hv
      | succ n => exact hlonger n value hv hmax
    cases hv : (ofChanges changes).value? path with
    | none =>
      rw [Option.eq_none_iff_forall_ne_some]
      intro value ht
      rw [hexact value ht] at hv
      cases hv
    | some value =>
      have hpadded : (ofChanges changes).value? (padded path 0) = some value := by rwa [padded_zero]
      obtain ⟨found, hf⟩ := Option.isSome_iff_exists.1 (isSome_value_tree? hs hpadded)
      rw [hexact found hf] at hv
      rw [hf, hv]

/-- A value kept for `/a/` is that of the tree read for `/a`, where no value is kept. -/
theorem value_tree?_slashBehind :
    ((ofChanges [.set "/a/" "1"]).tree? "/a").bind (·.value) = some "1" ∧
      (ofChanges [.set "/a/" "1"]).value? "/a" = none := by
  decide +kernel

end Store

end YangConstraint
