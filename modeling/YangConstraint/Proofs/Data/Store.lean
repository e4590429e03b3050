import YangConstraint.Proofs.Data.Insertion
import YangConstraint.Store

/-!
What a store holds after writes, and the trees that are read from it. The paths that begin with a
text stand next to one another, so the scan that starts at the text misses none of them.
-/
namespace YangConstraint.Store

open DataTree YangConstraint.Path

/-! ### The scan -/

variable {target path other : String} {entries : List (String × String)}

/-- What lies between characters and more of them begins with those characters. -/
theorem prefix_of_between {cs ds rest : List Char} (hle : ¬ ds < cs) (hlt : ds < cs ++ rest) :
    cs <+: ds := by
  induction cs generalizing ds with
  | nil => exact List.nil_prefix
  | cons c cs ih =>
    cases ds with
    | nil => exact absurd (List.nil_lt_cons c cs) hle
    | cons d ds =>
      rw [List.cons_lt_cons_iff] at hle
      rw [List.cons_append, List.cons_lt_cons_iff] at hlt
      rcases hlt with hlt | ⟨rfl, hlt⟩
      · exact absurd (.inl hlt) hle
      · exact List.cons_prefix_cons.2 ⟨rfl, ih (fun h => hle (.inr ⟨rfl, h⟩)) hlt⟩

theorem startsWith_of_between (ho : Text.startsWith target other = true) (hle : ¬ path < target)
    (hlt : path < other) : Text.startsWith target path = true := by
  obtain ⟨rest, rfl⟩ := Text.startsWith_iff.1 ho
  rw [String.lt_iff] at hle hlt
  rw [String.toList_append] at hlt
  rw [Text.startsWith, List.isPrefixOf_iff_prefix]
  exact prefix_of_between hle hlt

theorem not_lt_of_startsWith (h : Text.startsWith target path = true) : ¬ path < target := by
  rw [Text.startsWith, List.isPrefixOf_iff_prefix] at h
  rw [String.lt_iff]
  exact h.le

theorem takeWhile_startsWith (h : entries.Pairwise fun a b => a.1 < b.1)
    (hge : ∀ entry ∈ entries, ¬ entry.1 < target) :
    entries.takeWhile (Text.startsWith target ·.1) =
      entries.filter (Text.startsWith target ·.1) := by
  induction entries with
  | nil => rfl
  | cons first rest ih =>
    obtain ⟨hf, hr⟩ := List.pairwise_cons.1 h
    by_cases hs : Text.startsWith target first.1 = true
    · rw [List.takeWhile_cons, List.filter_cons, if_pos hs, if_pos hs,
        ih hr fun entry he => hge entry (.tail _ he)]
    · rw [List.takeWhile_cons, List.filter_cons, if_neg hs, if_neg hs, eq_comm,
        List.filter_eq_nil_iff]
      exact fun entry he ho => hs (startsWith_of_between ho (hge first (.head _)) (hf entry he))

/-- The scan comes to all the entries whose path begins with the text, and to no others. -/
theorem range_eq_filter (store : Store) :
    store.range target = store.entries.filter (Text.startsWith target ·.1) := by
  have hall : ∀ entries : List (String × String), entries.Pairwise (fun a b => a.1 < b.1) →
      (entries.dropWhile (·.1 < target)).takeWhile (Text.startsWith target ·.1) =
        entries.filter (Text.startsWith target ·.1) := by
    intro entries h
    induction entries with
    | nil => rfl
    | cons first rest ih =>
      obtain ⟨hf, hr⟩ := List.pairwise_cons.1 h
      by_cases hlt : first.1 < target
      · have hs : ¬ Text.startsWith target first.1 = true := fun hs => not_lt_of_startsWith hs hlt
        rw [List.dropWhile_cons, List.filter_cons, if_pos (decide_eq_true hlt), if_neg hs, ih hr]
      · rw [List.dropWhile_cons, if_neg (by simpa using hlt)]
        refine takeWhile_startsWith h fun entry he => ?_
        rcases List.mem_cons.1 he with rfl | he
        · exact hlt
        · exact fun ho => hlt (String.lt_trans (hf entry he) ho)
  exact hall store.entries store.sorted

/-! ### Writes -/

variable {store : Store} {key value written : String} {entry : String × String}

/-- Keeps a value for a path. -/
def write (store : Store) (entry : String × String) : Store :=
  ⟨place entry.1 entry.2 store.entries, sorted_place store.sorted⟩

def writeAll (entries : List (String × String)) (store : Store) : Store := entries.foldl write store

theorem set_eq (h : Text.startsWith "/" path = true) :
    store.set path value = .ok (store.write (path, value)) :=
  if_pos h

theorem mem_place_iff (h : entries.Pairwise fun a b => a.1 < b.1) :
    (key, value) ∈ place path written entries ↔
      if key = path then value = written else (key, value) ∈ entries := by
  induction entries with
  | nil => by_cases hk : key = path <;> simp [place, hk]
  | cons first rest ih =>
    obtain ⟨hf, hr⟩ := List.pairwise_cons.1 h
    have hrest : ∀ {path : String}, path ≤ first.1 → (path, value) ∉ rest :=
      fun hle hm => absurd (hf _ hm) (Std.not_lt.2 hle)
    rw [place]
    split
    · rename_i hp
      by_cases hk : key = path
      · subst hk
        have hne : (key, value) ≠ first := by
          rintro rfl
          exact String.lt_irrefl key hp
        simp [hne, hrest (Std.le_of_lt hp)]
      · simp [hk]
    · split
      · rename_i hp
        subst hp
        by_cases hk : key = first.1
        · subst hk
          simp [hrest (Std.le_refl _)]
        · have hne : (key, value) ≠ first := fun he => hk (he ▸ rfl)
          simp [hk, hne]
      · rename_i hp
        have hplaced := ih hr
        by_cases hk : key = path
        · subst hk
          have hne : (key, value) ≠ first := fun he => hp (he ▸ rfl)
          simp [hne, hplaced]
        · simp [hk, hplaced]

theorem distinct (store : Store) : (store.entries.map (·.1)).Nodup := by
  rw [List.Nodup, List.pairwise_map]
  exact store.sorted.imp fun h => Std.ne_of_lt h

/-- Where keys differ, a value is found exactly if it is there. -/
theorem find?_eq_some_iff_mem {κ : Type} [DecidableEq κ] {entries : List (κ × String)} {key : κ}
    {value : String} (h : (entries.map (·.1)).Nodup) :
    (entries.find? (·.1 = key)).map (·.2) = some value ↔ (key, value) ∈ entries := by
  constructor
  · intro hf
    obtain ⟨⟨other, found⟩, ho, rfl⟩ := Option.map_eq_some_iff.1 hf
    obtain rfl : other = key := by simpa using List.find?_some ho
    exact List.mem_of_find?_eq_some ho
  · intro hm
    have hf := find?_of_nodup_map h hm
    rw [hf]
    rfl

theorem value?_eq_some_iff : store.value? key = some value ↔ (key, value) ∈ store.entries :=
  find?_eq_some_iff_mem store.distinct

theorem lastValue_entries : lastValue key store.entries = store.value? key := by
  have hd : (store.entries.reverse.map (·.1)).Nodup := by
    rw [List.map_reverse]
    exact List.nodup_reverse.2 store.distinct
  apply Option.ext
  intro value
  rw [value?_eq_some_iff, lastValue, find?_eq_some_iff_mem hd, List.mem_reverse]

theorem writeAll_concat :
    writeAll (entries ++ [entry]) store = (writeAll entries store).write entry := by
  rw [writeAll, List.foldl_append]
  rfl

/-- For each path, the last of the written values is there. -/
theorem mem_writeAll_iff :
    (key, value) ∈ (writeAll entries empty).entries ↔ lastValue key entries = some value := by
  induction entries using List.reverseRecOn with
  | nil => simp [writeAll, empty, lastValue]
  | append_singleton entries entry ih =>
    rw [writeAll_concat, lastValue_concat, write, mem_place_iff (writeAll entries empty).sorted, ih]
    by_cases hk : key = entry.1
    · simp [hk, eq_comm]
    · simp [hk, Ne.symm hk]

theorem value?_writeAll : (writeAll entries empty).value? key = lastValue key entries := by
  apply Option.ext
  intro value
  rw [value?_eq_some_iff, mem_writeAll_iff]

/-- A path is in the store if it has been written. -/
theorem exists_mem_writeAll_iff (P : String → Prop) (entries : List (String × String)) :
    (∃ entry ∈ (writeAll entries empty).entries, P entry.1) ↔ ∃ entry ∈ entries, P entry.1 := by
  constructor
  · rintro ⟨⟨key, value⟩, hm, hp⟩
    obtain ⟨entry, he, -⟩ := Option.map_eq_some_iff.1 (mem_writeAll_iff.1 hm)
    have hkey : entry.1 = key := by simpa using List.find?_some he
    exact ⟨entry, List.mem_reverse.1 (List.mem_of_find?_eq_some he), hkey ▸ hp⟩
  · rintro ⟨⟨key, value⟩, hm, hp⟩
    have hs : (lastValue key entries).isSome := by
      rw [lastValue, Option.isSome_map, List.find?_isSome]
      exact ⟨_, List.mem_reverse.2 hm, by simp⟩
    obtain ⟨last, hl⟩ := Option.isSome_iff_exists.1 hs
    exact ⟨(key, last), mem_writeAll_iff.2 hl, hp⟩

/-! ### The trees read from a store -/

variable {names more keys : List String} {tree : DataTree}

/-- The entries at names and below them, with the names that lead on from there. -/
def below (names : List String) (entries : List (String × String)) : List (List String × String) :=
  (entries.filter fun entry => names.isPrefixOf (segments entry.1)).map fun entry =>
    ((segments entry.1).drop names.length, entry.2)

theorem below_concat : below names (entries ++ [entry]) = below names entries ++
    if names <+: segments entry.1 then [((segments entry.1).drop names.length, entry.2)]
    else [] := by
  rw [below, List.filter_append, List.map_append, ← below]
  by_cases hp : names <+: segments entry.1 <;> simp [hp]

theorem exists_mem_below_iff :
    (∃ entry ∈ below names entries, more <+: entry.1) ↔
      ∃ entry ∈ entries, names ++ more <+: segments entry.1 := by
  constructor
  · rintro ⟨other, ho, hm⟩
    obtain ⟨entry, he, rfl⟩ := List.mem_map.1 ho
    obtain ⟨hmem, hp⟩ := List.mem_filter.1 he
    obtain ⟨rest, hr⟩ := List.isPrefixOf_iff_prefix.1 hp
    refine ⟨entry, hmem, ?_⟩
    rw [← hr, List.drop_left] at hm
    rw [← hr]
    exact (List.prefix_append_right_inj names).2 hm
  · rintro ⟨entry, he, rest, hr⟩
    rw [List.append_assoc] at hr
    refine ⟨(more ++ rest, entry.2), ?_, List.prefix_append more rest⟩
    rw [below, List.mem_map]
    refine ⟨entry, List.mem_filter.2 ⟨he, ?_⟩, ?_⟩
    · rw [List.isPrefixOf_iff_prefix, ← hr]
      exact List.prefix_append names _
    · rw [← hr, List.drop_left]

theorem below_eq_nil_iff :
    below names entries = [] ↔ ¬ ∃ entry ∈ entries, names <+: segments entry.1 := by
  simp [below]

/-- The last value below the names is the one for the longer path. -/
theorem lastValue_below (hc : ∀ entry ∈ entries, Canonical entry.1)
    (hs : ∀ name ∈ names ++ more, IsName name) :
    lastValue more (below names entries) = lastValue (absolute (names ++ more)) entries := by
  induction entries using List.reverseRecOn with
  | nil => rfl
  | append_singleton entries entry ih =>
    have hcanonical : Canonical entry.1 := hc entry (by simp)
    obtain ⟨keys, -, hk, hkey⟩ := hcanonical
    have hrec := ih fun other ho => hc other (by simp [ho])
    have hiff : entry.1 = absolute (names ++ more) ↔ keys = names ++ more :=
      ⟨fun he => absolute_inj hk hs (hkey ▸ he), fun he => he ▸ hkey⟩
    rw [below_concat, lastValue_concat, hkey, segments_absolute hk, ← hkey]
    by_cases hp : names <+: keys
    · obtain ⟨rest, rfl⟩ := hp
      rw [if_pos (List.prefix_append names rest), lastValue_concat, hrec, List.drop_left]
      simp only [hiff, List.append_cancel_left_eq]
    · have hne : entry.1 ≠ absolute (names ++ more) :=
        fun he => hp (hiff.1 he ▸ List.prefix_append names more)
      rw [if_neg hp, List.append_nil, hrec, if_neg hne]

/-- What stands in the tree of the entries below the names. -/
theorem look_below (hc : ∀ entry ∈ entries, Canonical entry.1)
    (hs : ∀ name ∈ names ++ more, IsName name) :
    (putAll (below names entries) (new path)).look more =
      if more = [] ∨ ∃ entry ∈ entries, names ++ more <+: segments entry.1
      then some (lastValue (absolute (names ++ more)) entries) else none := by
  rw [look_putAll_new, lastValue_below hc hs]
  simp only [exists_mem_below_iff]

theorem attach?_absolute (hn : names ≠ []) (hs : ∀ name ∈ names, IsName name)
    (hk : ∀ name ∈ keys, IsName name) (ht : tree.name = absolute names) :
    attach? (absolute names) tree (absolute keys, value) =
      if names <+: keys then some (put value (keys.drop names.length) tree) else none := by
  rw [attach?]
  by_cases he : absolute keys = absolute names
  · obtain rfl := absolute_inj hk hs he
    simp [put]
  · rw [if_neg he]
    cases hb : below? (absolute names) (absolute keys) with
    | some rest =>
      have hkeys : keys = names ++ segments rest := by
        rw [← segments_absolute hk, below?_eq_some_iff.1 hb, segments_join, segments_absolute hs]
      have hprefix : names <+: keys := ⟨segments rest, hkeys.symm⟩
      rw [Option.isSome_some, if_pos rfl, if_pos hprefix, insert?, rootPath_absolute hn hs ht, hb,
        hkeys, List.drop_left]
      rfl
    | none =>
      have hprefix : ¬ names <+: keys := by
        rintro ⟨more, rfl⟩
        have hmore : more ≠ [] := by
          rintro rfl
          exact he (by rw [List.append_nil])
        obtain ⟨rest, hr⟩ := exists_foldl_join (absolute names) hmore
        have hj : absolute (names ++ more) = join (absolute names) rest := by
          rw [← hr, absolute, List.foldl_append]
          rfl
        rw [below?_eq_some_iff.2 hj] at hb
        cases hb
      rw [if_neg hprefix]
      rfl

/-- The fold of a lookup puts the entries below the names into a new tree. -/
theorem foldl_attach? (hn : names ≠ []) (hs : ∀ name ∈ names, IsName name)
    (hc : ∀ entry ∈ entries, Canonical entry.1) :
    entries.foldl (fun found entry =>
        (attach? (absolute names) (found.getD (new (absolute names))) entry).or found) none =
      if below names entries = [] then none
      else some (putAll (below names entries) (new (absolute names))) := by
  induction entries using List.reverseRecOn with
  | nil => simp [below]
  | append_singleton entries entry ih =>
    have hcanonical : Canonical entry.1 := hc entry (by simp)
    obtain ⟨keys, -, hk, hkey⟩ := hcanonical
    obtain ⟨path, value⟩ := entry
    obtain rfl : path = absolute keys := hkey
    have hfound : (if below names entries = [] then none
        else some (putAll (below names entries) (new (absolute names)))).getD
          (new (absolute names)) = putAll (below names entries) (new (absolute names)) := by
      by_cases hb : below names entries = []
      · simp [hb, putAll]
      · simp [hb]
    rw [List.foldl_append, ih fun other ho => hc other (by simp [ho]), List.foldl_cons,
      List.foldl_nil, hfound, attach?_absolute hn hs hk name_putAll, below_concat]
    simp only [segments_absolute hk]
    by_cases hp : names <+: keys
    · simp [hp, putAll_concat]
    · simp [hp]

theorem tree?_absolute (hn : names ≠ []) (hs : ∀ name ∈ names, IsName name)
    (hc : ∀ entry ∈ store.entries, Canonical entry.1) : store.tree? (absolute names) =
      if below names store.entries = [] then none
      else some (putAll (below names store.entries) (new (absolute names))) := by
  -- The scan has left out nothing that lies below the names.
  have hscan : below names (store.range (absolute names)) = below names store.entries := by
    rw [range_eq_filter, below, below, List.filter_filter]
    apply congrArg
    apply List.filter_congr
    intro entry he
    obtain ⟨keys, -, hk, hkey⟩ := hc entry he
    rw [hkey, segments_absolute hk, Bool.and_eq_left_iff_imp]
    intro hp
    obtain ⟨more, rfl⟩ := List.isPrefixOf_iff_prefix.1 hp
    rw [absolute, absolute, List.foldl_append]
    exact startsWith_foldl_join more
  rw [tree?, foldl_attach? hn hs, hscan]
  intro entry he
  rw [range_eq_filter] at he
  exact hc entry (List.mem_of_mem_filter he)

end YangConstraint.Store
