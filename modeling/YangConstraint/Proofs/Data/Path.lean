import Mathlib.Data.List.Induction
import Mathlib.Tactic.Common
import YangConstraint.Path

/-! Absolute paths and the names that they spell. -/
namespace YangConstraint.Path

/-- The text of an absolute path. -/
def absolute (names : List String) : String := names.foldl join ""

/-- What can stand between two slashes of a path. -/
def IsName (text : String) : Prop := text ≠ "" ∧ '/' ∉ text.toList

instance (text : String) : Decidable (IsName text) := inferInstanceAs (Decidable (_ ∧ _))

/-- A path of one name or more, without a slash behind them and none doubled. -/
def Canonical (path : String) : Prop :=
  ∃ names, names ≠ [] ∧ (∀ name ∈ names, IsName name) ∧ path = absolute names

variable {base name path rest : String} {names others : List String} {c : Char}
  {cs part : List Char}

/-- The parts between separators hold none. -/
theorem not_mem_of_mem_splitOn (h : part ∈ cs.splitOn c) : c ∉ part := by
  induction cs generalizing part with
  | nil =>
    rw [List.splitOn_nil, List.mem_singleton] at h
    simp [h]
  | cons x xs ih =>
    rw [List.splitOn_cons_eq_if_modifyHead] at h
    obtain ⟨first, others, hs⟩ := List.exists_cons_of_ne_nil (List.splitOn_ne_nil c xs)
    rw [hs] at h ih
    split at h
    · rcases List.mem_cons.1 h with rfl | h
      · exact List.not_mem_nil
      · exact ih h
    · rename_i hx
      rcases List.mem_cons.1 h with rfl | h
      · intro hc
        rcases List.mem_cons.1 hc with rfl | hc
        · simp at hx
        · exact ih (.head _) hc
      · exact ih (.tail _ h)

theorem isName_of_mem_segments (h : name ∈ segments path) : IsName name := by
  obtain ⟨part, hp, rfl⟩ := List.mem_map.1 h
  obtain ⟨hpart, hne⟩ := List.mem_filter.1 hp
  refine ⟨fun he => ?_, ?_⟩
  · have hnil : part = [] := by simpa using congrArg String.toList he
    simp [hnil] at hne
  · rw [String.toList_ofList]
    exact not_mem_of_mem_splitOn hpart

theorem segments_name (h : IsName name) : segments name = [name] := by
  have hne : name.toList ≠ [] := fun he => h.1 (String.toList_eq_nil_iff.1 he)
  rw [segments, List.splitOn_eq_singleton h.2]
  simp [hne]

/-- The names of a path come out again when it is cut at its slashes. -/
theorem segments_foldl_join (h : ∀ name ∈ names, IsName name) :
    segments (names.foldl join base) = segments base ++ names := by
  induction names generalizing base with
  | nil => simp
  | cons name names ih =>
    rw [List.foldl_cons, ih fun other ho => h other (.tail _ ho), segments_join,
      segments_name (h name (.head _)), List.append_assoc]
    rfl

theorem segments_absolute (h : ∀ name ∈ names, IsName name) :
    segments (absolute names) = names := by
  rw [absolute, segments_foldl_join h, segments_empty, List.nil_append]

/-- The names are all that a path is made of. -/
theorem foldl_join_inj (hn : ∀ name ∈ names, IsName name) (ho : ∀ name ∈ others, IsName name)
    (h : names.foldl join base = others.foldl join base) : names = others := by
  have hs : segments (names.foldl join base) = segments (others.foldl join base) := by rw [h]
  rw [segments_foldl_join hn, segments_foldl_join ho] at hs
  exact List.append_cancel_left hs

theorem absolute_inj (hn : ∀ name ∈ names, IsName name) (ho : ∀ name ∈ others, IsName name)
    (h : absolute names = absolute others) : names = others := foldl_join_inj hn ho h

theorem join_join (base name rest : String) :
    join (join base name) rest = join base (join name rest) := by
  apply String.toList_inj.1
  simp

/-- Names lead below the path that they start from. -/
theorem exists_foldl_join (base : String) (h : names ≠ []) :
    ∃ rest, names.foldl join base = join base rest := by
  induction names generalizing base with
  | nil => exact absurd rfl h
  | cons name names ih =>
    by_cases hn : names = []
    · subst hn
      exact ⟨name, rfl⟩
    · obtain ⟨rest, hr⟩ := ih (join base name) hn
      refine ⟨join name rest, ?_⟩
      rw [List.foldl_cons, hr, join_join]

theorem join_ne_self (base rest : String) : join base rest ≠ base := by
  intro h
  have hl := congrArg (fun text : String => text.toList.length) h
  simp at hl

/-- A path of names cut at one of its slashes is a path of names. -/
theorem exists_of_absolute_eq_join (hn : ∀ name ∈ names, '/' ∉ name.toList)
    (h : absolute names = join path rest) : ∃ k < names.length, path = absolute (names.take k) := by
  induction names using List.reverseRecOn generalizing rest with
  | nil =>
    have hl := congrArg (fun text : String => text.toList.length) h
    simp [absolute] at hl
  | append_singleton names last ih =>
    have hlast : '/' ∉ last.toList := hn last (by simp)
    have habsolute : absolute (names ++ [last]) = join (absolute names) last := by simp [absolute]
    rw [habsolute] at h
    by_cases hr : '/' ∈ rest.toList
    · -- The cut lies before the last slash.
      obtain ⟨before, hb⟩ : ∃ before, absolute names = join path before := by
        cases hs : Text.splitLast '/' rest.toList with
        | none => exact absurd hr (Text.splitLast_eq_none_iff.1 hs)
        | some cut =>
          obtain ⟨he, hc⟩ := Text.splitLast_eq_some hs
          refine ⟨String.ofList cut.1, ?_⟩
          have hjoin :
              join path rest = join (join path (String.ofList cut.1)) (String.ofList cut.2) := by
            apply String.toList_inj.1
            simp [he]
          have hp : parent? (join (absolute names) last) = some (absolute names) :=
            parent?_join hlast
          rw [h, hjoin, parent?_join (by simpa using hc)] at hp
          exact (Option.some.inj hp).symm
      obtain ⟨k, hk, hp⟩ := ih (fun name hm => hn name (by simp [hm])) hb
      refine ⟨k, by simp; omega, ?_⟩
      rw [hp, List.take_append_of_le_length (Nat.le_of_lt hk)]
    · have hp : parent? (join (absolute names) last) = some (absolute names) := parent?_join hlast
      rw [h, parent?_join hr] at hp
      refine ⟨names.length, by simp, ?_⟩
      rw [List.take_left]
      exact Option.some.inj hp

theorem toList_absolute (h : names ≠ []) : ∃ cs, (absolute names).toList = '/' :: cs := by
  obtain ⟨rest, hr⟩ := exists_foldl_join "" h
  exact ⟨rest.toList, by rw [absolute, hr]; simp⟩

end YangConstraint.Path
