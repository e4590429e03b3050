import YangConstraint.DataTree

/-! The data outside a tree: a table of paths and values, and the two ways in which it is read. -/
namespace YangConstraint

/-- Where data is looked up that a tree does not hold. -/
structure DataSource where
  name : String
  /-- What lies at a path and below it, as a tree named after the path. -/
  tree? (path : String) : Option DataTree
  /-- The value at exactly this path. -/
  value? (path : String) : Option String

/-- The source that holds nothing. -/
def DataSource.none : DataSource := ⟨"none", fun _ => .none, fun _ => .none⟩

/-- Values by path, in the order of the paths. -/
structure Store where
  entries : List (String × String)
  sorted : entries.Pairwise fun a b => a.1 < b.1

inductive StoreError where
  | invalidPath (path : String)
deriving DecidableEq

def StoreError.message : StoreError → String
  | invalidPath path => s!"Invalid path: {path}"

namespace Store

def empty : Store := ⟨[], .nil⟩

def size (store : Store) : Nat := store.entries.length

def isEmpty (store : Store) : Bool := store.entries.isEmpty

/-- Puts an entry in its place, or in that of the entry with the same path. -/
def place (path value : String) : List (String × String) → List (String × String)
  | [] => [(path, value)]
  | entry :: rest =>
    if path < entry.1 then (path, value) :: entry :: rest
    else if path = entry.1 then (path, value) :: rest
    else entry :: place path value rest

theorem mem_place {path value : String} {entries : List (String × String)} {entry : String × String}
    (h : entry ∈ place path value entries) : entry = (path, value) ∨ entry ∈ entries := by
  induction entries with
  | nil => simpa [place] using h
  | cons first rest ih =>
    rw [place] at h
    split at h
    · simpa using h
    · split at h
      · rcases List.mem_cons.1 h with rfl | h
        · exact .inl rfl
        · exact .inr (.tail _ h)
      · rcases List.mem_cons.1 h with rfl | h
        · exact .inr (.head _)
        · exact (ih h).imp id (.tail _)

theorem sorted_place {path value : String} {entries : List (String × String)}
    (h : entries.Pairwise fun a b => a.1 < b.1) :
    (place path value entries).Pairwise fun a b => a.1 < b.1 := by
  induction entries with
  | nil => simp [place]
  | cons first rest ih =>
    obtain ⟨hf, hr⟩ := List.pairwise_cons.1 h
    rw [place]
    split
    · rename_i hp
      refine List.pairwise_cons.2 ⟨fun entry he => ?_, h⟩
      rcases List.mem_cons.1 he with rfl | he
      · exact hp
      · exact String.lt_trans hp (hf entry he)
    · rename_i hp
      split
      · rename_i he
        exact List.pairwise_cons.2 ⟨fun entry hm => he ▸ hf entry hm, hr⟩
      · rename_i hne
        refine List.pairwise_cons.2 ⟨fun entry he => ?_, ih hr⟩
        rcases mem_place he with rfl | he
        · exact Std.lt_of_le_of_ne (Std.not_lt.1 hp) (Ne.symm hne)
        · exact hf entry he

/-- Stores a value at an absolute path. -/
def set (path value : String) (store : Store) : Except StoreError Store :=
  if Text.startsWith "/" path then .ok ⟨place path value store.entries, sorted_place store.sorted⟩
  else .error (.invalidPath path)

def value? (path : String) (store : Store) : Option String :=
  (store.entries.find? (·.1 = path)).map (·.2)

def remove (path : String) (store : Store) : Store :=
  ⟨store.entries.filter (·.1 ≠ path), store.sorted.filter _⟩

/-- Adds an entry that lies at `target` or below it to the tree named `target`. -/
def attach? (target : String) (tree : DataTree) (entry : String × String) : Option DataTree :=
  if entry.1 = target then some { tree with value := some entry.2 }
  else if (Path.below? target entry.1).isSome then tree.insert? entry.1 entry.2
  else none

/-- The entries from `target` on, up to the first whose path does not begin with it. -/
def range (target : String) (store : Store) : List (String × String) :=
  (store.entries.dropWhile (·.1 < target)).takeWhile (Text.startsWith target ·.1)

/-- The entries at `target` and below it as a tree, if there are any. -/
def tree? (target : String) (store : Store) : Option DataTree :=
  (store.range target).foldl (fun found entry =>
    (attach? target (found.getD (.new target)) entry).or found) none

def source (store : Store) : DataSource := ⟨"in-memory", store.tree?, store.value?⟩

end Store

end YangConstraint
