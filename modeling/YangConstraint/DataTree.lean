import YangConstraint.Path

/-!
Data trees. The name of a tree is also its path: below a tree named `/interfaces` lie the paths
`/interfaces/<child>`, and below one without a name, or named `/`, the paths `/<child>`.
-/
namespace YangConstraint

structure DataTree where
  name : String
  value : Option String
  children : List DataTree

namespace DataTree

/-- A tree with nothing in it. -/
def new (name : String) : DataTree := ⟨name, none, []⟩

instance : Inhabited DataTree := ⟨new ""⟩

def push (tree child : DataTree) : DataTree := { tree with children := tree.children ++ [child] }

def child? (name : String) (tree : DataTree) : Option DataTree :=
  tree.children.find? (·.name = name)

/-- Whether the tree has a value or anything below it. -/
def hasData (tree : DataTree) : Bool := tree.value.isSome || !tree.children.isEmpty

/-- The absolute path that the name stands for. -/
def rootPath (tree : DataTree) : String :=
  let trimmed := (tree.name.toList.reverse.dropWhile (· = '/')).reverse
  match trimmed with
  | [] => ""
  | '/' :: _ => String.ofList trimmed
  | _ => Path.join "" (String.ofList trimmed)

/-! ### Equality -/

mutual

def same : DataTree → DataTree → Bool
  | ⟨n, v, as⟩, ⟨m, w, bs⟩ => n = m && (v = w && sameAll as bs)

def sameAll : List DataTree → List DataTree → Bool
  | [], [] => true
  | a :: as, b :: bs => same a b && sameAll as bs
  | _, _ => false

end

mutual

theorem same_iff (a b : DataTree) : same a b = true ↔ a = b := by
  cases a with
  | mk n v as => cases b; simp [same, sameAll_iff as]

theorem sameAll_iff (as bs : List DataTree) : sameAll as bs = true ↔ as = bs := by
  cases as with
  | nil => cases bs <;> simp [sameAll]
  | cons a as =>
    cases bs with
    | nil => simp [sameAll]
    | cons b bs =>
      simp only [sameAll, Bool.and_eq_true, List.cons.injEq]
      rw [same_iff a, sameAll_iff as]

end

instance : DecidableEq DataTree := fun a b => decidable_of_iff _ (same_iff a b)

/-! ### Search -/

mutual

/-- The node at `target` below a tree at the path `own`. -/
def findBelow (own target : String) : DataTree → Option DataTree
  | ⟨_, _, children⟩ => findAmong own target children

def findAmong (own target : String) : List DataTree → Option DataTree
  | [] => none
  | child :: rest =>
    let path := Path.join own child.name
    if path = target then some child
    else
      match if Text.startsWith path target then findBelow path target child else none with
      | some found => some found
      | none => findAmong own target rest

end

/-- The node at an absolute path. -/
def find? (target : String) (tree : DataTree) : Option DataTree :=
  let root := tree.rootPath
  if root = target then some tree
  else if (Path.below? root target).isSome then findBelow root target tree
  else none

mutual

/-- The nodes below a tree at the path `own`, each before its own children. -/
def walkBelow (own : String) : DataTree → List (String × DataTree)
  | ⟨_, _, children⟩ => walkAll own children

def walkAll (own : String) : List DataTree → List (String × DataTree)
  | [] => []
  | child :: rest =>
    let path := Path.join own child.name
    (path, child) :: (walkBelow path child ++ walkAll own rest)

end

/-- All nodes below the root with their paths. -/
def walk (tree : DataTree) : List (String × DataTree) := walkBelow tree.rootPath tree

/-! ### Insertion -/

/-- Changes the first child of that name, or a new one behind the others. -/
def alter (name : String) (change : DataTree → DataTree) : List DataTree → List DataTree
  | [] => [change (new name)]
  | child :: rest =>
    if child.name = name then change child :: rest else child :: alter name change rest

/-- Sets the value of the node that the names lead to. -/
def put (value : String) : (names : List String) → DataTree → DataTree
  | [], tree => { tree with value := some value }
  | name :: names, tree => { tree with children := alter name (put value names) tree.children }

/-- Sets the value at a path below the root, making the nodes that lead there. -/
def insert? (target value : String) (tree : DataTree) : Option DataTree :=
  (Path.below? tree.rootPath target).map fun rest => put value (Path.segments rest) tree

variable {tree : DataTree} {name target value : String}

@[simp] theorem name_put {names : List String} : (put value names tree).name = tree.name := by
  cases names <;> rfl

theorem insert?_eq_none_iff :
    tree.insert? target value = none ↔ ∀ rest, target ≠ Path.join tree.rootPath rest := by
  rw [insert?, Option.map_eq_none_iff, Option.eq_none_iff_forall_ne_some]
  simp [Path.below?_eq_some_iff]

end DataTree

end YangConstraint
