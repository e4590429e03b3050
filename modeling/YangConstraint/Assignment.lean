import YangConstraint.Store

/-! Data written as a list of `PATH=VALUE`. -/
namespace YangConstraint

structure Assignment where
  path : String
  value : String
deriving DecidableEq

inductive AssignmentError where
  | invalid (text : String)
deriving DecidableEq

def AssignmentError.message : AssignmentError → String
  | invalid text => s!"Invalid assignment '{text}', expected PATH=VALUE with an absolute PATH"

namespace Assignment

/-- Splits a text at the first `=`. Before it stands more than the slash that a path begins with. -/
def ofText (text : String) : Except AssignmentError Assignment :=
  match Text.splitFirst? '=' text with
  | some (path, value) =>
    if Text.startsWith "/" path && path ≠ "/" then .ok ⟨path, value⟩ else .error (.invalid text)
  | none => .error (.invalid text)

def insert (text : String) (tree : DataTree) : Except AssignmentError DataTree := do
  let assignment ← ofText text
  match tree.insert? assignment.path assignment.value with
  | some tree => return tree
  | none => throw (.invalid text)

def store (text : String) (store : Store) : Except AssignmentError Store := do
  let assignment ← ofText text
  match store.set assignment.path assignment.value with
  | .ok store => return store
  | .error _ => throw (.invalid text)

/-- The data tree that assignments make, one after the other. -/
def treeOf (texts : List String) : Except AssignmentError DataTree :=
  texts.foldlM (fun tree text => insert text tree) (.new "/")

/-- The store that assignments fill. -/
def storeOf (texts : List String) : Except AssignmentError Store :=
  texts.foldlM (fun kept text => store text kept) .empty

end Assignment

end YangConstraint
