import YangConstraint.Proofs.Expr.Assembly

/-!
A builder whose operations are functions folds the tree: what it gives is what its functions make of
the tree that the parse gives without it.
-/
namespace YangConstraint

variable {m : Type → Type} [Monad m] {α : Type}

namespace Builder

/-- The nodes of `b` are made by the functions of `f`, and it gives the whole result back. -/
structure Applies (b : Builder m α) (f : Builder Id α) : Prop where
  finish (result : Option α) : b.finish result = pure result
  string (value : String) : b.string value = pure (f.string value)
  number (text : String) : b.number text = pure (f.number text)
  operator (op : Operator) (left right : Option α) :
    b.operator op left right = pure (f.operator op left right)
  axis (axis : Axis) (type : NodeType) (qualifier name : Option String) :
    b.axis axis type qualifier name = pure (f.axis axis type qualifier name)
  step (left right : Option α) : b.step left right = pure (f.step left right)
  predicate (base condition : Option α) (reverse : Bool) :
    b.predicate base condition reverse = pure (f.predicate base condition reverse)
  reference (qualifier name : Option String) :
    b.reference qualifier name = pure (f.reference qualifier name)
  call (qualifier : Option String) (name : String) (args : List α) :
    b.call qualifier name args = pure (f.call qualifier name args)

variable (f : Builder Id α)

mutual

/-- What the functions of a builder make of a tree; a hole gives nothing. -/
def fold : Expr → Option α
  | .hole => none
  | .string value => some (f.string value)
  | .number text => some (f.number text)
  | .operator op left right => some (f.operator op (fold left) (fold right))
  | .axis axis type qualifier name => some (f.axis axis type qualifier name)
  | .step left right => some (f.step (fold left) (fold right))
  | .predicate base condition reverse => some (f.predicate (fold base) (fold condition) reverse)
  | .reference qualifier name => some (f.reference qualifier name)
  | .call qualifier name args => some (f.call qualifier name (foldAll args))

def foldAll : List Expr → List α
  | [] => []
  | arg :: args => (fold arg).toList ++ foldAll args

end

theorem fold_ofOption (e : Option Expr) : f.fold (.ofOption e) = e.bind f.fold := by
  cases e <;> rfl

theorem fold_joint (node : Joint) (left right : Option Expr) :
    f.fold (node.make Expr.builder left right) =
      some (node.make f (left.bind f.fold) (right.bind f.fold)) := by
  rw [← fold_ofOption, ← fold_ofOption]
  cases node <;> rfl

theorem foldAll_toList (e : Option Expr) (args : List Expr) :
    f.foldAll (e.toList ++ args) = (e.bind f.fold).toList ++ f.foldAll args := by
  cases e <;> rfl

end Builder

namespace Assembly

variable {b : Builder m α} {f : Builder Id α}

mutual

theorem made_eq (f : Builder Id α) (t : Assembly) : t.made f = t.tree.bind f.fold := by
  cases t with
  | leaf node => cases node <;> rfl
  | joint node left right =>
    show some (node.make f (left.made f) (right.made f)) =
      f.fold (node.make Expr.builder left.tree right.tree)
    rw [made_eq f left, made_eq f right, Builder.fold_joint]
  | call qualifier name args =>
    show some (f.call qualifier name (madeAll f args)) =
      some (f.call qualifier name (f.foldAll (treeAll args)))
    rw [madeAll_eq f args]
  | _ => rfl

theorem madeAll_eq (f : Builder Id α) (ts : List Assembly) :
    madeAll f ts = f.foldAll (treeAll ts) := by
  cases ts with
  | nil => rfl
  | cons t ts =>
    show (t.made f).toList ++ madeAll f ts = f.foldAll (t.tree.toList ++ treeAll ts)
    rw [Builder.foldAll_toList, made_eq f t, madeAll_eq f ts]

end

mutual

theorem run_applies [LawfulMonad m] (h : b.Applies f) (t : Assembly) :
    t.run b = pure (t.made f) := by
  cases t with
  | missing => rfl
  | dropped axis => simp only [run, h.axis, pure_bind]; rfl
  | leaf node =>
    cases node <;>
      simp only [run, Leaf.make, h.string, h.number, h.axis, h.reference, pure_bind] <;> rfl
  | joint node left right =>
    simp only [run, run_applies h left, run_applies h right, pure_bind]
    cases node <;> simp only [Joint.make, h.operator, h.step, h.predicate, pure_bind] <;> rfl
  | call qualifier name args =>
    simp only [run, runAll_applies h args, h.call, pure_bind]
    rfl

theorem runAll_applies [LawfulMonad m] (h : b.Applies f) (ts : List Assembly) :
    runAll b ts = pure (madeAll f ts) := by
  cases ts with
  | nil => rfl
  | cons t ts =>
    simp only [runAll, run_applies h t, runAll_applies h ts, pure_bind]
    rfl

end

end Assembly

end YangConstraint
