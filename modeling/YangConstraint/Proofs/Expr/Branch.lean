import Mathlib.Tactic.Common
import YangConstraint.Expr.Basic

/-! The branches of an expression tree, from its root to its leaves, and the
weight of the heaviest. -/
namespace YangConstraint

/-- What a node weighs: an operator, and a node of any other form. -/
structure Weights where
  operator : Nat
  other : Nat

namespace Expr

/-- The nodes directly below a node. A missing operand is none of them. -/
def children : Expr → List Expr
  | operator _ left right | step left right | predicate left right _ =>
    [left, right].filter fun e => !e.isHole
  | call _ _ args => args.filter fun e => !e.isHole
  | _ => []

/-- The nodes on the way from the root of a tree down to one of its leaves. A hole
has no such way. -/
inductive Branch : Expr → List Expr → Prop where
  | leaf {e : Expr} (he : e.isHole = false) (h : e.children = []) : Branch e [e]
  | node {e child : Expr} {path : List Expr} (hc : child ∈ e.children) (h : Branch child path) :
    Branch e (e :: path)

def isOperator : Expr → Bool
  | operator .. => true
  | _ => false

variable (k : Weights)

def nodeWeight (e : Expr) : Nat := if e.isOperator then k.operator else k.other

/-- The weight of all nodes on a path. -/
def pathWeight : (path : List Expr) → Nat
  | [] => 0
  | e :: path => nodeWeight k e + pathWeight path

mutual

/-- The weight of the heaviest branch, none for a hole. -/
def heaviest : Expr → Nat
  | hole => 0
  | operator _ left right => k.operator + max (heaviest left) (heaviest right)
  | step left right | predicate left right _ => k.other + max (heaviest left) (heaviest right)
  | call _ _ args => k.other + heaviestAll args
  | string _ | number _ | axis .. | reference .. => k.other

def heaviestAll : List Expr → Nat
  | [] => 0
  | e :: es => max (heaviest e) (heaviestAll es)

end

variable {k} {e child : Expr} {es path : List Expr}

theorem heaviest_hole : heaviest k hole = 0 := by rw [heaviest]

theorem isHole_iff : e.isHole = true ↔ e = hole := by
  cases e <;> simp [isHole]

theorem isHole_of_heaviest_pos (h : 0 < heaviest k e) : e.isHole = false := by
  cases e with
  | hole => cases h
  | _ => rfl

theorem heaviestAll_le_iff {n : Nat} : heaviestAll k es ≤ n ↔ ∀ e ∈ es, heaviest k e ≤ n := by
  induction es with
  | nil => simp [heaviestAll]
  | cons e es ih =>
    rw [heaviestAll, Nat.max_le, ih]
    simp

/-- The heaviest branch goes on through one of the children, if there are
any that weigh something. -/
theorem heaviest_eq (he : e.isHole = false) :
    heaviest k e = nodeWeight k e + heaviestAll k e.children := by
  have hpair : ∀ left right : Expr, heaviestAll k ([left, right].filter fun e => !e.isHole) =
      max (heaviest k left) (heaviest k right) := by
    intro left right
    have hzero : ∀ {e : Expr}, e.isHole = true → heaviest k e = 0 := by
      intro e h
      rw [isHole_iff.1 h, heaviest]
    cases hl : left.isHole <;> cases hr : right.isHole <;> simp [hl, hr, hzero, heaviestAll]
  have hall :
      ∀ args : List Expr, heaviestAll k (args.filter fun e => !e.isHole) = heaviestAll k args := by
    intro args
    induction args with
    | nil => rfl
    | cons arg args ih =>
      cases h : arg.isHole with
      | false => simp [h, heaviestAll, ih]
      | true =>
        obtain rfl := isHole_iff.1 h
        rw [List.filter_cons_of_neg (by simp [h]), ih, heaviestAll, heaviest, Nat.zero_max]
  cases e with
  | hole => cases he
  | operator op left right => rw [children, hpair, heaviest]; rfl
  | step left right => rw [children, hpair, heaviest]; rfl
  | predicate left right reverse => rw [children, hpair, heaviest]; rfl
  | call qualifier name args => rw [children, hall, heaviest]; rfl
  | _ => simp [heaviest, nodeWeight, isOperator, children, heaviestAll]

theorem isHole_of_mem_children (h : child ∈ e.children) :
    e.isHole = false ∧ child.isHole = false := by
  cases e <;> simp only [children, List.mem_filter, List.not_mem_nil] at h <;>
    exact ⟨rfl, by simpa using h.2⟩

theorem sizeOf_lt_of_mem_children (h : child ∈ e.children) : sizeOf child < sizeOf e := by
  cases e <;> simp only [children, List.mem_filter, List.not_mem_nil] at h
  case call qualifier name args =>
    have := List.sizeOf_lt_of_mem h.1
    simp only [call.sizeOf_spec]
    omega
  all_goals
    simp only [List.mem_cons, List.not_mem_nil, or_false] at h
    rcases h.1 with rfl | rfl <;>
      simp only [operator.sizeOf_spec, step.sizeOf_spec, predicate.sizeOf_spec] <;> omega

theorem Branch.exists_eq_cons (h : e.Branch path) : ∃ rest, path = e :: rest := by
  cases h with
  | leaf => exact ⟨[], rfl⟩
  | node => exact ⟨_, rfl⟩

/-- No branch weighs more than the heaviest. -/
theorem pathWeight_le (h : e.Branch path) : pathWeight k path ≤ heaviest k e := by
  induction h with
  | leaf he h => simp [pathWeight, heaviest_eq he]
  | @node e child path hc h ih =>
    have hle : heaviest k child ≤ heaviestAll k e.children :=
      heaviestAll_le_iff.1 (Nat.le_refl _) child hc
    rw [heaviest_eq (isHole_of_mem_children hc).1, pathWeight]
    omega

/-- Some branch weighs as much as the heaviest. -/
theorem exists_branch (k : Weights) {e : Expr} (he : e.isHole = false) :
    ∃ path, e.Branch path ∧ pathWeight k path = heaviest k e := by
  have hmax : ∀ es : List Expr, es ≠ [] → ∃ e ∈ es, heaviest k e = heaviestAll k es := by
    intro es
    induction es with
    | nil => exact fun h => absurd rfl h
    | cons e es ih =>
      intro _
      rcases Nat.le_total (heaviestAll k es) (heaviest k e) with h | h
      · exact ⟨e, .head _, by rw [heaviestAll, Nat.max_eq_left h]⟩
      · by_cases hes : es = []
        · subst hes
          exact ⟨e, .head _, by rw [heaviestAll, heaviestAll, Nat.max_eq_left (Nat.zero_le _)]⟩
        · obtain ⟨other, ho, heq⟩ := ih hes
          exact ⟨other, .tail _ ho, by rw [heaviestAll, Nat.max_eq_right h, heq]⟩
  by_cases hc : e.children = []
  · exact ⟨[e], .leaf he hc, by simp [pathWeight, heaviest_eq he, hc, heaviestAll]⟩
  · obtain ⟨child, hmem, heq⟩ := hmax e.children hc
    have hlt := sizeOf_lt_of_mem_children hmem
    obtain ⟨path, hpath, hsum⟩ := exists_branch k (isHole_of_mem_children hmem).2
    refine ⟨e :: path, .node hmem hpath, ?_⟩
    rw [heaviest_eq he, ← heq, ← hsum, pathWeight]
termination_by sizeOf e

theorem pathWeight_nodes (path : List Expr) : pathWeight ⟨1, 1⟩ path = path.length := by
  induction path with
  | nil => rfl
  | cons e path ih => rw [pathWeight, ih, List.length_cons, nodeWeight, ite_self, Nat.add_comm]

theorem pathWeight_operators (path : List Expr) :
    pathWeight ⟨1, 0⟩ path = path.countP isOperator := by
  induction path with
  | nil => rfl
  | cons e path ih => rw [pathWeight, ih, List.countP_cons, nodeWeight, Nat.add_comm]

end Expr

end YangConstraint
