import Mathlib.Tactic.Common
import YangConstraint.Condition
import YangConstraint.Proofs.Data.Insertion
import YangConstraint.Proofs.Data.Traversal

/-!
What the check of a tree reports. The conditions that the schema puts on the nodes of a tree stand
in one list, and the check comes to the first of them that does not hold. It leaves out the root,
which the search finds.
-/
namespace YangConstraint

section

variable {α β γ : Type} {xs : List α}

theorem findSome?_flatMap {f : α → List β} {g : β → Option γ} :
    (xs.flatMap f).findSome? g = xs.findSome? fun x => (f x).findSome? g := by
  induction xs with
  | nil => rfl
  | cons x xs ih =>
    rw [List.flatMap_cons, List.findSome?_append, List.findSome?_cons, ih]
    cases (f x).findSome? g <;> rfl

theorem findSome?_filter {p : α → Bool} {f : α → Option β} :
    (xs.filter p).findSome? f = xs.findSome? fun x => if p x then f x else none := by
  induction xs with
  | nil => rfl
  | cons x xs ih => cases hp : p x <;> simp [List.findSome?_cons, hp, ih]

theorem findSome?_toList {found : Option α} {f : α → Option β} :
    found.toList.findSome? f = found.bind f := by
  cases found with
  | none => rfl
  | some x => simp

/-- To keep the first find while going on is to stop at it. -/
theorem foldl_or_eq {f : α → Option β} (found : Option β) :
    xs.foldl (fun found x => found.or (f x)) found = found.or (xs.findSome? f) := by
  induction xs generalizing found with
  | nil => simp
  | cons x xs ih =>
    rw [List.foldl_cons, ih, Option.or_assoc, List.findSome?_cons]
    cases f x <;> rfl

end

namespace Schema

/-- The conditions of a node are listed by their kinds. -/
theorem conditions_eq (schema : Schema) (id : Nat) :
    schema.conditions id = [ConditionKind.when, .must, .ifFeature].flatMap fun kind =>
      ((schema.attribute? id kind.key).toList.filter (!Text.allBlank ·)).map (⟨kind, ·⟩) := by
  rw [conditions, List.filterMap_eq_flatMap_toList, ConditionKind.all]
  congr 1
  funext kind
  cases schema.attribute? id kind.key with
  | none => rfl
  | some text => cases hb : Text.allBlank text <;> simp [hb]

end Schema

namespace Environment

variable {env : Environment} {data node : DataTree} {path : String} {condition : Condition}
  {violation : Violation}

/-- The conditions that a tree is under, each with the path of its node: those of the nodes that
carry data and are known to the schema, in the order of the walk. -/
def obligations (env : Environment) (data : DataTree) : List (String × Condition) :=
  (data.walk.filter (·.2.hasData)).flatMap fun place =>
    (env.schema.lookup place.1).toList.flatMap fun id =>
      [ConditionKind.when, .must, .ifFeature].flatMap fun kind =>
        ((env.schema.attribute? id kind.key).toList.filter (!Text.allBlank ·)).map fun text =>
          (place.1, ⟨kind, text⟩)

/-- What a visit remembers of the nodes it has come to: the first violation. -/
def remember (env : Environment) (data : DataTree) (found : Option Violation) (path : String)
    (node : DataTree) : Option Violation :=
  match found with
  | some violation => some violation
  | none => env.violationAt? data path node

theorem violation?_eq_some_iff : env.violation? condition path data = some violation ↔
    violation.path = path ∧ violation.condition = condition ∧
      env.outcome (.ofText condition.text) path data = .failure violation.reason := by
  obtain ⟨place, due, reason⟩ := violation
  rw [violation?]
  cases env.outcome (.ofText condition.text) path data with
  | success resolved => simp [Outcome.reason?]
  | failure other =>
    rw [Outcome.reason?, Option.map_some, Option.some.injEq, Violation.mk.injEq,
      Outcome.failure.injEq, eq_comm, @eq_comm _ condition]

/-- The check of a tree goes through its obligations. -/
theorem firstViolation?_eq_findSome? (env : Environment) (data : DataTree) :
    env.firstViolation? data =
      (env.obligations data).findSome? fun due => env.violation? due.2 due.1 data := by
  rw [firstViolation?, obligations, findSome?_flatMap, findSome?_filter]
  -- The two agree node by node, and at one node kind by kind.
  congr 1
  funext place
  rw [violationAt?, findSome?_flatMap, findSome?_toList]
  congr 2
  funext id
  rw [Schema.conditions_eq, findSome?_flatMap, findSome?_flatMap]
  simp only [List.findSome?_map]
  rfl

/-- A visit that cannot stop remembers the violation at which the check stops. -/
theorem visit_remember (env : Environment) (data : DataTree) :
    data.visit (env.remember data) none = env.firstViolation? data := by
  have hstep : env.remember data = fun found path node =>
      found.or (env.violationAt? data path node) := by
    funext found path node
    cases found <;> rfl
  rw [DataTree.visit_eq_foldl, hstep, firstViolation?]
  exact foldl_or_eq none

/-- A tree passes the check just if every obligation is met, and otherwise the first that is not is
reported: its path, its kind and expression, and why it does not hold. A visit to every node ends
with the same report. -/
theorem firstViolation?_obligations (env : Environment) (data : DataTree) :
    (env.firstViolation? data = none ↔
      ∀ due ∈ env.obligations data, env.violation? due.2 due.1 data = none) ∧
    (∀ violation, env.firstViolation? data = some violation ↔ ∃ before after,
      env.obligations data = before ++ (violation.path, violation.condition) :: after ∧
        (∀ due ∈ before, env.violation? due.2 due.1 data = none) ∧
        env.outcome (.ofText violation.condition.text) violation.path data =
          .failure violation.reason) ∧
    data.visit (env.remember data) none = env.firstViolation? data := by
  refine ⟨?_, fun violation => ?_, visit_remember env data⟩
  · rw [firstViolation?_eq_findSome?, List.findSome?_eq_none_iff]
  · rw [firstViolation?_eq_findSome?, List.findSome?_eq_some_iff]
    constructor
    · rintro ⟨before, ⟨path, condition⟩, after, hsplit, hv, hbefore⟩
      obtain ⟨rfl, rfl, hreason⟩ := violation?_eq_some_iff.1 hv
      exact ⟨before, after, hsplit, hbefore, hreason⟩
    · rintro ⟨before, after, hsplit, hbefore, hreason⟩
      exact ⟨before, _, after, hsplit, violation?_eq_some_iff.2 ⟨rfl, rfl, hreason⟩, hbefore⟩

/-- The obligations are the conditions at the nodes of the walk. -/
theorem mem_obligations_iff : (path, condition) ∈ env.obligations data ↔ ∃ node id,
    (path, node) ∈ data.walk ∧ node.hasData = true ∧ env.schema.lookup path = some id ∧
      condition ∈ env.schema.conditions id := by
  rw [obligations]
  simp only [List.mem_flatMap, List.mem_filter, Option.mem_toList, Schema.conditions_eq,
    List.mem_map, Prod.mk.injEq]
  constructor
  · rintro ⟨⟨path, node⟩, ⟨hw, hd⟩, id, hid, kind, hk, text, ht, rfl, rfl⟩
    exact ⟨node, id, hw, hd, hid, kind, hk, text, ht, rfl⟩
  · rintro ⟨node, id, hw, hd, hid, kind, hk, text, ht, rfl⟩
    exact ⟨(path, node), ⟨hw, hd⟩, id, hid, kind, hk, text, ht, rfl, rfl⟩

/-- Where siblings have names of their own, the check fails just if a node that the search finds
violates a condition, other than the root. -/
theorem isSome_firstViolation?_iff (env : Environment) (data : DataTree) (h : data.Proper) :
    (env.firstViolation? data).isSome = true ↔ ∃ path node id condition,
      path ≠ data.rootPath ∧ data.find? path = some node ∧ node.hasData = true ∧
        env.schema.lookup path = some id ∧ condition ∈ env.schema.conditions id ∧
        (env.violation? condition path data).isSome = true := by
  rw [firstViolation?_eq_findSome?, List.findSome?_isSome_iff]
  constructor
  · rintro ⟨⟨path, condition⟩, hdue, hv⟩
    obtain ⟨node, id, hw, hd, hid, hc⟩ := mem_obligations_iff.1 hdue
    obtain ⟨hroot, hf⟩ := h.mem_walk_iff.1 hw
    exact ⟨path, node, id, condition, hroot, hf, hd, hid, hc, hv⟩
  · rintro ⟨path, node, id, condition, hroot, hf, hd, hid, hc, hv⟩
    have hw : (path, node) ∈ data.walk := h.mem_walk_iff.2 ⟨hroot, hf⟩
    exact ⟨(path, condition), mem_obligations_iff.2 ⟨node, id, hw, hd, hid, hc⟩, hv⟩

end Environment

/-- A schema of a node `b` in a node `a`, where a condition that never holds is put on
the node at `path`. -/
def neverAt (path : String) : Environment where
  schema :=
    let (id, schema) := (Schema.empty.insertPath "/a/b").2.insertPath path
    schema.setAttribute id "must" "1 = 2"
  source := .none

/-- A tree whose root has the path `/a`, and a value in it. -/
def insideRoot : DataTree := (DataTree.new "/a").put "1" ["b"]

/-- A violation below the root is reported. -/
theorem firstViolation?_belowRoot : insideRoot.Proper ∧
    ((neverAt "/a/b").firstViolation? insideRoot).isSome = true := by
  have hproper : insideRoot.Proper := DataTree.proper_new.put (by decide)
  refine ⟨hproper, (Environment.isSome_firstViolation?_iff _ _ hproper).2
    ⟨"/a/b", ⟨"b", some "1", []⟩, 2, ⟨.must, "1 = 2"⟩, ?_⟩⟩
  decide +kernel

/-- A violation at the root is not, although the search finds the root at its path. -/
theorem firstViolation?_atRoot : insideRoot.Proper ∧ insideRoot.find? "/a" = some insideRoot ∧
    insideRoot.hasData = true ∧ (neverAt "/a").schema.lookup "/a" = some 1 ∧
    ⟨.must, "1 = 2"⟩ ∈ (neverAt "/a").schema.conditions 1 ∧
    (neverAt "/a").violation? ⟨.must, "1 = 2"⟩ "/a" insideRoot =
      some ⟨"/a", ⟨.must, "1 = 2"⟩, .notSatisfied⟩ ∧
    (neverAt "/a").firstViolation? insideRoot = none := by
  refine ⟨DataTree.proper_new.put (by decide), ?_⟩
  decide +kernel

end YangConstraint
