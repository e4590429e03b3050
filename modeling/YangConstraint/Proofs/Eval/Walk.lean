import Mathlib.Tactic.Common
import YangConstraint.Eval.Basic

/-!
Location paths as walks. Each link leads from one path to the next, whether or not there is anything
there, and what the walk arrives at is looked up once: in the tree, then outside. Its value is given
as the names and values at the path translate it.
-/
namespace YangConstraint

/-- What stands between the slashes of a location path. -/
inductive Link where
  | test (axis : Axis) (type : NodeType) (qualifier name : Option String)
  | current (qualifier : Option String)

namespace Link

def expr : Link → Expr
  | test axis type qualifier name => .axis axis type qualifier name
  | current qualifier => .call qualifier "current" []

/-- The tree of a location path, in which each step holds the path behind it. -/
def chain (first : Link) : List Link → Expr
  | [] => first.expr
  | next :: links => .step first.expr (chain next links)

theorem isHole_chain (first : Link) (links : List Link) : (chain first links).isHole = false := by
  cases links <;> cases first <;> rfl

end Link

namespace Context

variable (ctx : Context)

/-- The path above `base`. -/
def above (base : String) : Except Reason String :=
  match Path.parent? base with
  | some path => .ok path
  | none => .error (.noParent base)

/-- Whether the link is a child test at the context node, which lies in a container. -/
def anchors (base : String) : Link → Bool
  | .test .child _ _ (some _) => base = ctx.path && ctx.inContainer
  | _ => false

/-- The path that a link builds on `base`. A child test that is `reanchored` leads below the parent
of the context node. -/
def build (reanchored : Bool) (base : String) : Link → Except Reason String
  | .current _ => .ok ctx.path
  | .test axis _ _ name =>
    match axis, name with
    | .child, none | .attribute, none => .error .unnamedNodeTest
    | .child, some name =>
      .ok (Path.join (if reanchored then (Path.parent? ctx.path).getD ctx.path else base) name)
    | .attribute, some name => .ok (Path.join base name)
    | .parent, _ => above base
    | .self, _ => if base = ctx.path then above base else .ok base
    | .root, _ => .ok ""
    | axis, _ => .error (.unsupportedAxis axis)

/-- The path that the links lead to from `base`. Only the last one minds whether the one before it
has been re-anchored. -/
def walk (reanchored : Bool) (base : String) : List Link → Except Reason String
  | [] => .ok base
  | link :: links => do
    let anchored := ctx.anchors base link && !(links.isEmpty && reanchored)
    let path ← ctx.build anchored base link
    walk anchored path links

/-- The outcome of a walk: what is stored where it arrives. -/
def arrive : Except Reason String → Outcome
  | .error reason => .failure reason
  | .ok path =>
    match ctx.existing? path with
    | some stored => .success ⟨path, stored⟩
    | none => .failure (.pathNotFound path)

end Context

/-- The outcome of a link, which is not looked up. -/
def Outcome.ofPath : Except Reason String → Outcome
  | .error reason => .failure reason
  | .ok path => .ofValue path

/-! ### What is found at a path -/

namespace Schema

variable {schema : Schema} {id : Nat} {text value : String}

/-- What a table makes of a text: the value of the first entry of that name, and the text itself
where no entry has that name. -/
def Translates (table : List (String × String)) (text value : String) : Prop :=
  (∃ before after, table = before ++ (text, value) :: after ∧ ∀ entry ∈ before, entry.1 ≠ text) ∨
    (∀ entry ∈ table, entry.1 ≠ text) ∧ value = text

theorem translates_values_iff :
    Translates (schema.values id) text value ↔ schema.stored id text = value := by
  have hfirst : (∃ before after, schema.values id = before ++ (text, value) :: after ∧
      ∀ entry ∈ before, entry.1 ≠ text) ↔
        (schema.values id).find? (·.1 = text) = some (text, value) := by
    simp [List.find?_eq_some_iff_append]
  have hnone : (∀ entry ∈ schema.values id, entry.1 ≠ text) ↔
      (schema.values id).find? (·.1 = text) = none := by simp
  rw [Translates, hfirst, hnone, stored]
  cases hfind : (schema.values id).find? (·.1 = text) with
  | none => simp [eq_comm]
  | some entry =>
    obtain rfl : entry.1 = text := by simpa using List.find?_some hfind
    simp [Prod.ext_iff]

theorem translates_nil_iff : Translates [] text value ↔ text = value := by
  simp [Translates, eq_comm (a := text)]

end Schema

namespace Context

variable {ctx : Context} {path : String} {node : DataTree} {stored : Option String}
  {reason : Reason}

/-- The names and values at a path, of which there are none without a schema node. -/
def table (ctx : Context) (path : String) : List (String × String) :=
  ((ctx.schema.lookup path).map ctx.schema.values).getD []

theorem translates_table_iff {text value : String} :
    Schema.Translates (ctx.table path) text value ↔ ctx.translate path text = value := by
  rw [table, translate]
  cases ctx.schema.lookup path with
  | none => exact Schema.translates_nil_iff
  | some id => exact Schema.translates_values_iff

theorem node?_eq_some_iff : ctx.node? path = some node ↔
    ctx.data.find? path = some node ∨
      ctx.data.find? path = none ∧ ctx.settings.storeFallback = true ∧
        ctx.source.tree? path = some node := by
  rw [node?, Option.or_eq_some_iff, Option.ite_none_right_eq_some]

theorem existing?_eq_some_iff : ctx.existing? path = some stored ↔
    ∃ node, ctx.node? path = some node ∧
      Option.Rel (Schema.Translates (ctx.table path)) node.value stored := by
  rw [existing?, Option.map_eq_some_iff]
  refine exists_congr fun node => and_congr_right fun _ => ?_
  cases node.value <;> cases stored <;> simp [translates_table_iff]

/-- A walk succeeds where it arrives at a node of the tree, or at one outside if data outside is
asked for and the tree has no node there. It gives the value of the node as the table of the path
translates it, if the node has one. -/
theorem arrive_eq_success_iff : ctx.arrive (.ok path) = .success ⟨path, stored⟩ ↔
    ∃ node,
      (ctx.data.find? path = some node ∨
        ctx.data.find? path = none ∧ ctx.settings.storeFallback = true ∧
          ctx.source.tree? path = some node) ∧
      Option.Rel (Schema.Translates (ctx.table path)) node.value stored := by
  have hgiven : ctx.arrive (.ok path) = .success ⟨path, stored⟩ ↔
      ctx.existing? path = some stored := by
    rw [arrive]
    cases ctx.existing? path <;> simp
  rw [hgiven, existing?_eq_some_iff]
  exact exists_congr fun node => and_congr_left fun _ => node?_eq_some_iff

/-- A walk fails where there is no node at all, with the path for a reason. -/
theorem arrive_eq_failure_iff : ctx.arrive (.ok path) = .failure reason ↔
    ctx.node? path = none ∧ reason = .pathNotFound path := by
  rw [arrive, existing?]
  cases ctx.node? path <;> simp [eq_comm]

end Context

/-! ### From one link to the next -/

namespace Context

variable {ctx : Context} {base : String} {first second link : Link} {links rest : List Link}
  {scope : Scope} {walked : Except Reason String}

theorem bind_arrive : (ctx.arrive walked).bind ctx.resolve = ctx.arrive walked := by
  cases walked with
  | error => rfl
  | ok path =>
    rw [arrive]
    cases h : ctx.existing? path with
    | none => rfl
    | some stored => simp [Outcome.bind, resolve, Outcome.ofValue?, h]

theorem bind_ofPath : (Outcome.ofPath walked).bind ctx.resolve = ctx.arrive walked := by
  cases walked <;> rfl

/-- A child test at the context node is re-anchored once. -/
theorem child_eq (name : String) : (ctx.child (some base) name).run scope =
    let anchored := (base = ctx.path && ctx.inContainer) && !scope.reanchored
    (.ofValue (Path.join (if anchored then (Path.parent? ctx.path).getD ctx.path else base) name),
      ⟨scope.reanchored || (base = ctx.path && ctx.inContainer)⟩) := by
  show child ctx (some base) name scope = _
  rw [child]
  cases scope with
  | mk reanchored =>
    by_cases hb : base = ctx.path <;> cases reanchored <;> cases hc : ctx.inContainer <;> simp [hb]

theorem parent_eq : ctx.parent (some base) = .ofPath (above base) := by
  rw [parent, above]
  cases h : Path.parent? base with
  | none => simp [h, Outcome.ofPath]
  | some path => simp [h, Outcome.ofPath]

theorem self_eq :
    ctx.self (some base) = .ofPath (if base = ctx.path then above base else .ok base) := by
  rw [self]
  by_cases hb : base = ctx.path
  · simp [hb, Option.filter, parent_eq]
  · simp [hb, Option.filter, Outcome.ofPath]

/-- A link is evaluated to the path that it builds. -/
theorem evaluate_link (hf : ctx.ofFeatures = false) (link : Link) (base : String) (scope : Scope) :
    (evaluate ctx link.expr (some base)).run scope =
      (.ofPath (ctx.build (ctx.anchors base link && !scope.reanchored) base link),
        ⟨scope.reanchored || ctx.anchors base link⟩) := by
  cases link with
  | current qualifier =>
    have hn : Function.ofName? "current" = some .current := by decide
    simp only [Link.expr, evaluate, hn]
    simp [anchors, build, Outcome.ofPath, apply]
    rfl
  | test axis type qualifier name =>
    show (ctx.along (some base) axis name).run scope = _
    cases axis with
    | child =>
      cases name with
      | none => simp [along, anchors, build, Outcome.ofPath]; rfl
      | some name =>
        have hc : ctx.along (some base) .child (some name) = ctx.child (some base) name := by
          simp [along, hf]
        rw [hc, child_eq]
        rfl
    | «attribute» => cases name <;> simp [along, anchors, build, Outcome.ofPath] <;> rfl
    | parent =>
      have hp : ctx.along (some base) .parent name = return ctx.parent (some base) := by
        cases name <;> rfl
      rw [hp, parent_eq]
      simp [anchors, build]
      rfl
    | self =>
      have hs : ctx.along (some base) .self name = return ctx.self (some base) := by
        cases name <;> rfl
      rw [hs, self_eq]
      simp [anchors, build]
      rfl
    | _ => cases name <;> simp [along, anchors, build, Outcome.ofPath] <;> rfl

/-- A step takes its right side from where its left side leads, and looks up where both lead to. -/
theorem evaluate_step_ok {left right : Expr} (hr : right.isHole = false) {path : String}
    {inner : Scope} (hl : (evaluate ctx left (some base)).run {} = (.ofPath (.ok path), inner)) :
    (evaluate ctx (.step left right) (some base)).run scope =
      (((evaluate ctx right (some path)).run inner).1.bind ctx.resolve, scope) := by
  simp only [evaluate, Option.getD_some, hl, hr]
  rfl

theorem evaluate_step_error {left right : Expr} (hr : right.isHole = false) {reason : Reason}
    {inner : Scope}
    (hl : (evaluate ctx left (some base)).run {} = (.ofPath (.error reason), inner)) :
    (evaluate ctx (.step left right) (some base)).run scope = (.failure reason, scope) := by
  simp only [evaluate, Option.getD_some, hl, hr]
  rfl

/-- The first of several links is re-anchored whenever it is a child test at the context node. -/
theorem walk_cons (reanchored : Bool) : ctx.walk reanchored base (first :: second :: rest) =
    ctx.build (ctx.anchors base first) base first >>= fun path =>
      ctx.walk (ctx.anchors base first) path (second :: rest) := by
  simp [walk]

theorem walk_last (reanchored : Bool) : ctx.walk reanchored base [link] =
    ctx.build (ctx.anchors base link && !reanchored) base link := by
  rw [walk, List.isEmpty_nil, Bool.true_and]
  cases ctx.build (ctx.anchors base link && !reanchored) base link <;> rfl

/-- A location path is evaluated to where its walk arrives if that holds behind its first link. -/
theorem evaluate_first (hf : ctx.ofFeatures = false) (reanchored : Bool)
    (h : ∀ path,
      ((evaluate ctx (second.chain rest) (some path)).run ⟨ctx.anchors base first⟩).1.bind
      ctx.resolve = ctx.arrive (ctx.walk (ctx.anchors base first) path (second :: rest))) :
    (evaluate ctx (first.chain (second :: rest)) (some base)).run scope =
      (ctx.arrive (ctx.walk reanchored base (first :: second :: rest)), scope) := by
  have hfirst := evaluate_link hf first base {}
  simp only [Bool.not_false, Bool.and_true, Bool.false_or] at hfirst
  rw [Link.chain, walk_cons]
  cases hb : ctx.build (ctx.anchors base first) base first with
  | error reason =>
    rw [hb] at hfirst
    rw [evaluate_step_error (Link.isHole_chain ..) hfirst]
    rfl
  | ok path =>
    rw [hb] at hfirst
    rw [evaluate_step_ok (Link.isHole_chain ..) hfirst, h path]
    rfl

theorem evaluate_walk (hf : ctx.ofFeatures = false) (first second : Link) (rest : List Link)
    (base : String) (scope : Scope) (reanchored : Bool) :
    (evaluate ctx (first.chain (second :: rest)) (some base)).run scope =
      (ctx.arrive (ctx.walk reanchored base (first :: second :: rest)), scope) := by
  induction rest generalizing first second base scope reanchored with
  | nil =>
    refine evaluate_first hf reanchored fun path => ?_
    rw [Link.chain, evaluate_link hf, bind_ofPath, walk_last]
  | cons third rest ih =>
    refine evaluate_first hf reanchored fun path => ?_
    rw [ih second third path ⟨ctx.anchors base first⟩ (ctx.anchors base first), bind_arrive]

/-- A location path starts at the context node where nothing has been reached. -/
theorem evaluate_start (ctx : Context) (first second : Link) (rest : List Link)
    (start : Option String) :
    evaluate ctx (first.chain (second :: rest)) start =
      evaluate ctx (first.chain (second :: rest)) (some (start.getD ctx.path)) := by
  rw [Link.chain, evaluate, evaluate]
  rfl

/-- Within no `if-feature()`, a location path of two or more links leads from one path to the next,
from where it starts, and is looked up where it arrives. The scope around it is left as it is. -/
theorem evaluate_chain (ctx : Context) (hf : ctx.ofFeatures = false) (first second : Link)
    (rest : List Link) (start : Option String) (scope : Scope) :
    (evaluate ctx (first.chain (second :: rest)) start).run scope =
      (ctx.arrive (ctx.walk false (start.getD ctx.path) (first :: second :: rest)), scope) := by
  rw [evaluate_start]
  exact evaluate_walk hf first second rest (start.getD ctx.path) scope false

end Context

/-- Containers `a`, `b` and `c`, each in the one before. -/
def nestedContainers : Environment := ⟨(Schema.empty.insertPath "/a/b/c").2, .none, {}⟩

/-- A tree with a value beside the innermost two. -/
def besideNested : DataTree := (DataTree.new "/").put "1" ["a", "c"]

/-- A container `b` in a container `a`, each with a leaf `c` that gives the name `up` a value of its
own. Outside are names for both leaves. -/
def namedLeaves : Environment :=
  let (outer, schema) := Schema.empty.insertPath "/a/c"
  let (inner, schema) := (schema.addValue outer "up" "1").insertPath "/a/b/c"
  let entries := Store.place "/a/c" "down" [("/a/b/c", "up")]
  ⟨schema.addValue inner "up" "2",
    Store.source ⟨entries, Store.sorted_place (List.pairwise_singleton ..)⟩, {}⟩

/-- From `/a/b`, the last link of `current()/c` leads to a sibling. A name there is given as its
value, and what lies outside does not matter. -/
theorem evaluate_chain_sibling :
    (nestedContainers.context "/a/b" besideNested).ofFeatures = false ∧
      (evaluate (nestedContainers.context "/a/b" besideNested)
        ((Link.current none).chain [.test .child .element none (some "c")]) none).run {} =
          (.success ⟨"/a/c", "1"⟩, {}) ∧
      (evaluate (namedLeaves.context "/a/b" ((DataTree.new "/").put "up" ["a", "c"]))
        ((Link.current none).chain [.test .child .element none (some "c")]) none).run {} =
          (.success ⟨"/a/c", "1"⟩, {}) := by
  have hf : (nestedContainers.context "/a/b" besideNested).ofFeatures = false := rfl
  refine ⟨hf, ?_, ?_⟩
  · rw [Context.evaluate_chain _ hf]
    refine Prod.ext ?_ rfl
    decide +kernel
  · rw [Context.evaluate_chain _ rfl]
    refine Prod.ext ?_ rfl
    decide +kernel

end YangConstraint
