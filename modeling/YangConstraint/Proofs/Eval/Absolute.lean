import YangConstraint.Proofs.Data.Path
import YangConstraint.Proofs.Eval.Walk

/-!
Absolute paths of names. Such a path leads to itself unless it passes the context node, which lies
in a container: there the next name is taken from the parent of the context node.
-/
namespace YangConstraint

namespace Link

def child (name : String) : Link := .test .child .element none (some name)

/-- The tree of an absolute path. -/
def absolute (names : List String) : Expr := chain (.test .root .any none none) (names.map child)

end Link

namespace Path

def slashes (path : String) : Nat := path.toList.count '/'

variable {base name path : String} {names : List String}

theorem slashes_join (h : '/' ∉ name.toList) : slashes (join base name) = slashes base + 1 := by
  rw [slashes, toList_join, List.count_append, List.count_cons_self,
    List.count_eq_zero.2 h, slashes]

theorem slashes_foldl (h : ∀ name ∈ names, '/' ∉ name.toList) :
    slashes (names.foldl join base) = slashes base + names.length := by
  induction names generalizing base with
  | nil => rfl
  | cons name names ih =>
    rw [List.foldl_cons, ih fun other ho => h other (.tail _ ho), slashes_join (h name (.head _)),
      List.length_cons]
    omega

theorem slashes_parent (h : parent? path = some base) : slashes base < slashes path := by
  obtain ⟨⟨before, rest⟩, hs, he⟩ := Option.map_eq_some_iff.1 h
  have hpath : path.toList = before ++ '/' :: rest := (Text.splitLast_eq_some hs).1
  obtain rfl : String.ofList before = base := he
  rw [slashes, slashes, hpath, String.toList_ofList, List.count_append, List.count_cons_self]
  omega

theorem slashes_anchor (path : String) : slashes ((parent? path).getD path) ≤ slashes path := by
  cases h : parent? path with
  | none => exact Nat.le_refl _
  | some base => exact Nat.le_of_lt (slashes_parent h)

end Path

namespace Context

open YangConstraint.Path

variable {ctx : Context} {base path : String} {names : List String} {reanchored : Bool}

theorem walk_child (name : String) (rest : List Link) :
    ctx.walk reanchored base (.child name :: rest) =
      let anchored := (base = ctx.path && ctx.inContainer) && !(rest.isEmpty && reanchored)
      ctx.walk anchored
        (join (if anchored then (parent? ctx.path).getD ctx.path else base) name) rest := rfl

/-- Names that never lead on from the context node build what they spell. -/
theorem walk_of_apart (h : ∀ k < names.length, ¬ ((names.take k).foldl join base = ctx.path ∧
    ctx.inContainer = true)) :
    ctx.walk reanchored base (names.map .child) = .ok (names.foldl join base) := by
  induction names generalizing base reanchored with
  | nil => rfl
  | cons name names ih =>
    have hbase : (base = ctx.path && ctx.inContainer) = false := by
      have := h 0 (Nat.zero_lt_succ _)
      simpa using this
    rw [List.map_cons, walk_child]
    simp only [hbase, Bool.false_and, Bool.false_eq_true, if_false]
    exact ih fun k hk => by simpa using h (k + 1) (Nat.succ_lt_succ hk)

/-- A walk along names has at most as many slashes as they spell. -/
theorem walk_le (hn : ∀ name ∈ names, '/' ∉ name.toList) :
    ∃ path, ctx.walk reanchored base (names.map .child) = .ok path ∧
      slashes path ≤ slashes base + names.length := by
  induction names generalizing base reanchored with
  | nil => exact ⟨base, rfl, Nat.le_refl _⟩
  | cons name names ih =>
    rw [List.map_cons, walk_child]
    dsimp only
    generalize hanchored : ((base = ctx.path && ctx.inContainer) &&
      !((names.map Link.child).isEmpty && reanchored)) = anchored
    have hstart : slashes (if anchored then (parent? ctx.path).getD ctx.path else base) ≤
        slashes base := by
      cases anchored with
      | false => exact Nat.le_refl _
      | true =>
        have hb : base = ctx.path := by
          simp only [Bool.and_eq_true, decide_eq_true_eq] at hanchored
          exact hanchored.1.1
        rw [hb]
        exact slashes_anchor ctx.path
    obtain ⟨path, hpath, hle⟩ := @ih
      (join (if anchored then (parent? ctx.path).getD ctx.path else base) name) anchored
      fun other ho => hn other (.tail _ ho)
    rw [slashes_join (hn name (.head _))] at hle
    exact ⟨path, hpath, by rw [List.length_cons]; omega⟩

/-- One that leads on from the context node has fewer. -/
theorem walk_lt (hn : ∀ name ∈ names, '/' ∉ name.toList) (hc : ctx.inContainer = true)
    (hp : parent? ctx.path = some path)
    (h : ∃ k < names.length, (names.take k).foldl join base = ctx.path) :
    ∃ path, ctx.walk false base (names.map .child) = .ok path ∧
      slashes path < slashes base + names.length := by
  induction names generalizing base with
  | nil =>
    obtain ⟨k, hk, -⟩ := h
    cases hk
  | cons name names ih =>
    have hn' : ∀ other ∈ names, '/' ∉ other.toList := fun other ho => hn other (.tail _ ho)
    rw [List.map_cons, walk_child]
    by_cases hb : base = ctx.path
    · subst hb
      obtain ⟨final, hfinal, hle⟩ := @walk_le ctx (join path name) names true hn'
      rw [slashes_join (hn name (.head _))] at hle
      have hlt := slashes_parent hp
      refine ⟨final, ?_, by rw [List.length_cons]; omega⟩
      simpa [hc, hp] using hfinal
    · obtain ⟨k, hk, hpath⟩ := h
      cases k with
      | zero => exact absurd hpath hb
      | succ k =>
        obtain ⟨final, hfinal, hlt⟩ :=
          @ih (join base name) hn' ⟨k, by simpa using hk, by simpa using hpath⟩
        rw [slashes_join (hn name (.head _))] at hlt
        refine ⟨final, ?_, by rw [List.length_cons]; omega⟩
        simpa [hb] using hfinal

theorem arrive_inj {p q : String} (h : ctx.arrive (.ok p) = ctx.arrive (.ok q)) : p = q := by
  simp only [arrive] at h
  cases hp : ctx.existing? p <;> cases hq : ctx.existing? q <;> simp [hp, hq] at h
  · exact h
  · exact h.1

theorem inContainer_empty (h : ctx.path = "") : ctx.inContainer = false := by
  simp [inContainer, h, Schema.lookup, Schema.lookupFrom]

end Context

namespace Environment

open Context

variable {env : Environment} {path : String} {data : DataTree}

theorem outcome_walk {names : List String} (hne : names ≠ []) :
    env.outcome (Link.absolute names) path data =
      (env.context path data).arrive
        ((env.context path data).walk false "" (names.map .child)) := by
  obtain ⟨name, names, rfl⟩ := List.exists_cons_of_ne_nil hne
  rw [outcome, Link.absolute, List.map_cons, evaluate_start,
    evaluate_walk rfl _ _ _ _ _ false, walk_cons]
  rfl

/-- An absolute path of names has the outcome of what lies there, from everywhere but from a node in
a container that the path passes. -/
theorem outcome_absolute_iff (env : Environment) (names : List String) (path : String)
    (data : DataTree) (hne : names ≠ []) (hn : ∀ name ∈ names, '/' ∉ name.toList) :
    env.outcome (Link.absolute names) path data =
        (env.context path data).arrive (.ok (Path.absolute names)) ↔
      ¬ ((env.context path data).inContainer = true ∧
        ∃ k, 0 < k ∧ k < names.length ∧ path = Path.absolute (names.take k)) := by
  rw [outcome_walk hne]
  constructor
  · rintro h ⟨hc, k, hpos, hk, hpath⟩
    have hslashes : Path.slashes path = k := by
      rw [hpath, Path.absolute, Path.slashes_foldl fun name h => hn name (List.mem_of_mem_take h),
        List.length_take, Nat.min_eq_left (Nat.le_of_lt hk)]
      exact Nat.zero_add k
    obtain ⟨above, habove⟩ : ∃ above, Path.parent? path = some above := by
      refine Option.ne_none_iff_exists'.1 fun hnone => ?_
      rw [Path.parent?_eq_none_iff, ← List.count_eq_zero] at hnone
      exact Nat.ne_of_gt hpos (hslashes.symm.trans hnone)
    obtain ⟨final, hfinal, hlt⟩ :=
      @walk_lt (env.context path data) "" above names hn hc habove ⟨k, hk, hpath.symm⟩
    rw [hfinal] at h
    rw [arrive_inj h, Path.absolute, Path.slashes_foldl hn] at hlt
    exact Nat.lt_irrefl _ hlt
  · intro h
    rw [walk_of_apart]
    · rfl
    · rintro k hk ⟨hpath, hc⟩
      cases k with
      | zero =>
        rw [inContainer_empty hpath.symm] at hc
        cases hc
      | succ k => exact h ⟨hc, k + 1, Nat.succ_pos k, hk, hpath.symm⟩

/-- A tree with a value in the innermost container. -/
def innermostValue : DataTree := (DataTree.new "/").put "1" ["a", "b", "c"]

/-- From the outermost container the value is found. Where it lies outside and is a name, it is
given as the value that the innermost leaf has for this name. -/
theorem outcome_absolute_outermost :
    (["a", "b", "c"] ≠ [] ∧ ∀ name ∈ ["a", "b", "c"], '/' ∉ name.toList) ∧
      nestedContainers.outcome (Link.absolute ["a", "b", "c"]) "/a" innermostValue =
        .success ⟨"/a/b/c", "1"⟩ ∧
      namedLeaves.outcome (Link.absolute ["a", "b", "c"]) "/a" (.new "/") =
        .success ⟨"/a/b/c", "2"⟩ := by
  have hne : ["a", "b", "c"] ≠ [] := by decide
  have hn : ∀ name ∈ ["a", "b", "c"], '/' ∉ name.toList := by decide
  have hc : (nestedContainers.context "/a" innermostValue).inContainer = false := by
    decide +kernel
  have houtside : (namedLeaves.context "/a" (.new "/")).inContainer = false := by decide +kernel
  refine ⟨⟨hne, hn⟩, ?_, ?_⟩
  · refine ((outcome_absolute_iff _ _ _ _ hne hn).2 ?_).trans (by decide +kernel)
    simp [hc]
  · refine ((outcome_absolute_iff _ _ _ _ hne hn).2 ?_).trans (by decide +kernel)
    simp [houtside]

/-- From the container in between it is not: the last name is taken from the outermost one. -/
theorem outcome_absolute_between :
    nestedContainers.outcome (Link.absolute ["a", "b", "c"]) "/a/b" innermostValue =
        .failure (.pathNotFound "/a/c") ∧
      (nestedContainers.context "/a/b" innermostValue).arrive
        (.ok (Path.absolute ["a", "b", "c"])) = .success ⟨"/a/b/c", "1"⟩ := by
  constructor <;> decide +kernel

end Environment

end YangConstraint
