import Mathlib.Tactic.Common
import YangConstraint.Proofs.Data.Search
import YangConstraint.Proofs.Eval.Comparison

/-!
Comparisons with the names of an enumeration. What is stored may be the name or the value of an
entry: both operands are translated by the table of the location, so either form equals the name.
-/
namespace YangConstraint

namespace Schema

/-- Tables in which each name stands for a value of its own, and no value is the
name of another entry. -/
structure Unambiguous (table : List (String × String)) : Prop where
  names : (table.map (·.1)).Nodup
  values : (table.map (·.2)).Nodup
  apart : ∀ entry ∈ table, ∀ other ∈ table, entry.2 = other.1 → entry = other

variable {schema : Schema} {id : Nat} {name value text : String}

theorem stored_of_mem (h : Unambiguous (schema.values id)) (he : (name, value) ∈ schema.values id) :
    schema.stored id name = value := by
  have hfind : (schema.values id).find? (·.1 = name) = some (name, value) :=
    DataTree.find?_of_nodup_map h.names he
  rw [stored, hfind]
  rfl

/-- A text is translated to the value of an entry just if it is the value or the
name of that entry. -/
theorem stored_eq_iff (h : Unambiguous (schema.values id)) (he : (name, value) ∈ schema.values id) :
    schema.stored id text = value ↔ text = name ∨ text = value := by
  cases hfind : (schema.values id).find? (·.1 = text) with
  | none =>
    have hname : text ≠ name := by
      rintro rfl
      simpa using List.find?_eq_none.1 hfind _ he
    rw [stored, hfind]
    exact (or_iff_right hname).symm
  | some entry =>
    have hmem : entry ∈ schema.values id := List.mem_of_find?_eq_some hfind
    obtain rfl : entry.1 = text := by simpa using List.find?_some hfind
    rw [stored_of_mem h hmem]
    constructor
    · intro hv
      have hsame : entry = (name, value) := List.inj_on_of_nodup_map h.values hmem he hv
      exact .inl (congrArg Prod.fst hsame)
    · rintro (hn | hv)
      · have hsame : entry = (name, value) := List.inj_on_of_nodup_map h.names hmem he hn
        exact congrArg Prod.snd hsame
      · have hsame : (name, value) = entry := h.apart _ he _ hmem hv.symm
        exact (congrArg Prod.snd hsame).symm

end Schema

namespace Context

variable {ctx : Context} {l : Expr} {left outcome : Outcome} {start : Option String} {scope : Scope}
  {path : String}

/-- The outcome of a location as an operand is what is found at the path that it leads to. -/
theorem exists_operand_eq_resolve (hl : l.isLocation = true) (hf : ctx.ofFeatures = false)
    (start : Option String) (scope : Scope) :
    ∃ outcome : Outcome, ctx.operand l ((evaluate ctx l start).run scope).1 =
      outcome.bind ctx.resolve := by
  cases l with
  | axis axis type qualifier name => exact ⟨_, if_neg (by simp [hf])⟩
  | step left right =>
    rw [evaluate]
    by_cases hr : right.isHole = true
    · simp only [hr, if_true]
      exact ⟨_, rfl⟩
    · simp only [hr]
      exact ⟨_, rfl⟩
  | _ => cases hl

theorem bind_resolve_cases (outcome : Outcome) :
    (∃ reason, outcome.bind ctx.resolve = .failure reason) ∨
    ∃ path stored, ctx.existing? path = some stored ∧
      outcome.bind ctx.resolve = .success ⟨path, stored⟩ := by
  cases outcome with
  | failure reason => exact .inl ⟨reason, rfl⟩
  | success resolved =>
    obtain ⟨value, stored⟩ := resolved
    cases value with
    | none => exact .inl ⟨.noValue, rfl⟩
    | some path =>
      simp only [Outcome.bind, resolve, Outcome.ofValue?]
      cases hfound : ctx.existing? path with
      | none => exact .inl ⟨_, rfl⟩
      | some stored => exact .inr ⟨path, stored, hfound, rfl⟩

/-- A location that leads to a value is compared by what the schema translates it to. -/
theorem operand_eq_success {value : String} (hl : l.isLocation = true) (hf : ctx.ofFeatures = false)
    (hpath : (ctx.operand l ((evaluate ctx l start).run scope).1).value? = some path)
    (hvalue : (ctx.node? path).bind (·.value) = some value) :
    ctx.operand l ((evaluate ctx l start).run scope).1 =
      .success ⟨path, ctx.translate path value⟩ := by
  obtain ⟨outcome, ho⟩ := exists_operand_eq_resolve hl hf start scope
  rw [ho] at hpath ⊢
  rcases bind_resolve_cases outcome with ⟨reason, hr⟩ | ⟨found, stored, hs, hr⟩
  · rw [hr] at hpath
    cases hpath
  · rw [hr] at hpath ⊢
    obtain rfl : found = path := Option.some.inj hpath
    obtain ⟨node, hnode, hv⟩ := Option.bind_eq_some_iff.1 hvalue
    rw [existing?, hnode, Option.map_some, hv, Option.map_some, Option.some.injEq] at hs
    rw [hs]

/-- A location and a literal without a qualifier are compared by what the schema
translates the two to. -/
theorem operate_location {name stored : String} (hl : l.isLocation = true)
    (hname : ':' ∉ name.toList) :
    ctx.operate (.binary .eq) l (.string name) (.success ⟨path, stored⟩) (.ofValue name) =
      .ofBool (stored = ctx.translate path name) := by
  have hvalue : ctx.leftValue l (.success ⟨path, stored⟩) = some stored := by
    cases l with
    | step | axis => rfl
    | _ => cases hl
  have hright : ctx.comparable l (.success ⟨path, stored⟩) name = ctx.translate path name := by
    rw [comparable, if_pos hl, ← Path.eq_unqualified_iff.2 hname]
    rfl
  rw [operate_values (by decide), hvalue]
  show Outcome.ofBool (some stored = some (ctx.comparable l (.success ⟨path, stored⟩) name)) = _
  simp only [hright, Option.some.injEq]

/-- Where the values at a location are named by an unambiguous table, the location equals the name
of an entry exactly if the name or the value of that entry is stored there, and differs from it
exactly if neither is. -/
theorem evaluate_enumerated (ctx : Context) (l : Expr) (start : Option String) (scope : Scope)
    (path stored name value : String) (id : Nat) (hf : ctx.ofFeatures = false)
    (hl : l.isLocation = true)
    (hpath : (ctx.operand l ((evaluate ctx l start).run scope).1).value? = some path)
    (hstored : (ctx.node? path).bind (·.value) = some stored)
    (hid : ctx.schema.lookup path = some id) (htable : Schema.Unambiguous (ctx.schema.values id))
    (hentry : (name, value) ∈ ctx.schema.values id) (hname : ':' ∉ name.toList) :
    let holds op :=
      ((evaluate ctx (.operator (.binary op) l (.string name)) start).run scope).1.holds = true
    (holds .eq ↔ stored = name ∨ stored = value) ∧
    (holds .ne ↔ ¬ (stored = name ∨ stored = value)) := by
  have htranslate : ∀ text, ctx.translate path text = ctx.schema.stored id text := by
    intro text
    rw [translate, hid]
    rfl
  have hoperands : ((ctx.operands l (.string name) start).run scope).1 =
      (.success ⟨path, ctx.translate path stored⟩, .ofValue name) :=
    Prod.ext (operand_eq_success hl hf hpath hstored) rfl
  have hequal :
      (ctx.operate (.binary .eq) l (.string name) (.success ⟨path, ctx.translate path stored⟩)
        (.ofValue name)).holds = true ↔ stored = name ∨ stored = value := by
    rw [operate_location hl hname, Outcome.holds_ofBool, decide_eq_true_iff, htranslate, htranslate,
      Schema.stored_of_mem htable hentry, Schema.stored_eq_iff htable hentry]
  dsimp only
  rw [evaluate_binary (by decide), evaluate_binary (by decide), hoperands]
  refine ⟨hequal, ?_⟩
  rw [← hequal, operate_texts rfl rfl rfl, Bool.not_eq_true', Bool.not_eq_false]

/-- A context at `/a` whose schema names the values 1 and 2 of `/a/b`. The value 1 stands in the
tree, if any does, and the name of 2 outside. -/
def switched (data : DataTree) : Context where
  schema :=
    let (id, schema) := Schema.empty.insertPath "/a/b"
    (schema.addValue id "on" "1").addValue id "off" "2"
  source := Store.source ⟨[("/a/b", "off")], List.pairwise_singleton ..⟩
  path := "/a"
  data

/-- With 1 in the tree, `/a/b` equals `on`. Without it, `b` is the name `off` outside,
and differs from `on`. -/
theorem evaluate_enumerated_switched :
    let entry := ("on", "1")
    let step := Link.absolute ["a", "b"]
    let test := (Link.child "b").expr
    let inTree := switched ((DataTree.new "/").put "1" ["a", "b"])
    let outside := switched (.new "/")
    (inTree.operand step ((evaluate inTree step none).run {}).1).value? = some "/a/b" ∧
      (outside.operand test ((evaluate outside test none).run {}).1).value? = some "/a/b" ∧
      Schema.Unambiguous (inTree.schema.values 2) ∧ entry ∈ inTree.schema.values 2 ∧
      ((evaluate inTree (.operator (.binary .eq) step (.string "on")) none).run {}).1.holds = true ∧
      ((evaluate outside
        (.operator (.binary .ne) test (.string "on")) none).run {}).1.holds = true := by
  intro entry step test inTree outside
  have hstep : (inTree.operand step ((evaluate inTree step none).run {}).1).value? =
      some "/a/b" := by
    decide +kernel
  have htest : (outside.operand test ((evaluate outside test none).run {}).1).value? =
      some "/a/b" := by
    decide +kernel
  have htable : Schema.Unambiguous (inTree.schema.values 2) := by
    refine ⟨?_, ?_, ?_⟩ <;> decide +kernel
  have hentry : entry ∈ inTree.schema.values 2 := by decide +kernel
  have hin := evaluate_enumerated inTree step none {} "/a/b" "1" "on" "1" 2 rfl rfl hstep
    (by decide +kernel) (by decide +kernel) htable hentry (by decide)
  have hout := evaluate_enumerated outside test none {} "/a/b" "off" "on" "1" 2 rfl rfl htest
    (by decide +kernel) (by decide +kernel) htable hentry (by decide)
  exact ⟨hstep, htest, htable, hentry, hin.1.2 (.inr rfl), hout.2.2 (by decide)⟩

end Context

end YangConstraint
