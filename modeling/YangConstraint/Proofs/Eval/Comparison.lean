import Mathlib.Data.List.TakeWhile
import YangConstraint.Proofs.Eval.Absolute
import YangConstraint.Proofs.Expr.RoundTrip

/-!
Laws of comparisons. Whatever the operator, both operands are evaluated once, so comparisons of the
same operands differ only in what they make of the two outcomes.
-/
namespace YangConstraint

namespace Outcome

/-- One of two comparisons holds and the other does not, or both fail for the same reason. -/
inductive Opposed : Outcome → Outcome → Prop where
  | holds : Opposed plain (.failure .notSatisfied)
  | fails : Opposed (.failure .notSatisfied) plain
  | alike (reason : Reason) : Opposed (.failure reason) (.failure reason)

/-- The number that a value stands for as an operand. -/
def number? (value : Option String) : Option Int :=
  value.bind fun text => Integer.ofText? (Text.trim text)

variable {value : Option String} {outcome : Outcome} {n : Int}

theorem opposed_ofBool {p q : Bool} (h : q = !p) : Opposed (ofBool p) (ofBool q) := by
  subst h
  cases p with
  | true => exact .holds
  | false => exact .fails

theorem opposed_ofValue? {f g : String → Outcome} (h : ∀ text, Opposed (f text) (g text)) :
    Opposed (ofValue? value f) (ofValue? value g) := by
  cases value with
  | none => exact .alike .noValue
  | some text => exact h text

theorem opposed_ofNumber {f g : Int → Outcome} (h : ∀ n, Opposed (f n) (g n)) :
    Opposed (ofNumber value f) (ofNumber value g) := by
  apply opposed_ofValue?
  intro text
  cases Integer.ofText? (Text.trim text) with
  | none => exact .alike (.notANumber text)
  | some n => exact h n

theorem opposed_bind {f g : Resolved → Outcome}
    (h : ∀ resolved, Opposed (f resolved) (g resolved)) :
    Opposed (outcome.bind f) (outcome.bind g) := by
  cases outcome with
  | success resolved => exact h resolved
  | failure reason => exact .alike reason

theorem ofNumber_of_number? (h : number? value = some n) (next : Int → Outcome) :
    ofNumber value next = next n := by
  obtain ⟨text, rfl, ht⟩ := Option.bind_eq_some_iff.1 h
  simp only [ofNumber, ofValue?, ht]

end Outcome

open Outcome

/-- The operators that compare. -/
def BinaryOp.comparisons : List BinaryOp := [.eq, .ne, .lt, .le, .gt, .ge]

/-- Two numbers are in one of three orders. -/
theorem BinaryOp.existsUnique_compares? (a b : Int) :
    ∃! op, op ∈ [BinaryOp.lt, .eq, .gt] ∧ op.compares? a b = some true := by
  have hcases : ∀ op, op ∈ [BinaryOp.lt, .eq, .gt] ∧ op.compares? a b = some true ↔
      op = .lt ∧ a < b ∨ op = .eq ∧ a = b ∨ op = .gt ∧ b < a := by
    intro op
    cases op <;> simp [compares?]
  simp only [hcases]
  rcases Int.lt_trichotomy a b with h | h | h
  · have hne : a ≠ b := by omega
    have hgt : ¬ b < a := by omega
    simp [h, hne, hgt]
  · simp [h]
  · have hlt : ¬ a < b := by omega
    have hne : a ≠ b := by omega
    simp [h, hlt, hne]

theorem Expr.compared_of_isNumeric {e : Expr} (h : e.isNumeric = true) (outcome : Outcome) :
    e.compared outcome = outcome.value? := by
  cases e with
  | number | operator => rfl
  | _ => cases h

namespace Context

/-- The outcomes of two operands. The right one is evaluated in the scope that
the left one leaves. -/
def operands (ctx : Context) (l r : Expr) (start : Option String) :
    StateM Scope (Outcome × Outcome) := do
  let left ← evaluate ctx l start
  let right ← evaluate ctx r start
  return (ctx.operand l left, ctx.operand r right)

variable {ctx : Context} {l r : Expr} {left right : Outcome} {start : Option String} {scope : Scope}
  {op : BinaryOp} {a b : Int}

theorem evaluate_binary (h : op ≠ .union) :
    (evaluate ctx (.operator (.binary op) l r) start).run scope =
      (ctx.operate (.binary op) l r ((ctx.operands l r start).run scope).1.1
        ((ctx.operands l r start).run scope).1.2, ((ctx.operands l r start).run scope).2) := by
  have hop : ¬ Operator.binary op = .binary .union := by
    intro he
    exact h (Operator.binary.inj he)
  rw [evaluate, if_neg hop]
  rfl

/-- All operators but those of logic and the union read the values of their operands. -/
theorem operate_values (h : op ∉ [BinaryOp.or, .and, .union]) :
    ctx.operate (.binary op) l r left right =
      if r.isNumeric then
        if l.isLocation then .failure .stepOperand
        else .ofNumber (ctx.leftValue l left) fun a => .ofNumber right.value? fun b =>
          .ofArithmetic op a b
      else .ofTexts op left right (ctx.leftValue l left)
        ((r.compared right).map (ctx.comparable l left)) := by
  cases op with
  | or | and | union => exact absurd (by decide) h
  | _ => rfl

theorem opposed_operate (ctx : Context) (l r : Expr) (left right : Outcome) :
    Opposed (ctx.operate (.binary .eq) l r left right)
      (ctx.operate (.binary .ne) l r left right) := by
  rw [operate_values (by decide), operate_values (by decide)]
  split
  · split
    · exact .alike .stepOperand
    · apply opposed_ofNumber
      intro a
      apply opposed_ofNumber
      intro b
      apply opposed_ofBool
      exact decide_not
  · apply opposed_bind
    intro _
    apply opposed_ofBool
    exact decide_not

/-- Two operands that hold are compared as texts, where no numbers are meant. -/
theorem operate_texts (hr : r.isNumeric = false) (hleft : left.holds = true)
    (hright : right.holds = true) :
    (ctx.operate (.binary .eq) l r left right).holds =
      !(ctx.operate (.binary .ne) l r left right).holds := by
  rw [operate_values (by decide), operate_values (by decide), hr]
  cases left with
  | failure reason => cases hleft
  | success _ =>
    cases right with
    | failure reason => cases hright
    | success _ => simp [ofTexts, Outcome.andThen, Outcome.bind]

theorem operate_numbers (hr : r.isNumeric = true) (hl : l.isLocation = false)
    (ha : number? (ctx.leftValue l left) = some a) (hb : number? (r.compared right) = some b)
    (hop : op ∈ BinaryOp.comparisons) :
    ctx.operate (.binary op) l r left right = .ofArithmetic op a b := by
  have hvalues : ∀ op ∈ BinaryOp.comparisons, op ∉ [BinaryOp.or, .and, .union] := by decide
  rw [Expr.compared_of_isNumeric hr] at hb
  rw [operate_values (hvalues op hop), hr, hl, if_pos rfl, if_neg Bool.false_ne_true,
    ofNumber_of_number? ha, ofNumber_of_number? hb]

theorem holds_numbers_iff (hr : r.isNumeric = true) (hl : l.isLocation = false)
    (ha : number? (ctx.leftValue l ((ctx.operands l r start).run scope).1.1) = some a)
    (hb : number? (r.compared ((ctx.operands l r start).run scope).1.2) = some b)
    (hop : op ∈ BinaryOp.comparisons) :
    ((evaluate ctx (.operator (.binary op) l r) start).run scope).1.holds = true ↔
      op.compares? a b = some true := by
  have hu : op ≠ .union := by
    rintro rfl
    exact absurd hop (by decide)
  rw [evaluate_binary hu, operate_numbers hr hl ha hb hop, ofArithmetic]
  cases op with
  | eq | ne | lt | le | gt | ge => simp [BinaryOp.compares?]
  | _ => exact absurd hop (by decide)

/-- Comparisons of the same operands agree with each other. `=` and `!=` leave the same scope. One
of them holds and the other does not, or both fail for the same reason, which cannot be if both
operands hold and no numbers are meant. Where numbers are meant and both operands have one, the
comparisons are those of the numbers. -/
theorem evaluate_comparisons (ctx : Context) (l r : Expr) (start : Option String) (scope : Scope) :
    let compared op := (evaluate ctx (.operator (.binary op) l r) start).run scope
    let read := ((ctx.operands l r start).run scope).1
    let holds op := (compared op).1.holds = true
    (compared .eq).2 = (compared .ne).2 ∧
      Opposed (compared .eq).1 (compared .ne).1 ∧
      (read.1.holds = true → read.2.holds = true → r.isNumeric = false →
        (holds .eq ↔ ¬ holds .ne)) ∧
      (r.isNumeric = true → l.isLocation = false → ∀ a b : Int,
        number? (ctx.leftValue l read.1) = some a → number? (r.compared read.2) = some b →
          (∃! op, op ∈ [BinaryOp.lt, .eq, .gt] ∧ holds op) ∧
          (holds .lt ↔ a < b) ∧ (holds .eq ↔ a = b) ∧ (holds .gt ↔ b < a) ∧
          (holds .le ↔ a ≤ b) ∧ (holds .ge ↔ b ≤ a) ∧ (holds .ne ↔ a ≠ b)) := by
  intro compared read holds
  have heq : compared .eq = _ := evaluate_binary (by decide)
  have hne : compared .ne = _ := evaluate_binary (by decide)
  refine ⟨?_, ?_, ?_, ?_⟩
  · rw [heq, hne]
  · rw [heq, hne]
    exact opposed_operate ..
  · intro hleft hright hr
    show (compared .eq).1.holds = true ↔ ¬ (compared .ne).1.holds = true
    rw [heq, hne, operate_texts hr hleft hright]
    simp [read]
  · intro hr hl a b ha hb
    have hiff : ∀ {op}, op ∈ BinaryOp.comparisons → (holds op ↔ op.compares? a b = some true) :=
      fun hop => holds_numbers_iff hr hl ha hb hop
    have hsome : ∀ op ∈ [BinaryOp.lt, .eq, .gt], op ∈ BinaryOp.comparisons := by decide
    refine ⟨?_, ?_, ?_, ?_, ?_, ?_, ?_⟩
    · obtain ⟨op, ⟨hm, hc⟩, hunique⟩ := BinaryOp.existsUnique_compares? a b
      refine ⟨op, ⟨hm, (hiff (hsome op hm)).2 hc⟩, ?_⟩
      rintro other ⟨ho, hh⟩
      exact hunique other ⟨ho, (hiff (hsome other ho)).1 hh⟩
    all_goals
      rw [hiff (by decide)]
      simp [BinaryOp.compares?]

/-- The node `/a` with the value 9 between spaces. -/
def atNine : Context := ⟨⟨.empty, .none, {}⟩, "/a", (DataTree.new "/").put " 9 " ["a"], false⟩

/-- The value at the node is below 10 as a number. As a text it is another one than 9. -/
theorem evaluate_comparisons_atNine :
    let holds op r :=
      ((evaluate atNine
        (.operator (.binary op) (.call none "current" []) r) none).run {}).1.holds = true
    (holds .lt (.number "10") ∧ ¬ holds .eq (.number "10") ∧ ¬ holds .gt (.number "10") ∧
      holds .le (.number "10") ∧ ¬ holds .ge (.number "10") ∧ holds .ne (.number "10")) ∧
    ¬ holds .eq (.string "9") ∧ holds .ne (.string "9") := by
  intro holds
  obtain ⟨-, -, -, hnumbers⟩ :=
    evaluate_comparisons atNine (.call none "current" []) (.number "10") none {}
  obtain ⟨-, hlt, heq, hgt, hle, hge, hne⟩ :=
    hnumbers rfl rfl 9 10 (by decide +kernel) (by decide +kernel)
  obtain ⟨-, -, htexts, -⟩ :=
    evaluate_comparisons atNine (.call none "current" []) (.string "9") none {}
  have hopposed : holds .eq (.string "9") ↔ ¬ holds .ne (.string "9") :=
    htexts (by decide +kernel) (by decide +kernel) rfl
  have hdiffers : ¬ holds .eq (.string "9") := by
    show ¬ _ = true
    decide +kernel
  refine ⟨⟨hlt.2 (by decide), ?_, ?_, hle.2 (by decide), ?_, hne.2 (by decide)⟩, hdiffers, ?_⟩
  · exact fun h => absurd (heq.1 h) (by decide)
  · exact fun h => absurd (hgt.1 h) (by decide)
  · exact fun h => absurd (hge.1 h) (by decide)
  · by_contra h
    exact hdiffers (hopposed.2 h)

end Context

/-! ### A leaf and its value -/

namespace Path

theorem eq_unqualified_iff {value : String} : value = unqualified value ↔ ':' ∉ value.toList := by
  have hlist : ∀ cs : List Char, cs.dropWhile (· != ':') = [] ↔ ':' ∉ cs := by
    intro cs
    rw [List.dropWhile_eq_nil_iff]
    constructor
    · intro h hc
      simpa using h ':' hc
    · intro h c hc
      simpa using fun he : c = ':' => h (he ▸ hc)
  rw [unqualified, Text.afterFirst?, ← hlist]
  cases hd : value.toList.dropWhile (· != ':') with
  | nil => simp
  | cons c rest =>
    -- At least the colon has been dropped.
    have hshort : rest.length < value.toList.length := by
      have hle := List.length_dropWhile_le (· != ':') value.toList
      rw [hd, List.length_cons] at hle
      omega
    simp only [Option.getD_some, reduceCtorEq, iff_false]
    intro he
    rw [he, String.toList_ofList] at hshort
    exact Nat.lt_irrefl _ hshort

end Path

section

open Lexeme Token

variable {op : BinaryOp} {name value text : String}

/-- The path of a name at the beginning of a text. -/
theorem scans_leaf (h : IsWord name) :
    Scans .unknown ('/' :: (name.toList ++ ' ' :: (op.symbol.toList ++ ' ' :: text.toList))) .name
      (' ' :: (op.symbol.toList ++ ' ' :: text.toList))
      fun w => Phrase .path w (Link.absolute [name]) ∧ weight w = 1 := by
  have hslash :
      Scans .unknown ('/' :: (name.toList ++ ' ' :: (op.symbol.toList ++ ' ' :: text.toList)))
        (.mark .slash) _ (Single (.mark .slash)) := scans_slash (h.head_ne (by decide) _)
  have hname : Scans (.mark .slash)
      ((qualify none name).toList ++ ' ' :: (op.symbol.toList ++ ' ' :: text.toList)) .name _ _ :=
    scans_name h rfl (Ends.operator op _).stops (Ends.operator op _).opensAxis
  refine (hslash.trans hname).imp ?_
  rintro _ ⟨_, _, rfl, ⟨s, rfl, hs⟩, t, callable, rfl, ht⟩
  have hstar : name ≠ "*" := by
    rintro rfl
    exact h.head_ne (c := '*') (by decide) [] rfl
  have htest : Phrase (.test .child) [t] _ := .name ht
  rw [if_neg hstar] at htest
  refine ⟨.ofLocation (.rootPath (.slash hs) (.ofStep (.child (.ofTest htest)))), ?_⟩
  rw [weight_append, weight_single hs, weight_single ht]
  rfl

/-- The tree of a comparison of what lies at the path of a name with a literal. -/
theorem Expr.parse_leaf (hn : IsWord name) (hv : '\'' ∉ value.toList) :
    parse ("/" ++ name ++ " " ++ op.symbol ++ " '" ++ value ++ "'") =
      ⟨some (.operator (.binary op) (Link.absolute [name]) (.string value)), #[]⟩ := by
  have htext : ("/" ++ name ++ " " ++ op.symbol ++ " '" ++ value ++ "'").toList =
      '/' :: (name.toList ++ ' ' :: (op.symbol.toList ++ ' ' :: (quoteLiteral value).toList)) := by
    simp [quoteLiteral, hv]
  have hop : Scans .name (op.symbol.toList ++ ' ' :: (quoteLiteral value).toList) (.operator op) _
      (Single (.operator op)) := scans_operator (.inl rfl)
  have hstring : Scans (.operator op) (quoteLiteral value).toList .string []
      (Single (.string value true)) := by
    have hs : Scans (.operator op) ((quoteLiteral value).toList ++ []) .string []
        (Single (.string value true)) :=
      scans_string fun h => absurd h hv
    rwa [List.append_nil] at hs
  have hscans := (scans_leaf hn).trans (hop.space.trans hstring.space)
  rw [← htext] at hscans
  obtain ⟨hclean, u, _, hscan, ⟨hu, hweight⟩, _, _, rfl, ⟨s, rfl, hs⟩, t, rfl, ht⟩ := hscans.scan
  refine parse_of_weight hclean ?_ ?_
  · rw [hscan]
    exact phrase_binary hu hs (.ofFilter (.ofPrimary (.string ht)))
  · rw [hscan, weight_append, weight_append, hweight, weight_single hs, weight_single ht]
    show 2 + (1 + (2 + 0)) ≤ maxDepth
    decide

end

namespace Context

variable {ctx : Context} {name path value : String} {start : Option String} {scope : Scope}

theorem evaluate_leaf (h : ctx.ofFeatures = false) (name : String) (start : Option String)
    (scope : Scope) :
    (evaluate ctx (Link.absolute [name]) start).run scope =
      (ctx.arrive (.ok ("/" ++ name)), scope) := by
  have hchain : (evaluate ctx (Link.absolute [name]) start).run scope = _ :=
    evaluate_chain ctx h (.test .root .any none none) (.child name) [] start scope
  have hwalk : ctx.walk false "" [.child name] = .ok ("/" ++ name) := by
    refine @walk_of_apart ctx "" [name] false ?_
    rintro k hk ⟨hpath, hc⟩
    obtain rfl : k = 0 := by simpa using hk
    rw [inContainer_empty hpath.symm] at hc
    cases hc
  rw [hchain, walk_cons]
  exact congrArg (fun walked => (ctx.arrive walked, scope)) hwalk

/-- Where the schema has no names for values, a value is stored as it is written. -/
theorem translate_eq_self (h : ∀ id, ctx.schema.lookup path = some id → ctx.schema.values id = [])
    (value : String) : ctx.translate path value = value := by
  rw [translate]
  cases hl : ctx.schema.lookup path with
  | none => rfl
  | some id => simp [Schema.stored, h id hl]

theorem operands_leaf (h : ctx.ofFeatures = false) (name value : String) (start : Option String)
    (scope : Scope) :
    (ctx.operands (Link.absolute [name]) (.string value) start).run scope =
      ((ctx.arrive (.ok ("/" ++ name)), .ofValue value), scope) := by
  have hleft := evaluate_leaf h name start scope
  show ((((evaluate ctx (Link.absolute [name]) start).run scope).1, Outcome.ofValue value),
    ((evaluate ctx (Link.absolute [name]) start).run scope).2) = _
  rw [hleft]

/-- What is stored is compared with a literal whose qualifier does not count. -/
theorem operate_leaf (h : ∀ text, ctx.translate path text = text) (stored : String) :
    ctx.operate (.binary .eq) (Link.absolute [name]) (.string value) (.success ⟨path, stored⟩)
      (.ofValue value) = .ofBool (stored = Path.unqualified value) := by
  have hcomparable : ctx.comparable (Link.absolute [name]) (.success ⟨path, stored⟩) value =
      Path.unqualified value := h (Path.unqualified value)
  have hright : ((Expr.string value).compared (.ofValue value)).map
      (ctx.comparable (Link.absolute [name]) (.success ⟨path, stored⟩)) =
        some (Path.unqualified value) :=
    congrArg some hcomparable
  rw [operate_values (by decide), hright]
  show Outcome.ofBool (some stored = some (Path.unqualified value)) = _
  simp only [Option.some.injEq]

theorem arrive_leaf {node : DataTree} (hf : ctx.data.find? path = some node)
    (hv : node.value = some value) (h : ∀ text, ctx.translate path text = text) :
    ctx.arrive (.ok path) = .success ⟨path, value⟩ := by
  refine arrive_eq_success_iff.2 ⟨node, .inl hf, ?_⟩
  rw [hv]
  exact .some (translates_table_iff.2 (h value))

/-- Of a leaf and a literal, one of `=` and `!=` holds. -/
theorem holds_leaf {node : DataTree} {stored : String} (hfeatures : ctx.ofFeatures = false)
    (hf : ctx.data.find? ("/" ++ name) = some node) (hv : node.value = some stored)
    (h : ∀ text, ctx.translate ("/" ++ name) text = text) (value : String) (start : Option String)
    (scope : Scope) :
    let compared op :=
      (evaluate ctx (.operator (.binary op) (Link.absolute [name]) (.string value)) start).run scope
    (compared .eq).1.holds = decide (stored = Path.unqualified value) ∧
      (compared .ne).1.holds = !decide (stored = Path.unqualified value) := by
  have hequal : (ctx.operate (.binary .eq) (Link.absolute [name]) (.string value)
      (.success ⟨"/" ++ name, stored⟩) (.ofValue value)).holds =
        decide (stored = Path.unqualified value) := by
    rw [operate_leaf h, Outcome.holds_ofBool]
  dsimp only
  rw [evaluate_binary (by decide), evaluate_binary (by decide), operands_leaf hfeatures,
    arrive_leaf hf hv h]
  refine ⟨hequal, ?_⟩
  rw [← hequal, operate_texts rfl rfl rfl, Bool.not_not]

end Context

namespace Environment

open Context

variable {env : Environment} {path name value : String} {data node : DataTree} {op : BinaryOp}

theorem holdsText_leaf (hn : Lexeme.IsWord name) (hv : '\'' ∉ value.toList) :
    env.holdsText ("/" ++ name ++ " " ++ op.symbol ++ " '" ++ value ++ "'") path data =
      env.holds (.operator (.binary op) (Link.absolute [name]) (.string value)) path data := by
  rw [holdsText, Expr.ofText, Expr.parse_leaf hn hv]
  rfl

/-- A leaf equals the literal of its value, and does not differ from it, exactly where no colon is
in the value: what precedes a colon in a literal is taken for a qualifier, and what precedes it in
stored data is not. -/
theorem holdsText_leaf_iff (env : Environment) (path name value : String) (data node : DataTree)
    (hn : Lexeme.IsWord name) (hv : '\'' ∉ value.toList) (hf : data.find? ("/" ++ name) = some node)
    (hnode : node.value = some value)
    (hs : ∀ id, env.schema.lookup ("/" ++ name) = some id → env.schema.values id = []) :
    (env.holdsText ("/" ++ name ++ " = '" ++ value ++ "'") path data = true ↔ ':' ∉ value.toList) ∧
      (env.holdsText ("/" ++ name ++ " != '" ++ value ++ "'") path data = true ↔
        ':' ∈ value.toList) := by
  have htext : ∀ op : BinaryOp, "/" ++ name ++ (" " ++ op.symbol ++ " '") ++ value ++ "'" =
      "/" ++ name ++ " " ++ op.symbol ++ " '" ++ value ++ "'" := by
    intro op
    simp only [String.append_assoc]
  have heq : "/" ++ name ++ " = '" ++ value ++ "'" = _ := htext .eq
  have hne : "/" ++ name ++ " != '" ++ value ++ "'" = _ := htext .ne
  have hfeatures : (env.context path data).ofFeatures = false := rfl
  have htranslate : ∀ text, (env.context path data).translate ("/" ++ name) text = text :=
    translate_eq_self hs
  obtain ⟨hequal, hdiffers⟩ := holds_leaf hfeatures hf hnode htranslate value none {}
  constructor
  · rw [heq, holdsText_leaf hn hv, holds, outcome, hequal, decide_eq_true_iff,
      Path.eq_unqualified_iff]
  · rw [hne, holdsText_leaf hn hv, holds, outcome, hdiffers, Bool.not_eq_true',
      decide_eq_false_iff_not, Path.eq_unqualified_iff, not_not]

/-- A tree with an address, and with a note that has quotes and an operator in it. -/
def addressed : DataTree :=
  ((DataTree.new "/").put "2001:db8::1" ["address"]).put "1 = \"a\" or /b" ["note"]

/-- The note equals its literal. -/
theorem holdsText_leaf_note :
    let env : Environment := ⟨(Schema.empty.insertPath "/note").2, .none, {}⟩
    env.holdsText "/note = '1 = \"a\" or /b'" "/a" addressed = true ∧
      env.holdsText "/note != '1 = \"a\" or /b'" "/a" addressed = false := by
  intro env
  have hn : Lexeme.IsWord "note" := Lexeme.isWord_of rfl (by decide)
  have hlookup : env.schema.lookup "/note" = some 1 := by decide +kernel
  have hs : ∀ id, env.schema.lookup "/note" = some id → env.schema.values id = [] := by
    intro id h
    rw [hlookup] at h
    obtain rfl := Option.some.inj h
    decide +kernel
  obtain ⟨hequal, hdiffers⟩ := holdsText_leaf_iff env "/a" "note" "1 = \"a\" or /b" addressed
    ⟨"note", "1 = \"a\" or /b", []⟩ hn (by decide) (by decide +kernel) rfl hs
  refine ⟨hequal.2 (by decide), ?_⟩
  rw [Bool.eq_false_iff]
  intro h
  exact absurd (hdiffers.1 h) (by decide)

/-- The address does not equal its literal. -/
theorem holdsText_leaf_address :
    let env : Environment := ⟨.empty, .none, {}⟩
    (addressed.find? "/address").map (·.value) = some "2001:db8::1" ∧
      env.schema.lookup "/address" = none ∧
      env.holdsText "/address = '2001:db8::1'" "/a" addressed = false ∧
      env.holdsText "/address != '2001:db8::1'" "/a" addressed = true := by
  decide +kernel

end Environment

end YangConstraint
