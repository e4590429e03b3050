import Mathlib.Data.List.Nodup
import YangConstraint.Expr.Recording
import YangConstraint.Proofs.Expr.Fold
import YangConstraint.Proofs.Expr.Printable

/-!
The calls of a parse in the order in which a builder gets them. They are the tree with operands
first, and the steps that are made and not used.
-/
namespace YangConstraint

variable {α : Type}

namespace BuildCall

/-- The numbers of the nodes that the call takes. -/
def operands : BuildCall → List Nat
  | finish result => result.toList
  | operator _ left right => left.toList ++ right.toList
  | step left right => left.toList ++ right.toList
  | predicate base condition _ => base.toList ++ condition.toList
  | call _ _ args => args
  | _ => []

def makesNode : BuildCall → Bool
  | start => false
  | finish _ => false
  | _ => true

/-- The node of the call in another builder, out of those of its operands. -/
def remake (f : Builder Id α) (node : Nat → Option α) : BuildCall → Option α
  | start => none
  | finish _ => none
  | string value => some (f.string value)
  | number text => some (f.number text)
  | operator op left right => some (f.operator op (left.bind node) (right.bind node))
  | axis a type qualifier name => some (f.axis a type qualifier name)
  | step left right => some (f.step (left.bind node) (right.bind node))
  | predicate base condition reverse =>
    some (f.predicate (base.bind node) (condition.bind node) reverse)
  | reference qualifier name => some (f.reference qualifier name)
  | call qualifier name args => some (f.call qualifier name (args.filterMap node))

/-- The node that a call before has made. -/
def nodeAt (done : List (Option α)) (number : Nat) : Option α := done[number]?.join

/-- Makes the calls again through another builder, behind calls whose nodes are known. -/
def replay (f : Builder Id α) (done : List (Option α)) : List BuildCall → List (Option α)
  | [] => done
  | first :: rest => replay f (done ++ [first.remake f (nodeAt done)]) rest

/-- Each call takes only nodes of calls before it, where `count` calls stand before the first. -/
def Ordered (count : Nat) : List BuildCall → Prop
  | [] => True
  | first :: rest => (∀ n ∈ first.operands, n < count) ∧ Ordered (count + 1) rest

variable {f : Builder Id α} {count : Nat} {calls more : List BuildCall}

theorem replay_append (done : List (Option α)) :
    replay f done (calls ++ more) = replay f (replay f done calls) more := by
  induction calls generalizing done with
  | nil => rfl
  | cons first calls ih => exact ih _

theorem ordered_append : Ordered count (calls ++ more) ↔
    Ordered count calls ∧ Ordered (count + calls.length) more := by
  induction calls generalizing count with
  | nil => simp [Ordered]
  | cons first calls ih =>
    simp only [List.cons_append, Ordered, ih, and_assoc, List.length_cons]
    rw [show count + 1 + calls.length = count + (calls.length + 1) by omega]

theorem ordered_lt (h : Ordered count calls) {i n : Nat} {call : BuildCall}
    (hi : calls[i]? = some call) (hn : n ∈ call.operands) : n < count + i := by
  induction calls generalizing count i with
  | nil => simp at hi
  | cons first calls ih =>
    cases i with
    | zero =>
      obtain rfl : first = call := by simpa using hi
      exact h.1 n hn
    | succ i =>
      have := ih h.2 (by simpa using hi)
      omega

end BuildCall

def Leaf.call : Leaf → BuildCall
  | .string value => .string value
  | .number text => .number text
  | .axis a type qualifier name => .axis a type qualifier name
  | .reference qualifier name => .reference qualifier name

def Joint.call (left right : Option Nat) : Joint → BuildCall
  | .operator op => .operator op left right
  | .step => .step left right
  | .predicate reverse => .predicate left right reverse

namespace Joint

open BuildCall

variable {left right : Option Nat}

theorem operands_call (node : Joint) :
    (node.call left right).operands = left.toList ++ right.toList := by
  cases node <;> rfl

theorem makesNode_call (node : Joint) : (node.call left right).makesNode = true := by
  cases node <;> rfl

theorem remake_call (node : Joint) (f : Builder Id α) (number : Nat → Option α) :
    (node.call left right).remake f number =
      some (node.make f (left.bind number) (right.bind number)) := by
  cases node <;> rfl

end Joint

namespace Assembly

open BuildCall

mutual

/-- How many nodes are made. -/
def size : Assembly → Nat
  | missing => 0
  | dropped _ => 1
  | leaf _ => 1
  | joint _ left right => size left + size right + 1
  | call _ _ args => sizeAll args + 1

def sizeAll : List Assembly → Nat
  | [] => 0
  | arg :: args => size arg + sizeAll args

end

/-- The number of the node, where `count` calls stand before. -/
def node (count : Nat) : Assembly → Option Nat
  | missing => none
  | dropped _ => none
  | leaf _ => some count
  | joint _ left right => some (count + left.size + right.size)
  | call _ _ args => some (count + sizeAll args)

theorem node_joint (joint : Joint) (left right : Assembly) (count : Nat) :
    (Assembly.joint joint left right).node count = some (count + left.size + right.size) := rfl

def nodesAll (count : Nat) : List Assembly → List Nat
  | [] => []
  | arg :: args => (node count arg).toList ++ nodesAll (count + arg.size) args

mutual

/-- The calls that make the nodes, where `count` calls stand before. -/
def calls (count : Nat) : Assembly → List BuildCall
  | missing => []
  | dropped a => [.axis a .any none none]
  | leaf node => [node.call]
  | joint node left right =>
    calls count left ++ (calls (count + left.size) right ++
      [node.call (left.node count) (right.node (count + left.size))])
  | call qualifier name args => callsAll count args ++ [.call qualifier name (nodesAll count args)]

def callsAll (count : Nat) : List Assembly → List BuildCall
  | [] => []
  | arg :: args => calls count arg ++ callsAll (count + arg.size) args

end

mutual

theorem length_calls (count : Nat) (t : Assembly) : (t.calls count).length = t.size := by
  cases t with
  | joint _ left right => simp [calls, size, length_calls _ left, length_calls _ right]; omega
  | call _ _ args => simp [calls, size, length_callsAll _ args]
  | _ => rfl

theorem length_callsAll (count : Nat) (ts : List Assembly) :
    (callsAll count ts).length = sizeAll ts := by
  cases ts with
  | nil => rfl
  | cons t ts => simp [callsAll, sizeAll, length_calls _ t, length_callsAll _ ts]

end

theorem leaf_recorder (node : Leaf) (before : Array BuildCall) :
    node.make recorder before = (before.size, before.push node.call) := by
  cases node <;> rfl

theorem joint_recorder (node : Joint) (left right : Option Nat) (before : Array BuildCall) :
    node.make recorder left right before = (before.size, before.push (node.call left right)) := by
  cases node <;> rfl

mutual

/-- The recorder is called as the assembly says, and knows its node by the number. -/
theorem run_recorder (t : Assembly) (before : Array BuildCall) :
    t.run recorder before = (t.node before.size, before ++ (t.calls before.size).toArray) := by
  cases t with
  | missing =>
    show (none, before) = _
    simp [node, calls]
  | dropped a =>
    show (none, before.push (.axis a .any none none)) = _
    simp [node, calls]
  | leaf node =>
    show (let made := node.make recorder before; (some made.1, made.2)) = _
    rw [leaf_recorder]
    simp [Assembly.node, calls]
  | joint node left right =>
    show (let l := left.run recorder before; let r := right.run recorder l.2
      let made := node.make recorder l.1 r.1 r.2; (some made.1, made.2)) = _
    simp only [run_recorder left, run_recorder right, joint_recorder]
    simp [Assembly.node, calls, length_calls, Nat.add_assoc]
  | call qualifier name args =>
    show (let made := runAll recorder args before
      (some made.2.size, made.2.push (.call qualifier name made.1))) = _
    simp only [runAll_recorder args]
    simp [node, calls, length_callsAll]

theorem runAll_recorder (ts : List Assembly) (before : Array BuildCall) :
    runAll recorder ts before =
      (nodesAll before.size ts, before ++ (callsAll before.size ts).toArray) := by
  cases ts with
  | nil =>
    show ([], before) = _
    simp [nodesAll, callsAll]
  | cons t ts =>
    show (let first := t.run recorder before; let rest := runAll recorder ts first.2
      (first.1.toList ++ rest.1, rest.2)) = _
    simp only [run_recorder t, runAll_recorder ts]
    simp [nodesAll, callsAll, length_calls]

end

/-- Different numbers, from `low` on and below `high`. -/
def Within (low high : Nat) (ns : List Nat) : Prop := ns.Nodup ∧ ∀ n ∈ ns, low ≤ n ∧ n < high

namespace Within

variable {low mid high : Nat} {xs ys us vs : List Nat}

theorem append (hx : Within low mid xs) (hy : Within mid high ys) (h : low ≤ mid)
    (h' : mid ≤ high) :
    Within low high (xs ++ ys) := by
  constructor
  · refine List.nodup_append.2 ⟨hx.1, hy.1, fun n hn k hk => ?_⟩
    have := hx.2 n hn
    have := hy.2 k hk
    omega
  · intro n hn
    rcases List.mem_append.1 hn with hn | hn
    · have := hx.2 n hn
      omega
    · have := hy.2 n hn
      omega

/-- Two runs of calls use their operands apart; what is left of both goes to the end. -/
theorem join (hx : Within low mid (xs ++ us)) (hy : Within mid high (ys ++ vs)) (h : low ≤ mid)
    (h' : mid ≤ high) : Within low high ((xs ++ ys) ++ (us ++ vs)) := by
  have hperm : ((xs ++ us) ++ (ys ++ vs)).Perm ((xs ++ ys) ++ (us ++ vs)) := by
    rw [List.append_assoc, List.append_assoc]
    exact .append_left xs (List.perm_append_comm_assoc us ys vs)
  obtain ⟨hn, hb⟩ := hx.append hy h h'
  exact ⟨hperm.nodup_iff.1 hn, fun n hm => hb n (hperm.mem_iff.2 hm)⟩

theorem snoc (hx : Within low high xs) (h : low ≤ high) : Within low (high + 1) (xs ++ [high]) :=
  hx.append ⟨List.nodup_singleton _, by simp⟩ h (Nat.le_succ _)

end Within

mutual

/-- No node is an operand twice, and the node that is given back is not one yet. -/
theorem operands_within (t : Assembly) (count : Nat) :
    Within count (count + t.size) ((t.calls count).flatMap operands ++ (t.node count).toList) := by
  cases t with
  | missing => exact ⟨List.nodup_nil, by simp [calls, node]⟩
  | dropped => exact ⟨List.nodup_nil, by simp [calls, node, operands]⟩
  | leaf node =>
    cases node <;>
      exact ⟨List.nodup_singleton _, by simp [calls, Assembly.node, operands, Leaf.call, size]⟩
  | joint node left right =>
    have :=
      ((operands_within left count).join (operands_within right (count + left.size)) (by omega)
      (by omega)).snoc (by omega)
    simpa [calls, node_joint, size, Joint.operands_call, Nat.add_assoc] using this
  | call qualifier name args =>
    have := (operandsAll_within args count).snoc (by omega)
    simpa [calls, Assembly.node, size, operands, Nat.add_assoc] using this

theorem operandsAll_within (ts : List Assembly) (count : Nat) :
    Within count (count + sizeAll ts)
      ((callsAll count ts).flatMap operands ++ nodesAll count ts) := by
  cases ts with
  | nil => exact ⟨List.nodup_nil, by simp [callsAll, nodesAll]⟩
  | cons t ts =>
    have :=
      (operands_within t count).join (operandsAll_within ts (count + t.size)) (by omega) (by omega)
    simpa [callsAll, nodesAll, sizeAll, Nat.add_assoc] using this

end

theorem node_lt {t : Assembly} {count n : Nat} (h : n ∈ (t.node count).toList) :
    count ≤ n ∧ n < count + t.size :=
  (operands_within t count).2 n (List.mem_append_right _ h)

mutual

/-- The operands of a call are nodes that have been made before it. -/
theorem calls_ordered (t : Assembly) (count : Nat) : Ordered count (t.calls count) := by
  cases t with
  | missing => trivial
  | dropped => simp [calls, Ordered, operands]
  | leaf node => cases node <;> simp [calls, Ordered, operands, Leaf.call]
  | joint node left right =>
    simp only [calls, ordered_append, length_calls]
    refine ⟨calls_ordered left _, calls_ordered right _, ?_, trivial⟩
    intro n hn
    rw [Joint.operands_call, List.mem_append] at hn
    rcases hn with hn | hn
    · have := node_lt hn
      omega
    · exact (node_lt hn).2
  | call qualifier name args =>
    simp only [calls, ordered_append, length_callsAll]
    refine ⟨callsAll_ordered args _, fun n hn => ?_, trivial⟩
    exact ((operandsAll_within args count).2 n (List.mem_append_right _ hn)).2

theorem callsAll_ordered (ts : List Assembly) (count : Nat) :
    Ordered count (callsAll count ts) := by
  cases ts with
  | nil => trivial
  | cons t ts =>
    simp only [callsAll, ordered_append, length_calls]
    exact ⟨calls_ordered t _, callsAll_ordered ts _⟩

end

mutual

theorem calls_makesNode (t : Assembly) (count : Nat) :
    ∀ call ∈ t.calls count, call.makesNode = true := by
  cases t with
  | missing => simp [calls]
  | dropped => simp [calls, makesNode]
  | leaf node => cases node <;> simp [calls, Leaf.call, makesNode]
  | joint node left right =>
    simp only [calls, List.mem_append, List.mem_singleton]
    rintro call (h | h | rfl)
    · exact calls_makesNode left _ call h
    · exact calls_makesNode right _ call h
    · exact node.makesNode_call
  | call qualifier name args =>
    simp only [calls, List.mem_append, List.mem_singleton]
    rintro call (h | rfl)
    · exact callsAll_makesNode args _ call h
    · rfl

theorem callsAll_makesNode (ts : List Assembly) (count : Nat) :
    ∀ call ∈ callsAll count ts, call.makesNode = true := by
  cases ts with
  | nil => simp [callsAll]
  | cons t ts =>
    simp only [callsAll, List.mem_append]
    rintro call (h | h)
    · exact calls_makesNode t _ call h
    · exact callsAll_makesNode ts _ call h

end

mutual

/-- Each node of the tree is made, and each one that is not used. -/
theorem size_eq (t : Assembly) : t.size = (Expr.ofOption t.tree).nodes + t.lost := by
  cases t with
  | leaf node => cases node <;> rfl
  | joint node left right =>
    have hnode : (Expr.ofOption (joint node left right).tree).nodes =
        (Expr.ofOption left.tree).nodes + (Expr.ofOption right.tree).nodes + 1 := by
      rw [Expr.nodes, Expr.nodes, Expr.nodes, ← List.length_append, ← List.length_cons]
      cases node <;> rfl
    rw [hnode, size, lost, size_eq left, size_eq right]
    omega
  | call qualifier name args =>
    have hnode : (Expr.ofOption (call qualifier name args).tree).nodes =
      (Expr.partsAll (treeAll args)).length + 1 := rfl
    rw [hnode, size, lost, sizeAll_eq args]
    omega
  | _ => rfl

theorem sizeAll_eq (ts : List Assembly) :
    sizeAll ts = (Expr.partsAll (treeAll ts)).length + lostAll ts := by
  cases ts with
  | nil => rfl
  | cons t ts =>
    have hparts : Expr.partsAll (treeAll (t :: ts)) =
        (Expr.ofOption t.tree).parts ++ Expr.partsAll (treeAll ts) := by
      show Expr.partsAll (t.tree.toList ++ treeAll ts) = _
      cases t.tree <;> rfl
    rw [hparts, List.length_append, sizeAll, lostAll, size_eq t, sizeAll_eq ts, Expr.nodes]
    omega

end

variable {f : Builder Id α}

theorem filterMap_toList (n : Option Nat) (node : Nat → Option α) :
    n.toList.filterMap node = (n.bind node).toList := by
  cases n with
  | none => rfl
  | some n => cases h : node n <;> simp [h]

theorem nodeAt_length {done more : List (Option α)} {node : Option α} :
    nodeAt (done ++ node :: more) done.length = node := by
  simp [nodeAt]

mutual

/-- The calls again make what the assembly does, and it stays where it is. -/
theorem replay_calls (t : Assembly) (done : List (Option α)) :
    ∃ nodes, nodes.length = t.size ∧ replay f done (t.calls done.length) = done ++ nodes ∧
      ∀ more, (t.node done.length).bind (nodeAt (done ++ nodes ++ more)) = t.made f := by
  cases t with
  | missing => exact ⟨[], rfl, by simp [calls, replay], fun _ => rfl⟩
  | dropped a => exact ⟨[some (f.axis a .any none none)], rfl, rfl, fun _ => rfl⟩
  | leaf node =>
    refine ⟨[some (node.make f)], rfl, by cases node <;> rfl, fun more => ?_⟩
    show nodeAt _ _ = _
    rw [List.append_assoc, List.singleton_append, nodeAt_length]
    rfl
  | joint node left right =>
    obtain ⟨ls, hll, hlr, hln⟩ := replay_calls left done
    obtain ⟨rs, hrl, hrr, hrn⟩ := replay_calls right (done ++ ls)
    have hlen : (done ++ ls).length = done.length + left.size := by simp [hll]
    rw [hlen] at hrr hrn
    refine ⟨ls ++ rs ++ [(joint node left right).made f], by simp [hll, hrl, size, Nat.add_assoc],
      ?_, fun more => ?_⟩
    · -- the nodes on the left stay where they are behind those on the right
      have hleft := hln rs
      have hright := hrn []
      rw [List.append_nil] at hright
      simp only [calls, replay_append, hlr, hrr, replay, Joint.remake_call, hleft, hright]
      simp only [List.append_assoc]
      rfl
    · have hcount : done.length + left.size + right.size = (done ++ (ls ++ rs)).length := by
        simp [hll, hrl, Nat.add_assoc]
      rw [node_joint, hcount, Option.bind_some, ← List.append_assoc done,
        List.append_assoc _ _ more, List.singleton_append, nodeAt_length]
  | call qualifier name args =>
    obtain ⟨ns, hl, hr, hn⟩ := replay_callsAll args done
    refine ⟨ns ++ [(call qualifier name args).made f], by simp [hl, size], ?_, fun more => ?_⟩
    · have hargs := hn []
      rw [List.append_nil] at hargs
      simp only [calls, replay_append, hr, replay, remake, hargs]
      simp only [List.append_assoc]
      rfl
    · have hcount : done.length + sizeAll args = (done ++ ns).length := by simp [hl]
      show nodeAt _ (done.length + sizeAll args) = _
      rw [hcount, ← List.append_assoc done, List.append_assoc _ _ more, List.singleton_append,
        nodeAt_length]

theorem replay_callsAll (ts : List Assembly) (done : List (Option α)) :
    ∃ nodes, nodes.length = sizeAll ts ∧ replay f done (callsAll done.length ts) = done ++ nodes ∧
      ∀ more, (nodesAll done.length ts).filterMap (nodeAt (done ++ nodes ++ more)) =
        madeAll f ts := by
  cases ts with
  | nil => exact ⟨[], rfl, by simp [callsAll, replay], fun _ => rfl⟩
  | cons t ts =>
    obtain ⟨ns, hl, hr, hn⟩ := replay_calls t done
    obtain ⟨ms, hml, hmr, hmn⟩ := replay_callsAll ts (done ++ ns)
    rw [show (done ++ ns).length = done.length + t.size by simp [hl]] at hmr hmn
    refine ⟨ns ++ ms, by simp [hl, hml, sizeAll], ?_, fun more => ?_⟩
    · rw [callsAll, replay_append, hr, hmr, List.append_assoc]
    · have hfirst := hn (ms ++ more)
      rw [← List.append_assoc] at hfirst
      rw [nodesAll, List.filterMap_append, ← List.append_assoc done, hmn more,
        filterMap_toList, hfirst]
      rfl

end

theorem isSome_node (t : Assembly) (count : Nat) : (t.node count).isSome = t.tree.isSome := by
  cases t <;> rfl

theorem isSome_made (t : Assembly) : (t.made f).isSome = t.tree.isSome := by
  cases t <;> rfl

/-- The calls of a whole parse: the nodes stand between the start and the finish. -/
def record (t : Assembly) : List BuildCall := .start :: (t.calls 1 ++ [.finish (t.node 1)])

theorem record_ordered (t : Assembly) : Ordered 0 t.record := by
  refine ⟨by simp [operands], ordered_append.2 ⟨t.calls_ordered 1, fun n hn => ?_, trivial⟩⟩
  rw [length_calls]
  exact (node_lt hn).2

theorem record_operands (t : Assembly) :
    t.record.flatMap operands = (t.calls 1).flatMap operands ++ (t.node 1).toList := by
  simp [record, operands]

/-- An operand of a call is the node of one before it. -/
theorem record_maker {t : Assembly} {i n : Nat} {call : BuildCall} (hi : t.record[i]? = some call)
    (hn : n ∈ call.operands) :
    n < i ∧ ∃ maker, t.record[n]? = some maker ∧ maker.makesNode = true := by
  have hlt := ordered_lt t.record_ordered hi hn
  have hmem : n ∈ t.record.flatMap operands :=
    List.mem_flatMap.2 ⟨call, List.mem_of_getElem? hi, hn⟩
  rw [record_operands] at hmem
  obtain ⟨hlow, hhigh⟩ := (t.operands_within 1).2 n hmem
  obtain ⟨n, rfl⟩ : ∃ k, n = k + 1 := ⟨n - 1, by omega⟩
  have hlen : n < (t.calls 1).length := by
    rw [length_calls]
    omega
  refine ⟨by omega, (t.calls 1)[n], ?_, t.calls_makesNode 1 _ (List.getElem_mem hlen)⟩
  rw [record, List.getElem?_cons_succ, List.getElem?_append_left hlen,
    List.getElem?_eq_getElem hlen]

theorem record_replay (t : Assembly) :
    (t.node 1).bind (nodeAt (replay f [] t.record)) = t.made f := by
  obtain ⟨nodes, -, hr, hn⟩ := t.replay_calls (f := f) [none]
  have hrecord : replay f [] t.record = [none] ++ nodes ++ [none] := by
    show replay f [none] (t.calls 1 ++ [.finish (t.node 1)]) = _
    rw [replay_append]
    exact congrArg (replay f · [.finish (t.node 1)]) hr
  rw [hrecord]
  exact hn [none]

theorem record_countP (t : Assembly) :
    t.record.countP makesNode = (Expr.ofOption t.tree).nodes + t.lost := by
  rw [← size_eq, ← length_calls 1, ← List.countP_eq_length.2 (t.calls_makesNode 1)]
  simp [record, makesNode]

end Assembly

open BuildCall

/-- A parse makes the same tree through every builder: one of functions folds it, and the calls that
are recorded make it again. No call takes a node that has not been made, or that another one takes;
only the steps that no predicate may follow are made and not used. -/
theorem parse_through_builder (text : String) :
    (∀ (m : Type → Type) [Monad m] [LawfulMonad m] (α : Type) (b : Builder m α) (f : Builder Id α),
      b.Applies f →
        (b.parse text = do
          b.start
          return ⟨(Expr.parse text).result.bind f.fold, (Expr.parse text).issues⟩) ∧
        ((Expr.parse text).result.bind f.fold).isSome = (Expr.parse text).result.isSome) ∧
    ∃ (result : Option Nat) (calls : Array BuildCall),
      recorder.parse text #[] = (⟨result, (Expr.parse text).issues⟩, calls) ∧
      (∀ (i n : Nat) (call : BuildCall), calls[i]? = some call → n ∈ call.operands →
        n < i ∧ ∃ maker : BuildCall, calls[n]? = some maker ∧ maker.makesNode = true) ∧
      (calls.toList.flatMap operands).Nodup ∧
      result.isSome = (Expr.parse text).result.isSome ∧
      result.bind (nodeAt (replay Expr.builder [] calls.toList)) = (Expr.parse text).result ∧
      calls.toList.countP makesNode =
        (Expr.ofText text).nodes +
          (Expr.parse text).issues.countP Diagnostic.isPredicateNotAllowed := by
  constructor
  · intro m _ _ α b f h
    obtain ⟨t, hparse, htree, -⟩ := b.parse_assembly text
    rw [hparse, htree, ← Assembly.made_eq, Assembly.isSome_made]
    simp only [Assembly.run_applies h, h.finish, pure_bind, and_true]
  · obtain ⟨t, hparse, htree, hlost⟩ := recorder.parse_assembly text
    refine ⟨t.node 1, t.record.toArray, ?_, ?_, ?_, ?_, ?_, ?_⟩
    · rw [hparse]
      show (let made := t.run recorder #[.start]
        ((⟨made.1, _⟩, made.2.push (.finish made.1)) : Parsed Nat × Array BuildCall)) = _
      rw [Assembly.run_recorder]
      simp [Assembly.record]
    · intro i n call hi hn
      simp only [List.getElem?_toArray] at hi ⊢
      exact Assembly.record_maker hi hn
    · rw [Assembly.record_operands]
      exact (t.operands_within 1).1
    · rw [htree, Assembly.isSome_node]
    · rw [htree]
      exact t.record_replay
    · rw [Expr.ofText, htree, hlost]
      exact t.record_countP

example : (recorder.parse "a or ..[1]" #[]).2 =
    #[.start, .axis .child .element none (some "a"), .axis .parent .any none none,
      .operator (.binary .or) (some 1) none, .finish (some 3)] := by decide +kernel

/-- Measures how high the tree is. -/
def heights : Builder Id Nat where
  start := ()
  finish result := result
  string _ := 1
  number _ := 1
  operator _ left right := max (left.getD 0) (right.getD 0) + 1
  axis _ _ _ _ := 1
  step left right := max (left.getD 0) (right.getD 0) + 1
  predicate base condition _ := max (base.getD 0) (condition.getD 0) + 1
  reference _ _ := 1
  call _ _ args := args.foldl max 0 + 1

theorem parse_through_heights :
    heights.Applies heights ∧ heights.parse "count(a[b = 1]) > 1" = ⟨some 5, #[]⟩ := by
  have h : heights.Applies heights := by constructor <;> intros <;> rfl
  have hfold : (Expr.parse "count(a[b = 1]) > 1").result.bind heights.fold = some 5 := by
    decide +kernel
  have hissues : (Expr.parse "count(a[b = 1]) > 1").issues = #[] := by decide +kernel
  refine ⟨h, ((parse_through_builder "count(a[b = 1]) > 1").1 Id Nat heights heights h).1.trans ?_⟩
  rw [hfold, hissues]
  rfl

end YangConstraint
