import YangConstraint.Proofs.Expr.Language
import YangConstraint.Proofs.Expr.Nesting

/-!
How many operators can lie on one branch of a parsed tree. An operator holds its level as long as
its right operand is read, but what its left operand has held was given back before. So the
operators that a branch leaves for the right operand count against the number of levels, and those
that it leaves for the left one do not. A text that makes use of all levels given back reaches the
bound.
-/
namespace YangConstraint

open Production

namespace Expr

/-! ### Levels that are held -/

/-- Whether the way from a node to one below it goes from an operator to its right operand. -/
def turnsRight : Expr → Expr → Bool
  | operator (.binary _) _ right, child => child = right
  | _, _ => false

/-- Whether it goes from an operator to its left operand alone. -/
def turnsLeft : Expr → Expr → Bool
  | operator (.binary _) _ right, child => child ≠ right
  | _, _ => false

/-- How often a branch goes on in such a way. -/
def turns (way : Expr → Expr → Bool) : List Expr → Nat
  | e :: child :: path => (way e child).toNat + turns way (child :: path)
  | _ => 0

mutual

/-- The number of levels held where the most of them are: two of an operator in its right operand,
and one of a minus in its operand. -/
def held : Expr → Nat
  | operator .negate left right => 1 + max (held left) (held right)
  | operator (.binary _) left right => max (held left) (2 + held right)
  | step left right | predicate left right _ => max (held left) (held right)
  | call _ _ args => heldAll args
  | hole | string _ | number _ | axis .. | reference .. => 0

def heldAll : List Expr → Nat
  | [] => 0
  | e :: es => max (held e) (heldAll es)

end

theorem heldAll_le_iff {es : List Expr} {n : Nat} : heldAll es ≤ n ↔ ∀ e ∈ es, held e ≤ n := by
  induction es with
  | nil => simp [heldAll]
  | cons e es ih =>
    rw [heldAll, Nat.max_le, ih]
    simp

theorem held_leaf {e : Expr} (h : e.isLeaf = true) : held e = 0 := by
  cases e <;> simp_all [isLeaf, held]

/-- The levels that are held, as a measure of trees. -/
def heldMeasure : Measure where
  of := held
  left := 0
  right := 2
  minus := 1
  other := 0
  hole := by rw [held]
  binary {op l r} := by rw [held, Nat.zero_add]
  negate {operand} := by rw [held, held, Nat.max_zero]
  step {l r} := by rw [held, Nat.zero_add]
  predicate {l r reverse} := by rw [held, Nat.zero_add]
  call h := by
    rw [held, Nat.zero_add]
    exact heldAll_le_iff.2 h
  leaf h := Nat.le_of_eq (held_leaf h)

theorem capacity_heldMeasure (room : Nat) : heldMeasure.capacity room = room := by
  induction room with
  | zero => rfl
  | succ room ih =>
    rw [Measure.capacity, ih]
    simp [heldMeasure]

theorem held_of_mem {e child : Expr} (h : child ∈ e.children) (ho : e.isOperator = false) :
    child.held ≤ e.held := by
  cases e with
  | operator => cases ho
  | call qualifier name args =>
    rw [held]
    exact heldAll_le_iff.1 (Nat.le_refl _) child (List.mem_filter.1 h).1
  | step left right | predicate left right reverse =>
    have hside : child = left ∨ child = right := by simpa using (List.mem_filter.1 h).1
    rw [held]
    rcases hside with rfl | rfl <;> omega
  | _ => cases h

/-- The operators of a branch hold their levels, and those left for the right operand another one;
only those left for the left operand do not. -/
theorem countP_add_turns_le {e : Expr} {path : List Expr} (h : e.Branch path) :
    path.countP isOperator + turns turnsRight path ≤ held e + turns turnsLeft path := by
  induction h with
  | @leaf e he h =>
    cases e with
    | operator op left right =>
      have hone : 1 ≤ (operator op left right).held := by cases op <;> rw [held] <;> omega
      simpa [isOperator, turns] using hone
    | _ => simp [isOperator, turns]
  | @node e child path hc h ih =>
    obtain ⟨rest, rfl⟩ := h.exists_eq_cons
    rw [List.countP_cons, turns, turns]
    cases ho : e.isOperator with
    | false =>
      have hways : turnsRight e child = false ∧ turnsLeft e child = false := by
        cases e with
        | operator => cases ho
        | _ => exact ⟨rfl, rfl⟩
      have hle := held_of_mem hc ho
      simp only [hways, Bool.toNat_false, Bool.false_eq_true, if_false]
      omega
    | true =>
      cases e with
      | operator op left right =>
        have hside : child = left ∨ child = right := by simpa using (List.mem_filter.1 hc).1
        cases op with
        | negate =>
          have hle : child.held ≤ max left.held right.held := by
            rcases hside with rfl | rfl <;> omega
          simp only [turnsRight, turnsLeft, held, Bool.toNat_false, if_true]
          omega
        | binary op =>
          rw [held]
          by_cases hr : child = right
          · have hways : turnsRight (operator (.binary op) left right) child = true ∧
                turnsLeft (operator (.binary op) left right) child = false :=
              ⟨decide_eq_true hr, decide_eq_false (not_not.2 hr)⟩
            simp only [hways, Bool.toNat_false, Bool.toNat_true, if_true]
            subst hr
            omega
          · have hways : turnsRight (operator (.binary op) left right) child = false ∧
                turnsLeft (operator (.binary op) left right) child = true :=
              ⟨decide_eq_false hr, decide_eq_true hr⟩
            simp only [hways, Bool.toNat_false, Bool.toNat_true, if_true]
            obtain rfl := hside.resolve_right hr
            omega
      | _ => cases ho

end Expr

/-! ### A text of operators without operands -/

/-- A negation, in `n` parentheses one around the other; behind each of them stand more
unions and more sums. -/
def tangle : (n : Nat) → List Char
  | 0 => ['-']
  | n + 1 =>
    '(' :: (tangle n ++ ')' :: (List.replicate (n + 1) '|' ++ List.replicate (n + 1) '+'))

def tangleSymbol : Char → Symbol
  | '(' => .mark .leftParen
  | ')' => .mark .rightParen
  | '|' => .operator .union
  | '+' => .operator .plus
  | _ => .operator .minus

theorem mem_tangle {n : Nat} {c : Char} (h : c ∈ tangle n) : c ∈ ['(', ')', '|', '+', '-'] := by
  induction n with
  | zero => simp_all [tangle]
  | succ n ih =>
    simp only [tangle, List.mem_cons, List.mem_append, List.mem_replicate] at h
    rcases h with rfl | h | rfl | ⟨-, rfl⟩ | ⟨-, rfl⟩
    · decide
    · exact ih h
    all_goals decide

/-- Each of the characters is a token of its own. -/
theorem symbols_scanFrom {cs : List Char} {prior : TokenKind} {start : Nat}
    (h : ∀ c ∈ cs, c ∈ ['(', ')', '|', '+', '-']) :
    (Token.scanFrom prior start cs).map (·.symbol) = cs.map tangleSymbol := by
  induction cs generalizing prior start with
  | nil => simp [Token.scanFrom]
  | cons c cs ih =>
    have hread : c ≠ ' ' ∧ Lexeme.read prior c cs = (tangleSymbol c, 0) := by
      have hc := h c (.head _)
      simp only [List.mem_cons, List.not_mem_nil, or_false] at hc
      rcases hc with rfl | rfl | rfl | rfl | rfl <;> exact ⟨by decide, rfl⟩
    rw [Token.scanFrom_lexeme hread.1, hread.2, List.map_cons, List.map_cons]
    exact congrArg _ (ih fun d hd => h d (.tail _ hd))

namespace Reader

/-- The symbols of the tokens before the reader. -/
def ahead (r : Reader) : List Symbol := r.rest.map (·.symbol)

variable {r : Reader} {issue : Diagnostic} {expected : TokenKind}

@[simp] theorem ahead_record : (r.record issue).ahead = r.ahead := rfl

@[simp] theorem ahead_advance : r.advance.ahead = r.ahead.tail := by simp [ahead]

@[simp] theorem ahead_pass : (r.pass expected).ahead = r.ahead.tail := by simp [ahead]

theorem symbol_current (r : Reader) : r.current.symbol = r.ahead.headD .eof := by
  cases h : r.rest <;> simp [current, ahead, h, Token.eof]

theorem kind_ahead (r : Reader) : r.kind = (r.ahead.headD .eof).kind := by
  rw [kind, Token.kind, symbol_current]

end Reader

/-- The reading gives `a` and leaves the symbols `rest` before its reader, whatever it records. -/
def Gives {β : Type} (x : Reading Id β) (r : Reader) (a : β) (rest : List Symbol) : Prop :=
  (x r).1 = a ∧ (x r).2.ahead = rest

/-- Symbols at which no operand begins. -/
def bare : List Symbol := [.operator .plus, .operator .union, .mark .rightParen, .eof]

theorem Token.bare_cases {t : Token} (h : t.symbol ∈ bare) :
    t.startsStep = false ∧ t.startsPrimary = false ∧
      t.kind ∉ [.mark .slash, .mark .slashSlash, .operator .minus] ∧
      ∀ floor, (Nonterminal.operation floor).follows t.kind = true ↔
        t.symbol ≠ .operator .union ∧
        (t.symbol = .operator .plus → BinaryOp.plus.precedence ≤ floor) := by
  simp only [bare, List.mem_cons, List.not_mem_nil, or_false] at h
  rcases h with h | h | h | h <;>
    simp [startsStep, startsPrimary, kind, Symbol.kind, Nonterminal.follows, Nonterminal.marks, h]

/-- The same operator over and over again, with nothing on its right. -/
def pile (op : BinaryOp) : (n : Nat) → Option Expr → Option Expr
  | 0, left => left
  | n + 1, left => pile op n (some (.operator (.binary op) (.ofOption left) .hole))

theorem exists_pile (op : BinaryOp) (n : Nat) (left : Option Expr) :
    ∃ e, pile op (n + 1) left = some e := by
  induction n generalizing left with
  | zero => exact ⟨_, rfl⟩
  | succ n ih => exact ih _

theorem heaviest_pile {op : BinaryOp} {n : Nat} {left : Option Expr} :
    (Expr.ofOption (pile op n left)).heaviest ⟨1, 0⟩ =
      n + (Expr.ofOption left).heaviest ⟨1, 0⟩ := by
  induction n generalizing left with
  | zero => simp [pile]
  | succ n ih =>
    rw [pile, ih]
    simp [Expr.ofOption, Expr.heaviest]
    omega

namespace Level

open Nonterminal

variable {room floor n : Nat} {r : Reader} {left : Option Expr} {s : List Symbol}

theorem relativePath_bare (h : r.current.symbol ∈ bare) :
    Gives (ofRoom Expr.builder room).relativePath r none r.ahead := by
  cases room with
  | zero => exact ⟨rfl, rfl⟩
  | succ room =>
    have hrun : (ofRoom Expr.builder (room + 1)).relativePath r = _ :=
      relativePath_other (Token.bare_cases h).1
    rw [Gives, hrun]
    exact ⟨rfl, rfl⟩

theorem path_bare (h : r.current.symbol ∈ bare) :
    Gives (path Expr.builder (ofRoom Expr.builder room)) r none r.ahead := by
  obtain ⟨-, hprimary, hkind, -⟩ := Token.bare_cases h
  have hs : r.kind ≠ .mark .slash := fun he => hkind (he ▸ .head _)
  have hss : r.kind ≠ .mark .slashSlash := fun he => hkind (he ▸ .tail _ (.head _))
  rw [Gives, path_location hprimary, locationPath_other hs hss]
  exact relativePath_bare h

/-- Where no operand begins, there is none behind a sum. -/
theorem expr_bare (h : r.current.symbol ∈ bare) (hu : r.current.symbol ≠ .operator .union) :
    Gives ((ofRoom Expr.builder room).expr BinaryOp.plus.precedence) r none r.ahead := by
  cases room with
  | zero => exact ⟨rfl, rfl⟩
  | succ room =>
    obtain ⟨-, -, hkind, hfollows⟩ := Token.bare_cases h
    obtain ⟨hnone, hahead⟩ := @path_bare room r h
    have hsame : (path Expr.builder (ofRoom Expr.builder room) r).2.kind = r.kind := by
      rw [Reader.kind_ahead, hahead, ← Reader.kind_ahead]
    have hminus : r.kind ≠ .operator .minus := fun he => hkind (he ▸ .tail _ (.tail _ (.head _)))
    have hunion : r.kind ≠ .operator .union := fun he => hu (Reader.kind_eq_operator_iff.1 he)
    have hstop := (hfollows BinaryOp.plus.precedence).2 ⟨hu, fun _ => Nat.le_refl _⟩
    have hrun : (ofRoom Expr.builder (room + 1)).expr BinaryOp.plus.precedence r = _ := expr_some
    rw [Gives, hrun, operand_other hminus, unions_stop (hsame.trans_ne hunion),
      operators_stop hsame hstop]
    exact ⟨hnone, hahead⟩

/-- As many unions as there are levels are read, one around the other. -/
theorem unions_pile (h : r.ahead = List.replicate room (.operator .union) ++ s)
    (hs : s.headD .eof ∈ bare) (hu : s.headD .eof ≠ .operator .union) :
    Gives ((ofRoom Expr.builder room).unions left) r (pile .union room left) s := by
  induction room generalizing r left with
  | zero =>
    have hk : r.kind ≠ .operator .union := by
      rw [Reader.kind_ahead, h]
      exact fun he => hu (Symbol.kind_eq_operator_iff.1 he)
    rw [Gives, unions_stop hk]
    exact ⟨rfl, h⟩
  | succ room ih =>
    have hk : r.kind = .operator .union := by
      rw [Reader.kind_ahead, h]
      rfl
    have hahead : r.advance.ahead = List.replicate room (.operator .union) ++ s := by
      rw [Reader.ahead_advance, h]
      rfl
    have hbare : r.advance.current.symbol ∈ bare := by
      rw [Reader.symbol_current, hahead]
      cases room with
      | zero => exact hs
      | succ room => exact .tail _ (.head _)
    obtain ⟨hnone, hleft⟩ := @path_bare room r.advance hbare
    have hrun : (ofRoom Expr.builder (room + 1)).unions left r = _ := unions_some hk
    rw [Gives, hrun]
    dsimp only
    rw [hnone]
    exact ih (hleft.trans hahead)

/-- As many sums as there are levels are read, one around the other. -/
theorem operators_pile (h : r.ahead = List.replicate room (.operator .plus) ++ s)
    (hs : s.headD .eof ∈ [Symbol.mark .rightParen, .eof]) :
    Gives ((ofRoom Expr.builder room).operators 0 left) r (pile .plus room left) s := by
  have hbare : s.headD .eof ∈ bare ∧ s.headD .eof ≠ .operator .union ∧
      s.headD .eof ≠ .operator .plus := by
    simp only [List.mem_cons, List.not_mem_nil, or_false] at hs
    rcases hs with hs | hs <;> rw [hs] <;> decide
  induction room generalizing r left with
  | zero =>
    have hr : r.current.symbol = s.headD .eof := by
      rw [Reader.symbol_current, h]
      rfl
    rw [← hr] at hbare
    have hstop := ((Token.bare_cases hbare.1).2.2.2 0).2 ⟨hbare.2.1, fun he => absurd he hbare.2.2⟩
    rw [Gives, operators_stop rfl hstop]
    exact ⟨rfl, h⟩
  | succ room ih =>
    have hk : r.kind = .operator .plus := by
      rw [Reader.kind_ahead, h]
      rfl
    have hahead : r.advance.ahead = List.replicate room (.operator .plus) ++ s := by
      rw [Reader.ahead_advance, h]
      rfl
    have hnext : r.advance.current.symbol ∈ bare ∧ r.advance.current.symbol ≠ .operator .union := by
      rw [Reader.symbol_current, hahead]
      cases room with
      | zero => exact ⟨hbare.1, hbare.2.1⟩
      | succ room => exact ⟨.head _, by simp [List.replicate_succ]⟩
    obtain ⟨hnone, hleft⟩ := @expr_bare room r.advance hnext.1 hnext.2
    have hrun : (ofRoom Expr.builder (room + 1)).operators 0 left r = _ :=
      operators_some hk (by decide)
    rw [Gives, hrun]
    dsimp only
    rw [hnone]
    exact ih (hleft.trans hahead)

/-- An expression in parentheses is the path in front of an operator. -/
theorem path_parens {e : Expr} {op : BinaryOp} (h : r.current.symbol = .mark .leftParen)
    (hg : Gives ((ofRoom Expr.builder room).expr 0) r.advance (some e)
      (.mark .rightParen :: .operator op :: s)) :
    Gives (path Expr.builder (ofRoom Expr.builder room)) r (some e) (.operator op :: s) := by
  obtain ⟨hgive, hleft⟩ := hg
  have hprimary : r.current.startsPrimary = true := by rw [Token.startsPrimary, h]
  have hahead : (((ofRoom Expr.builder room).expr 0 r.advance).2.pass (.mark .rightParen)).ahead =
      .operator op :: s := by
    rw [Reader.ahead_pass, hleft]
    rfl
  have hk : (((ofRoom Expr.builder room).expr 0 r.advance).2.pass (.mark .rightParen)).kind =
      .operator op := by
    rw [Reader.kind_ahead, hahead]
    rfl
  have hmark : ∀ m : Mark, TokenKind.operator op ≠ .mark m := fun m he => by cases he
  rw [Gives, path_primary hprimary, primary_parens h]
  dsimp only
  rw [predicates_stop (hk.trans_ne (hmark _)),
    continued_other (hk.trans_ne (hmark _)) (hk.trans_ne (hmark _))]
  exact ⟨hgive, hahead⟩

/-- With `n + 1` levels the text is read to its end, and all its operators lie on one branch. -/
theorem expr_tangle (h : r.ahead = (tangle n).map tangleSymbol ++ s)
    (hs : s.headD .eof ∈ [Symbol.mark .rightParen, .eof]) :
    ∃ e, Gives ((ofRoom Expr.builder (n + 1)).expr 0) r (some e) s ∧
      e.heaviest ⟨1, 0⟩ = n * (n + 1) + 1 := by
  induction n generalizing r s with
  | zero =>
    have hk : r.kind = .operator .minus := by
      rw [Reader.kind_ahead, h]
      rfl
    have hahead : (r.advance.record (.tooDeep r.advance.current.start maxDepth)).ahead =
        List.replicate 0 (.operator .plus) ++ s := by
      rw [Reader.ahead_record, Reader.ahead_advance, h]
      rfl
    have hrun : (ofRoom Expr.builder 1).expr 0 r = _ := expr_some
    rw [operand_minus hk] at hrun
    refine ⟨.operator .negate .hole .hole, ?_, by simp [Expr.heaviest]⟩
    rw [Gives, hrun]
    exact operators_pile hahead hs
  | succ n ih =>
    -- What stands in the parentheses is read with one level less.
    have hopen : r.ahead = .mark .leftParen :: ((tangle n).map tangleSymbol ++ .mark .rightParen ::
        (List.replicate (n + 1) (.operator .union) ++
          (List.replicate (n + 1) (.operator .plus) ++ s))) := by
      rw [h]
      simp [tangle, tangleSymbol]
    have hsymbol : r.current.symbol = .mark .leftParen := by
      rw [Reader.symbol_current, hopen]
      rfl
    obtain ⟨e, hinner, hweight⟩ :=
      @ih r.advance _ (by rw [Reader.ahead_advance, hopen]; rfl) (.head _)
    obtain ⟨hpath, hbehind⟩ := path_parens hsymbol hinner
    obtain ⟨hunions, hsums⟩ :=
      @unions_pile (n + 1) (path Expr.builder (ofRoom Expr.builder (n + 1)) r).2 (some e)
        (List.replicate (n + 1) (.operator .plus) ++ s) hbehind (.head _) (fun he => by cases he)
    obtain ⟨hoperators, hrest⟩ :=
      @operators_pile (n + 1) _ (pile .union (n + 1) (some e)) s hsums hs
    have hminus : r.kind ≠ .operator .minus := by
      intro he
      rw [Reader.kind_eq_operator_iff, hsymbol] at he
      cases he
    have hrun : (ofRoom Expr.builder (n + 1 + 1)).expr 0 r = _ := expr_some
    rw [operand_other hminus, hpath, hunions] at hrun
    obtain ⟨whole, hwhole⟩ := exists_pile .plus n (pile .union (n + 1) (some e))
    refine ⟨whole, ?_, ?_⟩
    · rw [Gives, hrun, ← hwhole]
      exact ⟨hoperators, hrest⟩
    · have hpile := @heaviest_pile .plus (n + 1) (pile .union (n + 1) (some e))
      rw [hwhole, heaviest_pile] at hpile
      simp only [Expr.ofOption, hweight] at hpile
      rw [hpile]
      ring

end Level

namespace Expr

/-- The bound on the operators of a branch is reached. -/
theorem exists_countP_operator : ∃ text e path, (parse text).result = some e ∧ e.Branch path ∧
    path.countP isOperator = maxDepth * (maxDepth - 1) + 1 := by
  obtain ⟨n, hn⟩ : ∃ n, maxDepth = n + 1 := ⟨127, rfl⟩
  have hbound : maxDepth * (maxDepth - 1) + 1 = n * (n + 1) + 1 := by
    rw [hn, Nat.add_sub_cancel, Nat.mul_comm]
  have hahead :
      (Reader.start (String.ofList (tangle n))).ahead = (tangle n).map tangleSymbol ++ [] := by
    rw [Reader.ahead, Reader.rest_start, Token.scan, String.toList_ofList,
      symbols_scanFrom fun c => mem_tangle, List.append_nil]
  obtain ⟨e, ⟨hgive, -⟩, hweight⟩ := Level.expr_tangle hahead (.tail _ (.head _))
  have hparse : (parse (String.ofList (tangle n))).result = some e := by rw [parse_eq, hn, hgive]
  obtain ⟨path, hpath, hsum⟩ :=
    exists_branch ⟨1, 0⟩ (isHole_of_heaviest_pos (by rw [hweight]; omega))
  refine ⟨_, e, path, hparse, hpath, ?_⟩
  rw [← pathWeight_operators, hsum, hweight, hbound]

variable {text : String} {e : Expr} {path : List Expr}

/-- Whatever is wrong with a text, a branch of its tree has no more operators than there are levels
if it goes on to right operands at least as often as to left ones. Otherwise the excess is not
greater than that of the left operands, and there are no more operators than the product of the
number of levels and the number below it, and one. -/
theorem countP_operator_of_parse (h : (parse text).result = some e) (hpath : e.Branch path) :
    (turns turnsLeft path ≤ turns turnsRight path → path.countP isOperator ≤ maxDepth) ∧
    path.countP isOperator + turns turnsRight path ≤ maxDepth + turns turnsLeft path ∧
    path.countP isOperator ≤ maxDepth * (maxDepth - 1) + 1 := by
  have hheld : e.held ≤ maxDepth := capacity_heldMeasure maxDepth ▸ heldMeasure.of_parse h
  have hturns := countP_add_turns_le hpath
  refine ⟨fun hle => by omega, by omega, ?_⟩
  calc path.countP isOperator
      = pathWeight ⟨1, 0⟩ path := (pathWeight_operators path).symm
    _ ≤ e.heaviest ⟨1, 0⟩ := pathWeight_le hpath
    _ ≤ (Weights.measure ⟨1, 0⟩).capacity maxDepth := heaviest_of_parse h
    _ = maxDepth * (maxDepth - 1) + 1 := by
      rw [maxDepth, capacity_operators]

/-- A branch that goes to the right, to the left and to the right again. -/
theorem countP_operator_zigzag :
    let three := number "3"
    let sum := operator (.binary .plus) (number "2") three
    let product := operator (.binary .times) sum (number "4")
    let whole := operator (.binary .minus) (number "1") product
    (parse "1-(2+3)*4").result = some whole ∧ whole.Branch [whole, product, sum, three] ∧
      turns turnsLeft [whole, product, sum, three] ≤ turns turnsRight [whole, product, sum, three] ∧
      [whole, product, sum, three].countP isOperator ≤ maxDepth := by
  intro three sum product whole
  have h : (parse "1-(2+3)*4").result = some whole := by decide +kernel
  have hpath : whole.Branch [whole, product, sum, three] :=
    .node (.tail _ (.head _)) (.node (.head _) (.node (.tail _ (.head _)) (.leaf rfl rfl)))
  have hturns : turns turnsLeft [whole, product, sum, three] ≤
      turns turnsRight [whole, product, sum, three] := by decide +kernel
  exact ⟨h, hpath, hturns, (countP_operator_of_parse h hpath).1 hturns⟩

/-- What is read of the characters of a text. -/
def readChars (cs : List Char) : Option Expr × Reader :=
  (Level.ofRoom builder maxDepth).expr 0
    (Reader.inspect ⟨Token.scanFrom .unknown 0 cs, Text.byteSize cs, #[]⟩)

theorem parse_ofList {cs : List Char} (h : (readChars cs).2.kind = .eof) :
    parse (String.ofList cs) = ⟨(readChars cs).1, (readChars cs).2.issues⟩ := by
  have hstart : (Level.ofRoom builder maxDepth).expr 0 (Reader.start (String.ofList cs)) =
      readChars cs := by
    rw [Reader.start, Token.scan, String.toList_ofList, readChars]
  rw [parse_eq, hstart, Reader.close, if_pos h]

/-- A chain of sums whose first operand is a chain of sums in parentheses, which has only
half of the levels. -/
def nestedSums : List Char :=
  let sums (n : Nat) : List Char := (List.replicate n ['+', '1']).flatten
  '(' :: '1' :: (sums 64 ++ ')' :: sums 65)

/-- The levels of the inner chain are spent a second time on the outer one,
and nothing is reported. -/
theorem countP_operator_nestedSums : (parse (String.ofList nestedSums)).issues = #[] ∧
    ∃ e path, (parse (String.ofList nestedSums)).result = some e ∧ e.Branch path ∧
      maxDepth < path.countP isOperator := by
  obtain ⟨hkind, hclean, hweight⟩ : (readChars nestedSums).2.kind = .eof ∧
      (readChars nestedSums).2.issues = #[] ∧
      maxDepth < (ofOption (readChars nestedSums).1).heaviest ⟨1, 0⟩ := by
    decide +kernel
  rw [parse_ofList hkind]
  cases he : (readChars nestedSums).1 with
  | none =>
    rw [he] at hweight
    cases hweight
  | some e =>
    rw [he, ofOption] at hweight
    obtain ⟨path, hpath, hsum⟩ :=
      exists_branch ⟨1, 0⟩ (isHole_of_heaviest_pos (Nat.zero_lt_of_lt hweight))
    refine ⟨hclean, e, path, rfl, hpath, ?_⟩
    rw [← pathWeight_operators, hsum]
    exact hweight

end Expr

end YangConstraint
