import YangConstraint.Proofs.Expr.Language
import YangConstraint.Proofs.Expr.Printable

/-! The canonical text of a printable tree is read back as that tree. -/
namespace YangConstraint

open Lexeme Token Nonterminal

/-- Before what may stand behind it, the text is scanned into a phrase for `e` that is not heavier
than `size` allows. Of all phrases only the root ends as no operand does. -/
def Rereads (prior : TokenKind) (text : List Char) (X : Nonterminal) (e : Expr) (size : Nat) :
    Prop :=
  ∀ rest, Ends rest → (X = .path → rest.head? ≠ some '/') → ∃ last,
    (last.endsOperand = true ∨ X = .path ∧ e = .axis .root .any none none) ∧
      Scans prior (text ++ rest) last rest fun w => Phrase X w e ∧ 2 + weight w ≤ size

/-- The canonical text is read back as a phrase for its tree. A step is written behind its axis. -/
def Nonterminal.Reprints (e : Expr) : Nonterminal → Prop
  | tested axis =>
    axis ≠ .root → ∃ text, e.canonical.toList = axis.name.toList ++ ':' :: ':' :: text ∧
      Rereads (.mark .colonColon) text (.tested axis) e (3 * e.nodes)
  | X => (∀ prior, prior.endsOperand = false → Rereads prior e.canonical.toList X e (3 * e.nodes)) ∧
      (X = .step ∨ X = .relative → ∀ rest, (e.canonical.toList ++ rest).head? ≠ some '/')

section

variable {prior last : TokenKind} {text more rest : List Char} {X Y : Nonterminal} {a b c e : Expr}
  {k n size : Nat} {axis : Axis} {t : Token} {u v w : List Token}

theorem weight_single {s : Symbol} (ht : t.symbol = s) : weight [t] = (Token.mk s 0 "").weight := by
  simp [weight, Token.weight, ht]

theorem Rereads.imp (h : Rereads prior text X e k) (hX : X ≠ .path)
    (hxy : ∀ w, Phrase X w e → Phrase Y w e) (hk : k ≤ n) : Rereads prior text Y e n := by
  intro rest hr _
  obtain ⟨last, hlast, hs⟩ := h rest hr fun hx => absurd hx hX
  refine ⟨last, .inl (hlast.resolve_right fun hx => hX hx.1), hs.imp ?_⟩
  rintro w ⟨hp, hw⟩
  exact ⟨hxy w hp, by omega⟩

theorem phrase_expr (h : Phrase .path w e) : Phrase .expr w e :=
  .above_of_unary (.ofUnion (.ofPath h))

theorem phrase_binary {op : BinaryOp} (hu : Phrase .path u a) (ht : t.symbol = .operator op)
    (hv : Phrase .path v b) : Phrase .expr (u ++ t :: v) (.operator (.binary op) a b) := by
  by_cases hop : op = .union
  · subst hop
    exact .above_of_unary (.ofUnion (.union (.ofPath hu) ht hv))
  · have hle : op.precedence ≤ tightest := by cases op <;> first | decide | contradiction
    refine .above_of_operation ?_ op.precedence_pos hle
    exact .binary (mem_operators_iff.2 ⟨hop, rfl⟩)
      (.tighter (.above_of_unary (.ofUnion (.ofPath hu)))) ht
      (.above_of_unary (.ofUnion (.ofPath hv)))

/-- Parentheses around what is read as an expression. -/
theorem rereads_parens (h : ∀ rest, ∃ last, Scans (.mark .leftParen) (text ++ ')' :: rest) last
      (')' :: rest) fun w => Phrase .expr w e ∧ 2 + weight w ≤ k) (hk : k < size) :
    Rereads prior ('(' :: (text ++ [')'])) .filter e size := by
  intro rest _ _
  obtain ⟨last, hs⟩ := h rest
  have hopen : Scans prior ('(' :: (text ++ ')' :: rest)) (.mark .leftParen) (text ++ ')' :: rest)
    (Single (.mark .leftParen)) := scans_mark (by simp)
  have hclose : Scans last (')' :: rest) (.mark .rightParen) rest (Single (.mark .rightParen)) :=
    scans_mark (by simp)
  refine ⟨.mark .rightParen, .inl rfl, ?_⟩
  rw [List.cons_append, List.append_assoc]
  refine (hopen.trans (hs.trans hclose)).imp ?_
  rintro _ ⟨_, _, rfl, ⟨s, rfl, ht⟩, w, _, rfl, ⟨hp, hw⟩, ⟨t, rfl, ht'⟩⟩
  refine ⟨.ofPrimary (.parens ht hp ht'), ?_⟩
  simp only [weight_append, weight_single ht, weight_single ht', Token.weight]
  omega

theorem rereads_enclosed (h : Rereads (.mark .leftParen) text .path e k) :
    Rereads prior ('(' :: (text ++ [')'])) .filter e (k + 1) := by
  refine rereads_parens (fun rest => ?_) (Nat.lt_succ_self k)
  obtain ⟨last, -, hs⟩ := h (')' :: rest) (.mark (by decide) rest) (by simp)
  exact ⟨last, hs.imp fun w hw => ⟨phrase_expr hw.1, hw.2⟩⟩

/-- A predicate behind what takes one. -/
theorem rereads_predicate {reverse : Bool} (h : Rereads prior text X a k) (hX : X ≠ .path)
    (hc : Rereads (.mark .leftBracket) more .path c n)
    (hx : ∀ {u v : List Token} {s t : Token}, Phrase X u a → s.symbol = .mark .leftBracket →
      Phrase .expr v c → t.symbol = .mark .rightBracket →
        Phrase X (u ++ s :: (v ++ [t])) (.predicate a c reverse)) (hk : k + n < size) :
    Rereads prior (text ++ '[' :: (more ++ [']'])) X (.predicate a c reverse) size := by
  intro rest _ _
  obtain ⟨la, -, ha⟩ :=
    h ('[' :: (more ++ ']' :: rest)) (.mark (by decide) _) fun hp => absurd hp hX
  obtain ⟨lc, -, hc⟩ := hc (']' :: rest) (.mark (by decide) rest) (by simp)
  have hopen : Scans la ('[' :: (more ++ ']' :: rest)) (.mark .leftBracket) (more ++ ']' :: rest)
    (Single (.mark .leftBracket)) := scans_mark (by simp)
  have hclose : Scans lc (']' :: rest) (.mark .rightBracket) rest (Single (.mark .rightBracket)) :=
    scans_mark (by simp)
  refine ⟨.mark .rightBracket, .inl rfl, ?_⟩
  rw [List.append_assoc, List.cons_append, List.append_assoc]
  refine (ha.trans (hopen.trans (hc.trans hclose))).imp ?_
  rintro _ ⟨u, _, rfl, ⟨hu, hwu⟩, _, _, rfl, ⟨s, rfl, hs⟩, v, _, rfl, ⟨hv, hwv⟩, ⟨t, rfl, ht⟩⟩
  refine ⟨hx hu hs (phrase_expr hv) ht, ?_⟩
  simp only [weight_append, weight_single hs, weight_single ht, Token.weight]
  omega

/-- A path behind a slash. -/
theorem rereads_step (h : Rereads prior text X a k) (hX : X ≠ .path)
    (hb : Rereads (.mark .slash) more .relative b n) (hs : ∀ rest, (more ++ rest).head? ≠ some '/')
    (hx : ∀ {u v : List Token} {t : Token}, Phrase X u a → t.Leads b b → Phrase .relative v b →
      Phrase Y (u ++ t :: v) (.step a b)) (hk : k + n ≤ size) :
    Rereads prior (text ++ '/' :: more) Y (.step a b) size := by
  intro rest hr _
  obtain ⟨la, -, ha⟩ := h ('/' :: (more ++ rest)) (.mark (by decide) _) fun hp => absurd hp hX
  obtain ⟨lb, hlb, hb⟩ := hb rest hr (by simp)
  have hslash : Scans la ('/' :: (more ++ rest)) (.mark .slash) (more ++ rest)
    (Single (.mark .slash)) := scans_slash (hs rest)
  refine ⟨lb, .inl (hlb.resolve_right (by simp)), ?_⟩
  rw [List.append_assoc, List.cons_append]
  refine (ha.trans (hslash.trans hb)).imp ?_
  rintro _ ⟨u, _, rfl, ⟨hu, hwu⟩, _, v, rfl, ⟨t, rfl, ht⟩, ⟨hv, hwv⟩⟩
  refine ⟨hx hu (.slash ht) hv, ?_⟩
  simp only [weight_append, weight_single ht, Token.weight]
  omega

theorem nodes_predicate {reverse : Bool} :
    (Expr.predicate a c reverse).nodes = a.nodes + c.nodes + 1 := by simp [Expr.nodes, Expr.parts]

theorem nodes_step :
    (Expr.step a b).nodes = a.nodes + b.nodes + 1 := by simp [Expr.nodes, Expr.parts]

theorem nodes_binary {op : BinaryOp} :
    (Expr.operator (.binary op) a b).nodes = a.nodes + b.nodes + 1 := by
  simp [Expr.nodes, Expr.parts]

theorem nodes_negate : (Expr.operator .negate a .hole).nodes = a.nodes + 1 := by
  simp [Expr.nodes, Expr.parts]

theorem canonical_axis {type : NodeType} {qualifier name : Option String} (ha : axis ≠ .root) :
    (Expr.axis axis type qualifier name).canonical.toList =
      axis.name.toList ++ ':' :: ':' :: (type.test qualifier name).toList := by
  cases axis with
  | root => exact absurd rfl ha
  | _ => simp [Expr.canonical]

theorem test_principal {qualifier name : Option String} :
    axis.principal.test qualifier name = qualify qualifier (name.getD "*") := by
  cases axis <;> rfl

theorem reprints_name {qualifier : Option String} {label : String} (h : IsName qualifier label) :
    (tested axis).Reprints
      (.axis axis axis.principal qualifier (if label = "*" then none else some label)) := by
  intro ha
  refine ⟨_, canonical_axis ha, fun rest hr _ => ⟨.name, .inl rfl, ?_⟩⟩
  have hlabel : (if label = "*" then none else some label : Option String).getD "*" = label := by
    split <;> simp_all
  rw [test_principal, hlabel]
  refine (scans_name h rfl hr.stops hr.opensAxis).imp ?_
  rintro _ ⟨t, callable, rfl, ht⟩
  exact ⟨.ofTest (.name ht), by rw [weight_single ht]; exact Nat.le_succ 2⟩

theorem reprints_star : (tested axis).Reprints (.axis axis axis.principal none none) := by
  intro ha
  refine ⟨_, canonical_axis ha, fun rest hr _ => ⟨.mark .star, .inl rfl, ?_⟩⟩
  rw [test_principal]
  refine (scans_star rfl).imp ?_
  rintro _ ⟨t, rfl, ht⟩
  exact ⟨.ofTest (.star ht), by rw [weight_single ht]; exact Nat.le_succ 2⟩

/-- A keyword and what opens its parentheses. -/
theorem scans_keyword {type : NodeType} {keyword : String} (h : type.keyword? = some keyword) :
    Scans (.mark .colonColon) (keyword.toList ++ '(' :: rest) (.mark .leftParen) rest fun w =>
      ∃ s t, w = [s, t] ∧ s.nodeType? = some type ∧ t.symbol = .mark .leftParen ∧ weight w = 1 := by
  have hn : IsName none keyword := isWord_keyword h
  have hname : Scans (.mark .colonColon) (keyword.toList ++ '(' :: rest) .name ('(' :: rest) _ :=
    scans_name hn rfl (by simp [Stops, stops]) rfl
  have hopen : Scans .name ('(' :: rest) (.mark .leftParen) rest (Single (.mark .leftParen)) :=
    scans_mark (by simp)
  refine (hname.trans hopen).imp ?_
  rintro _ ⟨_, _, rfl, ⟨s, callable, rfl, hs⟩, t, rfl, ht⟩
  refine ⟨s, t, rfl, ?_, ht, ?_⟩
  · rw [Token.nodeType?, hs]
    exact NodeType.ofKeyword?_eq_some_iff.2 h
  · rw [weight_append, weight_single hs, weight_single ht]
    rfl

theorem reprints_type {type : NodeType} {keyword : String} (h : type.keyword? = some keyword) :
    (tested axis).Reprints (.axis axis type none none) := by
  intro ha
  refine ⟨_, canonical_axis ha, fun rest hr _ => ⟨.mark .rightParen, .inl rfl, ?_⟩⟩
  have htext : (type.test none none).toList ++ rest = keyword.toList ++ '(' :: ')' :: rest := by
    simp [NodeType.test, h]
  have hclose : Scans (.mark .leftParen) (')' :: rest) (.mark .rightParen) rest
    (Single (.mark .rightParen)) := scans_mark (by simp)
  rw [htext]
  refine ((scans_keyword h).trans hclose).imp ?_
  rintro _ ⟨_, _, rfl, ⟨n, s, rfl, hn, hs, hw⟩, t, rfl, ht⟩
  refine ⟨.ofTest (.type hn hs ht), ?_⟩
  rw [weight_append, hw, weight_single ht]
  exact Nat.le_refl 3

theorem reprints_instruction {literal : String} (h : '\'' ∉ literal.toList) :
    (tested axis).Reprints (.axis axis .processingInstruction none (some literal)) := by
  intro ha
  refine ⟨_, canonical_axis ha, fun rest hr _ => ⟨.mark .rightParen, .inl rfl, ?_⟩⟩
  have htext : (NodeType.processingInstruction.test none (some literal)).toList ++ rest =
      "processing-instruction".toList ++ '(' :: ((quoteLiteral literal).toList ++ ')' :: rest) := by
    simp [NodeType.test, NodeType.keyword?, quoteLiteral, h]
  have hliteral : Scans (.mark .leftParen) ((quoteLiteral literal).toList ++ ')' :: rest) .string
    (')' :: rest) (Single (.string literal true)) := scans_string fun hq => absurd hq h
  have hclose : Scans .string (')' :: rest) (.mark .rightParen) rest
    (Single (.mark .rightParen)) := scans_mark (by simp)
  rw [htext]
  have hkeyword : NodeType.processingInstruction.keyword? = some "processing-instruction" := rfl
  refine ((scans_keyword hkeyword).trans (hliteral.trans hclose)).imp ?_
  rintro _ ⟨_, _, rfl, ⟨n, s, rfl, hn, hs, hw⟩, _, _, rfl, ⟨l, rfl, hl⟩, t, rfl, ht⟩
  refine ⟨.ofTest (.instruction hn hs hl ht), ?_⟩
  rw [weight_append, weight_append, hw, weight_single hl, weight_single ht]
  exact Nat.le_refl 3

theorem reprints_predicate (ha : (tested axis).Reprints a) (hc : Nonterminal.path.Reprints c)
    (hp : axis ≠ .root → a.needsParens axis.isReverse = false) :
    (tested axis).Reprints (.predicate a c axis.isReverse) := by
  intro hroot
  obtain ⟨text, htext, ha⟩ := ha hroot
  refine ⟨text ++ '[' :: (c.canonical.toList ++ [']']), ?_, ?_⟩
  · simp [Expr.canonical, hp hroot, htext]
  · exact rereads_predicate ha (by simp) (hc.1 _ rfl) .predicate (by rw [nodes_predicate]; omega)

theorem head_name (ha : axis ≠ .root) (rest : List Char) :
    (axis.name.toList ++ rest).head? ≠ some '/' := by
  cases axis with
  | root => exact absurd rfl ha
  | _ => simp [Axis.name]

theorem reprints_ofTested (ha : axis ≠ .root) (h : (tested axis).Reprints e) : step.Reprints e := by
  obtain ⟨text, htext, h⟩ := h ha
  refine ⟨fun prior _ rest hr _ => ?_, fun _ rest => ?_⟩
  · obtain ⟨last, hlast, hs⟩ := h rest hr (by simp)
    refine ⟨last, .inl (hlast.resolve_right (by simp)), ?_⟩
    rw [htext, List.append_assoc]
    have haxis : Scans prior (axis.name.toList ++ ':' :: ':' :: (text ++ rest)) .axis
      (':' :: ':' :: (text ++ rest)) (Single (.axis axis)) := scans_axis ha
    refine (haxis.trans (scans_colonColon.trans hs)).imp ?_
    rintro _ ⟨_, _, rfl, ⟨s, rfl, hs⟩, _, w, rfl, ⟨t, rfl, ht⟩, hp, hw⟩
    refine ⟨.axis hs ht hp, ?_⟩
    simp only [weight_append, weight_single hs, weight_single ht, Token.weight]
    omega
  · rw [htext, List.append_assoc]
    exact head_name ha _

theorem needsParens_filter (h : Printable .filter a) : a.needsParens false = false := by
  cases h <;> rfl

/-- What is neither the root nor a path stands before a slash without parentheses. -/
theorem canonical_step (h : a.needsParens false = false ∨ Printable .step a) :
    (Expr.step a b).canonical.toList = a.canonical.toList ++ '/' :: b.canonical.toList := by
  cases a with
  | axis axis =>
    cases axis with
    | root =>
      rcases h with h | h
      · cases h
      · cases h with
        | ofTested ha h => cases h <;> contradiction
    | _ => simp [Expr.canonical]
  | step =>
    rcases h with h | h
    · cases h
    · cases h with
      | ofTested ha h => cases h
  | _ => simp [Expr.canonical]

theorem reprints_stepPath (hp : Printable .step a) (ha : step.Reprints a)
    (hb : relative.Reprints b) :
    relative.Reprints (.step a b) := by
  have htext : (Expr.step a b).canonical.toList = a.canonical.toList ++ '/' :: b.canonical.toList :=
    canonical_step (.inr hp)
  refine ⟨fun prior hprior => ?_, fun _ rest => ?_⟩
  · rw [htext]
    exact rereads_step (ha.1 prior hprior) (by simp) (hb.1 _ rfl) (hb.2 (.inr rfl)) .stepPath
      (by rw [nodes_step]; omega)
  · rw [htext, List.append_assoc]
    exact ha.2 (.inl rfl) _

theorem reprints_filterPath (hp : Printable .filter a) (ha : filter.Reprints a)
    (hb : relative.Reprints b) : Nonterminal.path.Reprints (.step a b) := by
  refine ⟨fun prior hprior => ?_, by simp⟩
  rw [canonical_step (.inl (needsParens_filter hp))]
  exact rereads_step (ha.1 prior hprior) (by simp) (hb.1 _ rfl) (hb.2 (.inr rfl)) .filterPath
    (by rw [nodes_step]; omega)

theorem reprints_pathPath (ha : Nonterminal.path.Reprints (.step a b)) (hc : relative.Reprints c) :
    Nonterminal.path.Reprints (.step (.step a b) c) := by
  refine ⟨fun prior _ => ?_, by simp⟩
  have htext : (Expr.step (.step a b) c).canonical.toList =
      '(' :: ((Expr.step a b).canonical.toList ++ [')']) ++ '/' :: c.canonical.toList := by
    rw [Expr.canonical]
    simp
  rw [htext]
  exact rereads_step (rereads_enclosed (ha.1 _ rfl)) (by simp) (hc.1 _ rfl)
    (hc.2 (.inr rfl)) .filterPath (by rw [@nodes_step (.step a b)]; omega)

theorem reprints_root : Nonterminal.path.Reprints (.axis .root .any none none) := by
  refine ⟨fun prior _ rest _ hrest => ⟨.mark .slash, .inr ⟨rfl, rfl⟩, ?_⟩, by simp⟩
  have hslash : Scans prior ('/' :: rest) (.mark .slash) rest (Single (.mark .slash)) :=
    scans_slash (hrest rfl)
  refine hslash.imp ?_
  rintro _ ⟨t, rfl, ht⟩
  exact ⟨.ofLocation (.root ht), by rw [weight_single ht]; exact Nat.le_refl 3⟩

theorem reprints_rootPath (hb : relative.Reprints b) :
    Nonterminal.path.Reprints (.step (.axis .root .any none none) b) := by
  refine ⟨fun prior _ rest hr _ => ?_, by simp⟩
  obtain ⟨last, hlast, hs⟩ := hb.1 (.mark .slash) rfl rest hr (by simp)
  have hslash : Scans prior ('/' :: (b.canonical.toList ++ rest)) (.mark .slash)
    (b.canonical.toList ++ rest) (Single (.mark .slash)) := scans_slash (hb.2 (.inr rfl) rest)
  have htext : (Expr.step (.axis .root .any none none) b).canonical.toList ++ rest =
      '/' :: (b.canonical.toList ++ rest) := by simp [Expr.canonical]
  refine ⟨last, .inl (hlast.resolve_right (by simp)), ?_⟩
  rw [htext]
  refine (hslash.trans hs).imp ?_
  rintro _ ⟨_, w, rfl, ⟨t, rfl, ht⟩, hp, hw⟩
  refine ⟨.ofLocation (.rootPath (.slash ht) hp), ?_⟩
  rw [nodes_step]
  simp only [weight_append, weight_single ht, Token.weight]
  omega

theorem reprints_string {value : String} (h : '\'' ∈ value.toList → '"' ∉ value.toList) :
    filter.Reprints (.string value) := by
  refine ⟨fun prior _ rest _ _ => ⟨.string, .inl rfl, ?_⟩, by simp⟩
  have hs : Scans prior ((quoteLiteral value).toList ++ rest) .string rest
    (Single (.string value true)) := scans_string h
  refine hs.imp ?_
  rintro _ ⟨t, rfl, ht⟩
  exact ⟨.ofPrimary (.string ht), by rw [weight_single ht]; exact Nat.le_succ 2⟩

theorem reprints_number {text : String} (h : IsNumeral text.toList) :
    filter.Reprints (.number text) := by
  refine ⟨fun prior _ rest hr _ => ⟨.number, .inl rfl, (scans_number h hr.stops).imp ?_⟩, by simp⟩
  rintro _ ⟨t, rfl, ht, htext⟩
  rw [String.ofList_toList] at htext
  subst htext
  exact ⟨.ofPrimary (.number ht), by rw [weight_single ht]; exact Nat.le_succ 2⟩

theorem reprints_reference {qualifier : Option String} {label : String}
    (h : IsName qualifier label) :
    filter.Reprints (.reference qualifier (some label)) := by
  refine ⟨fun prior _ rest hr _ => ⟨.name, .inl rfl, ?_⟩, by simp⟩
  have hdollar : Scans prior ('$' :: ((qualify qualifier label).toList ++ rest)) (.mark .dollar)
    ((qualify qualifier label).toList ++ rest) (Single (.mark .dollar)) := scans_mark (by simp)
  have htext : (Expr.reference qualifier (some label)).canonical.toList ++ rest =
      '$' :: ((qualify qualifier label).toList ++ rest) := by simp [Expr.canonical]
  rw [htext]
  refine (hdollar.trans (scans_name h rfl hr.stops hr.opensAxis)).imp ?_
  rintro _ ⟨_, _, rfl, ⟨s, rfl, hs⟩, t, callable, rfl, ht⟩
  refine ⟨.ofPrimary (.reference hs ht), ?_⟩
  rw [weight_append, weight_single hs, weight_single ht]
  exact Nat.le_succ 2

theorem reprints_negate (h : Nonterminal.path.Reprints a) :
    filter.Reprints (.operator .negate a .hole) := by
  refine ⟨fun prior _ => ?_, by simp⟩
  have htext : (Expr.operator .negate a .hole).canonical.toList =
      '(' :: ('-' :: a.canonical.toList ++ [')']) := by simp [Expr.canonical]
  rw [htext]
  refine rereads_parens (k := 3 * a.nodes + 2) (fun rest => ?_) (by rw [nodes_negate]; omega)
  obtain ⟨last, -, hs⟩ :=
    h.1 (.operator .minus) rfl (')' :: rest) (.mark (by decide) rest) (by simp)
  refine ⟨last, (scans_minus.trans hs).imp ?_⟩
  rintro _ ⟨_, w, rfl, ⟨t, rfl, ht⟩, hp, hw⟩
  refine ⟨.above_of_unary (.negate ht (.ofUnion (.ofPath hp))), ?_⟩
  simp only [weight_append, weight_single ht, Token.weight]
  omega

/-- The operators that are written as words, and the star, are read as such behind an operand. -/
theorem endsOperand_left {op : BinaryOp} (h : (Expr.operator (.binary op) a b).Legible)
    (hlast : last.endsOperand = true ∨ X = .path ∧ a = .axis .root .any none none) :
    last.endsOperand = true ∨ op ∉ [BinaryOp.or, .and, .times, .div, .mod] := by
  rcases hlast with hlast | ⟨-, rfl⟩
  · exact .inl hlast
  · exact .inr h

theorem reprints_binary {op : BinaryOp} (ha : Nonterminal.path.Reprints a)
    (hb : Nonterminal.path.Reprints b) (h : (Expr.operator (.binary op) a b).Legible) :
    filter.Reprints (.operator (.binary op) a b) := by
  refine ⟨fun prior _ => ?_, by simp⟩
  have htext : (Expr.operator (.binary op) a b).canonical.toList =
      '(' :: ((a.canonical.toList ++ ' ' :: (op.symbol.toList ++ ' ' :: b.canonical.toList)) ++
        [')']) := by
    simp [Expr.canonical]
  rw [htext]
  refine rereads_parens (k := 3 * a.nodes + 3 * b.nodes) (fun rest => ?_)
    (by rw [nodes_binary]; omega)
  obtain ⟨la, hla, ha⟩ := ha.1 (.mark .leftParen) rfl
    (' ' :: (op.symbol.toList ++ ' ' :: (b.canonical.toList ++ ')' :: rest)))
      (.operator op _) (by simp)
  obtain ⟨lb, -, hb⟩ := hb.1 (.operator op) rfl (')' :: rest) (.mark (by decide) rest) (by simp)
  have hop : Scans la (op.symbol.toList ++ ' ' :: (b.canonical.toList ++ ')' :: rest))
      (.operator op) (' ' :: (b.canonical.toList ++ ')' :: rest)) (Single (.operator op)) :=
    scans_operator (endsOperand_left h hla)
  refine ⟨lb, ?_⟩
  rw [List.append_assoc, List.cons_append, List.append_assoc, List.cons_append]
  refine (ha.trans (hop.space.trans hb.space)).imp ?_
  rintro _ ⟨u, _, rfl, ⟨hu, hwu⟩, _, v, rfl, ⟨t, rfl, ht⟩, hv, hwv⟩
  refine ⟨phrase_binary hu ht hv, ?_⟩
  simp only [weight_append, weight_single ht, Token.weight]
  omega

theorem reprints_filtered (hp : Printable .filter a) (ha : filter.Reprints a)
    (hc : Nonterminal.path.Reprints c) : filter.Reprints (.predicate a c false) := by
  refine ⟨fun prior hprior => ?_, by simp⟩
  have htext : (Expr.predicate a c false).canonical.toList =
      a.canonical.toList ++ '[' :: (c.canonical.toList ++ [']']) := by
    simp [Expr.canonical, needsParens_filter hp]
  rw [htext]
  exact rereads_predicate (ha.1 prior hprior) (by simp) (hc.1 _ rfl) .filtered
    (by rw [nodes_predicate]; omega)

theorem reprints_enclosed (h : a.needsParens false = true) (ha : Nonterminal.path.Reprints a)
    (hc : Nonterminal.path.Reprints c) : filter.Reprints (.predicate a c false) := by
  refine ⟨fun prior _ => ?_, by simp⟩
  have htext : (Expr.predicate a c false).canonical.toList =
      '(' :: (a.canonical.toList ++ [')']) ++ '[' :: (c.canonical.toList ++ [']']) := by
    simp [Expr.canonical, h]
  rw [htext]
  exact rereads_predicate (rereads_enclosed (ha.1 _ rfl)) (by simp) (hc.1 _ rfl) .filtered
    (by rw [nodes_predicate]; omega)

/-- Arguments are read back as phrases with commas between them. -/
theorem scans_arguments {args : List Expr} (hne : args ≠ [])
    (h : ∀ arg ∈ args, Nonterminal.path.Reprints arg) (hp : prior.endsOperand = false) :
    ∃ last, Scans prior ((Expr.canonicalAll args).toList ++ ')' :: rest) last (')' :: rest) fun w =>
      ∃ pairs : List (List Token × Expr), pairs.map (·.2) = args ∧
        (∀ arg ∈ pairs, Phrase .expr arg.1 arg.2) ∧ Separated (pairs.map (·.1)) w ∧
          weight w ≤ 3 * (Expr.partsAll args).length := by
  induction args generalizing prior with
  | nil => contradiction
  | cons arg args ih =>
    have harg := (h arg (.head _)).1 prior hp
    cases args with
    | nil =>
      obtain ⟨last, -, hs⟩ := harg (')' :: rest) (.mark (by decide) rest) (by simp)
      refine ⟨last, hs.imp ?_⟩
      rintro w ⟨hw, hweight⟩
      refine ⟨[(w, arg)], rfl, ?_, .one w, ?_⟩
      · intro pair hpair
        rw [List.mem_singleton.1 hpair]
        exact phrase_expr hw
      · simp only [Expr.partsAll, List.append_nil]
        rw [Expr.nodes] at hweight
        omega
    | cons next args =>
      obtain ⟨la, -, ha⟩ :=
        harg (',' :: ' ' :: ((Expr.canonicalAll (next :: args)).toList ++ ')' :: rest))
          (.mark (by decide) _) (by simp)
      obtain ⟨last, hs⟩ := @ih (.mark .comma) (by simp) (fun arg harg => h arg (.tail _ harg)) rfl
      have hcomma :
          Scans la (',' :: ' ' :: ((Expr.canonicalAll (next :: args)).toList ++ ')' :: rest))
            (.mark .comma) (' ' :: ((Expr.canonicalAll (next :: args)).toList ++ ')' :: rest))
            (Single (.mark .comma)) := scans_mark (by simp)
      have htext : (Expr.canonicalAll (arg :: next :: args)).toList ++ ')' :: rest =
          arg.canonical.toList ++
          ',' :: ' ' :: ((Expr.canonicalAll (next :: args)).toList ++ ')' :: rest) := by
        simp [Expr.canonicalAll]
      refine ⟨last, ?_⟩
      rw [htext]
      refine (ha.trans (hcomma.trans hs.space)).imp ?_
      rintro _ ⟨u, _, rfl, ⟨hu, hweight⟩, _, w, rfl, ⟨t, rfl, ht⟩, pairs, hmap, hpairs, hsep, hw⟩
      obtain ⟨pair, pairs, rfl⟩ : ∃ pair rest, pairs = pair :: rest :=
        List.exists_cons_of_ne_nil (by rintro rfl; cases hmap)
      refine ⟨(u, arg) :: pair :: pairs, by rw [List.map_cons, hmap], ?_, .more u ht hsep, ?_⟩
      · intro other hother
        rcases List.mem_cons.1 hother with rfl | hother
        · exact phrase_expr hu
        · exact hpairs other hother
      · rw [Expr.partsAll, List.length_append]
        rw [Expr.nodes] at hweight
        simp only [weight_append, weight_single ht, Token.weight]
        omega

theorem reprints_call {qualifier : Option String} {label : String} {args : List Expr}
    (hn : IsName qualifier label) (hw : label ≠ "*")
    (hk : qualifier = none → NodeType.ofKeyword? label = none)
    (h : ∀ arg ∈ args, Nonterminal.path.Reprints arg) :
    filter.Reprints (.call qualifier label args) := by
  refine ⟨fun prior hprior rest _ _ => ⟨.mark .rightParen, .inl rfl, ?_⟩, by simp⟩
  have htext : (Expr.call qualifier label args).canonical.toList ++ rest =
      (qualify qualifier label).toList ++
      '(' :: ((Expr.canonicalAll args).toList ++ ')' :: rest) := by simp [Expr.canonical]
  have hname : Scans prior ((qualify qualifier label).toList ++
      '(' :: ((Expr.canonicalAll args).toList ++ ')' :: rest)) .name
      ('(' :: ((Expr.canonicalAll args).toList ++ ')' :: rest)) _ :=
    scans_name hn hprior (by simp [Stops, stops]) rfl
  have hopen : Scans .name ('(' :: ((Expr.canonicalAll args).toList ++ ')' :: rest))
      (.mark .leftParen) ((Expr.canonicalAll args).toList ++ ')' :: rest)
      (Single (.mark .leftParen)) :=
    scans_mark (by simp)
  have hargs : ∃ last,
      Scans (.mark .leftParen) ((Expr.canonicalAll args).toList ++ ')' :: rest) last
      (')' :: rest) fun w => ∃ pairs : List (List Token × Expr), pairs.map (·.2) = args ∧
        (∀ arg ∈ pairs, Phrase .expr arg.1 arg.2) ∧ Separated (pairs.map (·.1)) w ∧
          weight w ≤ 3 * (Expr.partsAll args).length := by
    by_cases hne : args = []
    · subst hne
      exact ⟨_, fun start => ⟨[], start, rfl, by simp, [], rfl, by simp, .none, Nat.le_refl 0⟩⟩
    · exact scans_arguments hne h rfl
  obtain ⟨last, hargs⟩ := hargs
  have hclose : Scans last (')' :: rest) (.mark .rightParen) rest (Single (.mark .rightParen)) :=
    scans_mark (by simp)
  rw [htext]
  refine (hname.trans (hopen.trans (hargs.trans hclose))).imp ?_
  rintro _ ⟨_, _, rfl, ⟨n, callable, rfl, hn⟩, _, _, rfl, ⟨s, rfl, hs⟩, w, _, rfl,
    ⟨pairs, rfl, hpairs, hsep, hweight⟩, t, rfl, ht⟩
  refine ⟨.ofPrimary (.call hn hw ?_ hs hpairs hsep ht), ?_⟩
  · rw [Token.nodeType?, hn]
    cases qualifier with
    | none => exact hk rfl
    | some => rfl
  · simp only [weight_append, weight_single hn, weight_single hs, weight_single ht, Token.weight,
      Expr.nodes, Expr.parts, List.length_cons]
    omega

/-- The canonical text of every printable tree is read back. -/
theorem Printable.reprints (h : Printable X e) : X.Reprints e := by
  induction h with
  | name h => exact reprints_name h
  | star => exact reprints_star
  | type h => exact reprints_type h
  | instruction h => exact reprints_instruction h
  | predicate ha _ iha ihc => exact reprints_predicate iha ihc ha.needsParens_tested
  | ofTested ha _ ih => exact reprints_ofTested ha ih
  | ofStep _ ih =>
    exact ⟨fun prior hp => (ih.1 prior hp).imp (by simp) (fun _ => .ofStep) (Nat.le_refl _),
      fun _ => ih.2 (.inl rfl)⟩
  | stepPath ha _ iha ihb => exact reprints_stepPath ha iha ihb
  | string h => exact reprints_string h
  | number h => exact reprints_number h
  | reference h => exact reprints_reference h
  | call h hw hk _ ih => exact reprints_call h hw hk ih
  | negate _ ih => exact reprints_negate ih
  | binary _ _ h iha ihb => exact reprints_binary iha ihb h
  | filtered ha _ iha ihc => exact reprints_filtered ha iha ihc
  | enclosed h _ _ iha ihc => exact reprints_enclosed h iha ihc
  | root => exact reprints_root
  | rootPath _ ih => exact reprints_rootPath ih
  | ofRelative _ ih =>
    exact ⟨fun prior hp => (ih.1 prior hp).imp (by simp) (fun _ h => .ofLocation (.ofRelative h))
      (Nat.le_refl _), by simp⟩
  | ofFilter _ ih =>
    exact ⟨fun prior hp =>
      (ih.1 prior hp).imp (by simp) (fun _ => .ofFilter) (Nat.le_refl _), by simp⟩
  | filterPath ha _ iha ihb => exact reprints_filterPath ha iha ihb
  | pathPath _ _ iha ihc => exact reprints_pathPath iha ihc

end

namespace Expr

variable {text : String} {e : Expr}

theorem scan_canonical (h : Printable .path e) : (∀ t ∈ Token.scan e.canonical, t.issue? = none) ∧
    Phrase .expr (Token.scan e.canonical) e ∧
    2 + weight (Token.scan e.canonical) ≤ 3 * e.nodes := by
  obtain ⟨last, -, hs⟩ := h.reprints.1 .unknown rfl [] .none (by simp)
  rw [List.append_nil] at hs
  obtain ⟨hc, hp, hweight⟩ := hs.scan
  exact ⟨hc, phrase_expr hp, hweight⟩

/-- The tree of a text is printable once it is aligned, if its nodes can be recovered. -/
theorem printable_aligned (h : (parse text).isClean = true) (he : (parse text).result = some e)
    (hr : ∀ m ∈ e.parts, m.Recoverable) : Printable .path e.aligned := by
  obtain ⟨hc, e', he', hp⟩ := phrase_of_parse (by simpa [Parsed.isClean] using h)
  rw [he, Option.some.injEq] at he'
  subst he'
  have hprint := hp.printable (fun t ht => ⟨hc t ht, Token.spelled_scanFrom ht⟩) hr
  rwa [Nonterminal.expr, Nonterminal.printed_above] at hprint

/-- The tree of a text is printable if its nodes are legible. -/
theorem printable_of_parse (h : (parse text).isClean = true) (he : (parse text).result = some e)
    (hl : ∀ m ∈ e.parts, m.Legible) : Printable .path e := by
  have hprint := printable_aligned h he fun m hm => (hl m hm).recoverable
  rwa [aligned_eq e hl] at hprint

/-- The canonical text of a tree that was read is read back as the same tree unless it nests too
deep for the parser. Up to forty nodes never do. -/
theorem parse_canonical (text : String) (e : Expr) (h : (parse text).isClean = true)
    (he : (parse text).result = some e) (hl : ∀ m ∈ e.parts, m.Legible) :
    (((parse e.canonical).isClean = true ∧ (parse e.canonical).result = some e) ∨
      ∃ offset limit, Diagnostic.tooDeep offset limit ∈ (parse e.canonical).issues) ∧
    (e.nodes ≤ 40 →
      ∀ offset limit, Diagnostic.tooDeep offset limit ∉ (parse e.canonical).issues) := by
  obtain ⟨hc, hp, hweight⟩ := scan_canonical (printable_of_parse h he hl)
  constructor
  · by_cases hd : ∃ offset limit, Diagnostic.tooDeep offset limit ∈ (parse e.canonical).issues
    · exact .inr hd
    · left
      push Not at hd
      rw [parse_of_phrase hc hp hd]
      exact ⟨rfl, rfl⟩
  · intro hn offset limit
    have hroom : 2 + weight (Token.scan e.canonical) ≤ maxDepth := by
      have : maxDepth = 128 := rfl
      omega
    rw [parse_of_weight hc hp hroom]
    simp

/-- The tree of `/ | a[1]`. -/
def rootOrFirst : Expr :=
  .operator (.binary .union) (.axis .root .any none none)
    (.predicate (.axis .child .element none (some "a")) (.number "1") false)

theorem rootOrFirst_canonical :
    (parse "/ | a[1]").isClean = true ∧ (parse "/ | a[1]").result = some rootOrFirst ∧
      (∀ m ∈ rootOrFirst.parts, m.Legible) ∧
        (((parse rootOrFirst.canonical).isClean = true ∧
            (parse rootOrFirst.canonical).result = some rootOrFirst) ∨
          ∃ offset limit, Diagnostic.tooDeep offset limit ∈ (parse rootOrFirst.canonical).issues) ∧
        (rootOrFirst.nodes ≤ 40 →
          ∀ offset limit,
            Diagnostic.tooDeep offset limit ∉ (parse rootOrFirst.canonical).issues) := by
  have h : (parse "/ | a[1]").isClean = true := by decide +kernel
  have he : (parse "/ | a[1]").result = some rootOrFirst := by decide +kernel
  have hl : ∀ m ∈ rootOrFirst.parts, m.Legible := by simp [rootOrFirst, parts, Legible]
  exact ⟨h, he, hl, parse_canonical _ _ h he hl⟩

end Expr

end YangConstraint
