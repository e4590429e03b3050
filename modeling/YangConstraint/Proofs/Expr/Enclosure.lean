import YangConstraint.Proofs.Expr.Extent
import YangConstraint.Proofs.Expr.Rescan

/-!
Expressions in parentheses. A closing parenthesis ends every token but an open literal, and behind
an opening one a text is read as at its beginning, so the tokens between the two are those of the
text alone.
-/
namespace YangConstraint

section

variable {α : Type} {p : α → Bool} {c : α} {cs rest : List α}

theorem dropWhile_append_cons (h : p c = false) :
    (cs ++ c :: rest).dropWhile p = cs.dropWhile p ++ c :: rest := by
  induction cs with
  | nil => simp [h]
  | cons d cs ih => cases hd : p d <;> simp [hd, ih]

end

namespace Lexeme

variable {prior prior' : TokenKind} {c : Char} {cs rest : List Char}

theorem opensCall_closed : opensCall (cs ++ ')' :: rest) = opensCall cs := by
  rw [opensCall, skipSpaces, dropWhile_append_cons (by decide), opensCall, skipSpaces]
  cases cs.dropWhile (· = ' ') <;> simp

theorem opensAxis_closed : opensAxis (cs ++ ')' :: rest) = opensAxis cs := by
  rw [opensAxis, skipSpaces, dropWhile_append_cons (by decide), opensAxis, skipSpaces]
  rcases cs.dropWhile (· = ' ') with _ | ⟨a, _ | ⟨b, ds⟩⟩ <;> simp [List.isPrefixOf]

/-- A closing parenthesis behind a text does not change what is read at its beginning, unless that
is a literal that is not closed. -/
theorem read_closed (hp : prior.endsOperand = prior'.endsOperand)
    (h : ∀ value, (read prior c cs).1 ≠ .string value false) :
    read prior' c (cs ++ ')' :: rest) = read prior c cs := by
  obtain ⟨w, tail, rfl, hw⟩ : ∃ w tail, cs = w ++ tail ∧ w.length = (read prior c cs).2 :=
    ⟨_, _, (List.take_append_drop _ cs).symm, List.length_take_of_le read_le⟩
  rw [List.append_assoc]
  exact read_gapped hp.symm (gapped_closed tail rest) opensCall_closed opensAxis_closed hw.symm
    fun value hv => (h value hv).elim

end Lexeme

namespace Token

/-- The token at another place. -/
def shift (distance : Nat) (t : Token) : Token := { t with start := t.start + distance }

theorem issue?_shift {t : Token} {distance : Nat} :
    (t.shift distance).issue? = none ↔ t.issue? = none := by
  obtain ⟨symbol, start, text⟩ := t
  cases symbol with
  | string value closed => cases closed <;> simp [shift, issue?]
  | _ => simp [shift, issue?]

open Lexeme

variable {prior prior' : TokenKind} {start : Nat} {cs rest : List Char} {text : String}

theorem issue?_open {value text : String} :
    (⟨.string value false, start, text⟩ : Token).issue? ≠ none := nofun

/-- The tokens of a text without issues are those of it between parentheses, moved along. -/
theorem scanFrom_closed (rest : List Char) (h : ∀ t ∈ scanFrom prior start cs, t.issue? = none) :
    ∀ prior', prior.endsOperand = prior'.endsOperand → ∃ last, ∀ distance, ∃ finish,
      scanFrom prior' (start + distance) (cs ++ ')' :: rest) =
        (scanFrom prior start cs).map (shift distance) ++ scanFrom last finish (')' :: rest) := by
  fun_induction scanFrom prior start cs with
  | case1 prior start => exact fun prior' _ => ⟨prior', fun distance => ⟨start + distance, rfl⟩⟩
  | case2 prior start cs ih =>
    intro prior' hp
    obtain ⟨last, hlast⟩ := ih h prior' hp
    refine ⟨last, fun distance => ?_⟩
    obtain ⟨finish, hscan⟩ := hlast distance
    refine ⟨finish, ?_⟩
    rw [List.cons_append, scanFrom_space, ← hscan, Nat.add_right_comm]
  | case3 prior start c cs hc lexeme spelled ih =>
    intro prior' hp
    rw [List.forall_mem_cons] at h
    -- An open literal would run past the parenthesis, but it is an issue.
    have hread : read prior' c (cs ++ ')' :: rest) = lexeme := by
      refine read_closed hp fun value hs => ?_
      have hissue : (⟨lexeme.1, start, String.ofList spelled⟩ : Token).issue? = none := h.1
      rw [show lexeme.1 = _ from hs] at hissue
      exact issue?_open hissue
    obtain ⟨last, hlast⟩ := ih h.2 lexeme.1.kind rfl
    refine ⟨last, fun distance => ?_⟩
    obtain ⟨finish, hscan⟩ := hlast distance
    refine ⟨finish, ?_⟩
    rw [List.cons_append, scanFrom_lexeme hc, hread, List.take_append_of_le_length read_le,
      List.drop_append_of_le_length read_le, List.map_cons, List.cons_append, ← hscan,
      Nat.add_right_comm]
    rfl

end Token

open Token

variable {X : Nonterminal} {ws : List (List Token)} {w : List Token} {e path : Expr} {t : Token}

theorem Token.Leads.shift (h : t.Leads e path) (distance : Nat) :
    (t.shift distance).Leads e path := by
  cases h with
  | slash h => exact .slash h
  | slashSlash h => exact .slashSlash h

theorem Separated.shift (h : Separated ws w) (distance : Nat) :
    Separated (ws.map (·.map (Token.shift distance))) (w.map (Token.shift distance)) := by
  induction h with
  | none => exact .none
  | one w => exact .one _
  | more u ht _ ih =>
    rw [List.map_append, List.map_cons]
    exact .more _ ht ih

/-- A phrase is one wherever it stands. -/
theorem Phrase.shift (h : Phrase X w e) (distance : Nat) :
    Phrase X (w.map (Token.shift distance)) e := by
  induction h with
  | tighter _ ih => exact .tighter ih
  | binary hop _ ht _ iha ihb =>
    rw [List.map_append, List.map_cons]
    exact .binary hop iha ht ihb
  | ofUnion _ ih => exact .ofUnion ih
  | negate ht _ ih => exact .negate ht ih
  | ofPath _ ih => exact .ofPath ih
  | union _ ht _ iha ihb =>
    rw [List.map_append, List.map_cons]
    exact .union iha ht ihb
  | ofLocation _ ih => exact .ofLocation ih
  | ofFilter _ ih => exact .ofFilter ih
  | filterPath _ ht _ iha ihb =>
    rw [List.map_append, List.map_cons]
    exact .filterPath iha (ht.shift distance) ihb
  | ofPrimary _ ih => exact .ofPrimary ih
  | filtered _ hs _ ht iha ihc =>
    rw [List.map_append, List.map_cons, List.map_append]
    exact .filtered iha hs ihc ht
  | string ht => exact .string ht
  | number ht => exact .number ht
  | reference hs ht => exact .reference hs ht
  | parens hs _ ht ih =>
    rw [List.map_cons, List.map_append]
    exact .parens hs ih ht
  | @call n s t qualifier label callable args w hn hw hk hs _ h ht ih =>
    rw [List.map_cons, List.map_cons, List.map_append]
    have hseparated := h.shift distance
    let moved := args.map fun arg => (arg.1.map (Token.shift distance), arg.2)
    have hwords : (args.map (·.1)).map (·.map (Token.shift distance)) = moved.map (·.1) := by
      simp [moved]
    have htrees : args.map (·.2) = moved.map (·.2) := by simp [moved]
    rw [hwords] at hseparated
    rw [htrees]
    refine .call hn hw hk hs ?_ hseparated ht
    intro arg harg
    obtain ⟨other, ho, rfl⟩ := List.mem_map.1 harg
    exact ih other ho
  | root ht => exact .root ht
  | rootPath ht _ ih => exact .rootPath (ht.shift distance) ih
  | ofRelative _ ih => exact .ofRelative ih
  | ofStep _ ih => exact .ofStep ih
  | stepPath _ ht _ iha ihb =>
    rw [List.map_append, List.map_cons]
    exact .stepPath iha (ht.shift distance) ihb
  | dot ht => exact .dot ht
  | dotDot ht => exact .dotDot ht
  | child _ ih => exact .child ih
  | «attribute» ht _ ih => exact .attribute ht ih
  | axis hs ht _ ih => exact .axis hs ht ih
  | ofTest _ ih => exact .ofTest ih
  | predicate _ hs _ ht iha ihc =>
    rw [List.map_append, List.map_cons, List.map_append]
    exact .predicate iha hs ihc ht
  | name ht => exact .name ht
  | star ht => exact .star ht
  | type hn hs ht => exact .type hn hs ht
  | instruction hn hs hl ht => exact .instruction hn hs hl ht

section

open Lexeme

variable {prior : TokenKind} {rest : List Char} {text name : String}

/-- Before a closing parenthesis, an expression is scanned as a phrase of the same tree. -/
theorem scans_closed (hp : prior.endsOperand = false) (h : ∀ t ∈ Token.scan text, t.issue? = none)
    (he : Phrase X (Token.scan text) e) :
    ∃ last, Scans prior (text.toList ++ ')' :: rest) last (')' :: rest) fun w => Phrase X w e := by
  obtain ⟨last, hlast⟩ := Token.scanFrom_closed rest h prior hp.symm
  refine ⟨last, fun start => ?_⟩
  obtain ⟨finish, hscan⟩ := hlast start
  rw [Nat.zero_add] at hscan
  refine ⟨_, finish, hscan, ?_, he.shift start⟩
  intro t ht
  obtain ⟨u, hu, rfl⟩ := List.mem_map.1 ht
  exact issue?_shift.2 (h u hu)

/-- The call of a name with an expression as its only argument. -/
theorem scans_call (hn : IsWord name) (hk : NodeType.ofKeyword? name = none)
    (h : ∀ t ∈ Token.scan text, t.issue? = none) (he : Phrase .expr (Token.scan text) e) :
    (∀ t ∈ Token.scan (name ++ "(" ++ text ++ ")"), t.issue? = none) ∧
      Phrase .expr (Token.scan (name ++ "(" ++ text ++ ")")) (.call none name [e]) := by
  have htext : (name ++ "(" ++ text ++ ")").toList =
      (qualify none name).toList ++ '(' :: (text.toList ++ ')' :: []) := by
    simp [qualify]
  obtain ⟨last, harg⟩ : ∃ last, Scans (.mark .leftParen) (text.toList ++ ')' :: []) last (')' :: [])
      fun w => Phrase .expr w e := scans_closed rfl h he
  have hname :
      Scans .unknown ((qualify none name).toList ++ '(' :: (text.toList ++ ')' :: [])) .name _ _ :=
    scans_name hn rfl (by simp [Stops, stops]) rfl
  have hopen : Scans .name ('(' :: (text.toList ++ ')' :: [])) (.mark .leftParen) _
      (Single (.mark .leftParen)) :=
    scans_mark (by simp)
  have hclose : Scans last (')' :: []) (.mark .rightParen) [] (Single (.mark .rightParen)) :=
    scans_mark (by simp)
  have hscans := hname.trans (hopen.trans (harg.trans hclose))
  rw [← htext] at hscans
  obtain ⟨hclean, _, _, hscan, ⟨n, callable, rfl, hsymbol⟩, _, _, rfl, ⟨s, rfl, hs⟩,
    w, _, rfl, hw, t, rfl, ht⟩ := hscans.scan
  have hstar : name ≠ "*" := by
    rintro rfl
    exact hn.head_ne (c := '*') (by decide) [] rfl
  have hkeyword : n.nodeType? = none := by
    rw [Token.nodeType?, hsymbol]
    exact hk
  have hcall : Phrase .primary ([n] ++ ([s] ++ (w ++ [t]))) (.call none name [e]) := by
    have hargs : ∀ arg ∈ [(w, e)], Phrase .expr arg.1 arg.2 := List.forall_mem_singleton.2 hw
    exact .call hsymbol hstar hkeyword hs hargs (.one w) ht
  refine ⟨hclean, ?_⟩
  rw [hscan]
  exact .above_of_unary (.ofUnion (.ofPath (.ofFilter (.ofPrimary hcall))))

end

end YangConstraint
