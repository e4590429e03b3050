import Mathlib.Tactic.Common
import YangConstraint.Xml.Element

/-!
The elements that count in a schema document: those that declare something and lie in `NODE`
elements only. They have addresses, which are ordered as the elements are in the document.
-/
namespace YangConstraint

namespace Xml.Element

/-- The element at an address: the places, each among siblings, of the elements on the way to it. -/
def at? : Element → List Nat → Option Element
  | e, [] => some e
  | e, i :: rest => (e.children[i]?).bind fun child => at? child rest

/-- Whether the element is of a kind that declares something. -/
def Declares (e : Element) : Prop := e.name = "NODE" ∨ e.name = "VALUE"

/-- A `NODE` or `VALUE` element all of whose ancestors below the top are `NODE` elements. -/
structure Effective (top : Element) (address : List Nat) (e : Element) : Prop where
  below : address ≠ []
  found : top.at? address = some e
  declares : e.Declares
  around {outer : List Nat} {ancestor : Element} (hn : outer ≠ []) (hp : outer <+: address)
    (hne : outer ≠ address) (ha : top.at? outer = some ancestor) : ancestor.name = "NODE"

mutual

/-- What counts of an element at `address` and of what lies in it, in document order. -/
def listing (address : List Nat) : Element → List (List Nat × Element)
  | ⟨start, tag, attributes, children⟩ =>
    if tag = "NODE" then
      (address, ⟨start, tag, attributes, children⟩) :: listingAll address 0 children
    else if tag = "VALUE" then [(address, ⟨start, tag, attributes, children⟩)]
    else []

/-- What counts of siblings, of which the first is the `k`-th in the element at `outer`. -/
def listingAll (outer : List Nat) (k : Nat) : List Element → List (List Nat × Element)
  | [] => []
  | e :: es => listing (outer ++ [k]) e ++ listingAll outer (k + 1) es

end

/-- What counts of an element, which may be the element itself. -/
def Counts (e : Element) (rest : List Nat) (x : Element) : Prop :=
  rest = [] ∧ x = e ∧ x.Declares ∨ e.name = "NODE" ∧ e.Effective rest x

variable {e x : Element} {es : List Element} {address outer rest : List Nat} {i k : Nat}

theorem at?_append (e : Element) (address rest : List Nat) :
    e.at? (address ++ rest) = (e.at? address).bind fun inner => inner.at? rest := by
  induction address generalizing e with
  | nil => rfl
  | cons i address ih =>
    rw [List.cons_append, at?, at?, Option.bind_assoc]
    exact congrArg _ (funext fun child => ih child)

theorem at?_cons {child : Element} (h : e.children[i]? = some child) :
    e.at? (i :: rest) = child.at? rest := by
  rw [at?, h, Option.bind_some]

/-- The first step leads to a child, which counts itself or has in it what counts. -/
theorem effective_cons_iff :
    e.Effective (i :: rest) x ↔ ∃ child, e.children[i]? = some child ∧ child.Counts rest x := by
  constructor
  · intro h
    obtain ⟨child, hchild, hfound⟩ := Option.bind_eq_some_iff.1 h.found
    refine ⟨child, hchild, ?_⟩
    cases rest with
    | nil => exact .inl ⟨rfl, (Option.some.inj hfound).symm, h.declares⟩
    | cons j rest =>
      refine .inr ⟨?_, List.cons_ne_nil j rest, hfound, h.declares,
        fun {outer ancestor} hn hp hne ha => ?_⟩
      · exact h.around (List.cons_ne_nil i []) (by simp) (by simp) (at?_cons hchild)
      · rw [← at?_cons hchild] at ha
        exact h.around (List.cons_ne_nil i outer) (by simpa using hp) (by simpa using hne) ha
  · rintro ⟨child, hchild, ⟨rfl, rfl, hd⟩ | ⟨hnode, h⟩⟩
    · refine ⟨List.cons_ne_nil i [], at?_cons hchild, hd, fun {outer ancestor} hn hp hne _ => ?_⟩
      cases outer with
      | nil => exact absurd rfl hn
      | cons j outer => simp_all
    · refine ⟨List.cons_ne_nil i rest, (at?_cons hchild).trans h.found, h.declares, ?_⟩
      intro outer ancestor hn hp hne ha
      cases outer with
      | nil => exact absurd rfl hn
      | cons j outer =>
        obtain ⟨rfl, hinner⟩ := List.cons_prefix_cons.1 hp
        rw [at?_cons hchild] at ha
        by_cases hroot : outer = []
        · subst hroot
          rwa [← Option.some.inj ha]
        · exact h.around hroot hinner (fun he => hne (congrArg _ he)) ha

/-- What a counting element has directly in it counts, too. -/
theorem Effective.concat {top : Element} (he : top.at? address = some e)
    (ha : address ≠ [] → top.Effective address e ∧ e.name = "NODE") (hx : e.children[k]? = some x)
    (hd : x.Declares) : top.Effective (address ++ [k]) x where
  below := by simp
  found := by
    rw [at?_append, he, Option.bind_some, at?_cons hx]
    rfl
  declares := hd
  around {outer ancestor} hn hp hne hanc := by
    have hinner : outer <+: address := (List.prefix_concat_iff.1 hp).resolve_left hne
    by_cases hlast : outer = address
    · subst hlast
      obtain rfl : e = ancestor := Option.some.inj (he.symm.trans hanc)
      exact (ha hn).2
    · have hne : address ≠ [] := fun hnil => hn (List.prefix_nil.1 (hnil ▸ hinner))
      exact (ha hne).1.around hn hinner hlast hanc

theorem not_effective_nil : ¬ e.Effective [] x := fun h => h.below rfl

mutual

theorem mem_listing_iff (address : List Nat) (e : Element) (b : List Nat) (x : Element) :
    (b, x) ∈ e.listing address ↔ ∃ rest, b = address ++ rest ∧ e.Counts rest x := by
  cases e with
  | mk start tag attributes children =>
    rw [listing]
    split
    · rename_i hnode
      rw [List.mem_cons, mem_listingAll_iff, Prod.mk.injEq]
      constructor
      · rintro (⟨rfl, rfl⟩ | ⟨i, rest, child, hchild, rfl, h⟩)
        · exact ⟨[], (List.append_nil b).symm, .inl ⟨rfl, rfl, .inl hnode⟩⟩
        · rw [Nat.zero_add]
          exact ⟨i :: rest, rfl, .inr ⟨hnode, effective_cons_iff.2 ⟨child, hchild, h⟩⟩⟩
      · rintro ⟨rest, rfl, ⟨rfl, rfl, -⟩ | ⟨-, h⟩⟩
        · exact .inl ⟨List.append_nil address, rfl⟩
        · cases rest with
          | nil => exact absurd rfl h.below
          | cons i rest =>
            obtain ⟨child, hchild, h⟩ := effective_cons_iff.1 h
            exact .inr ⟨i, rest, child, hchild, by rw [Nat.zero_add], h⟩
    · rename_i hnode
      split
      · rename_i hvalue
        rw [List.mem_singleton, Prod.mk.injEq]
        constructor
        · rintro ⟨rfl, rfl⟩
          exact ⟨[], (List.append_nil b).symm, .inl ⟨rfl, rfl, .inr hvalue⟩⟩
        · rintro ⟨rest, rfl, ⟨rfl, rfl, -⟩ | ⟨h, -⟩⟩
          · exact ⟨List.append_nil address, rfl⟩
          · exact absurd h hnode
      · rename_i hvalue
        constructor
        · nofun
        · rintro ⟨rest, rfl, ⟨-, rfl, h | h⟩ | ⟨h, -⟩⟩
          · exact absurd h hnode
          · exact absurd h hvalue
          · exact absurd h hnode

theorem mem_listingAll_iff (outer : List Nat) (k : Nat) (es : List Element) (b : List Nat)
    (x : Element) :
    (b, x) ∈ listingAll outer k es ↔
      ∃ i rest child, es[i]? = some child ∧ b = outer ++ (k + i) :: rest ∧ child.Counts rest x := by
  cases es with
  | nil => simp [listingAll]
  | cons e es =>
    rw [listingAll, List.mem_append, mem_listing_iff, mem_listingAll_iff]
    constructor
    · rintro (⟨rest, rfl, h⟩ | ⟨i, rest, child, hchild, rfl, h⟩)
      · exact ⟨0, rest, e, rfl, by simp, h⟩
      · exact ⟨i + 1, rest, child, hchild, by rw [Nat.add_right_comm, Nat.add_assoc], h⟩
    · rintro ⟨i, rest, child, hchild, rfl, h⟩
      cases i with
      | zero =>
        obtain rfl : e = child := Option.some.inj hchild
        exact .inl ⟨rest, by simp, h⟩
      | succ i => exact .inr ⟨i, rest, child, hchild, by rw [Nat.add_right_comm, Nat.add_assoc], h⟩

end

/-- The listing of a document holds what counts in it. -/
theorem mem_listing_top_iff {top : Element} :
    (address, x) ∈ listingAll [] 0 top.children ↔ top.Effective address x := by
  rw [mem_listingAll_iff]
  cases address with
  | nil => simp [not_effective_nil]
  | cons i rest => simp [effective_cons_iff]

/-- One address stands before the other in the document. -/
abbrev Earlier (a b : List Nat × Element) : Prop := a.1 < b.1

mutual

theorem listing_inOrder (address : List Nat) (e : Element) :
    (e.listing address).Pairwise Earlier := by
  cases e with
  | mk start tag attributes children =>
    rw [listing]
    split
    · refine List.pairwise_cons.2 ⟨?_, listingAll_inOrder address 0 children⟩
      rintro ⟨b, x⟩ hb
      obtain ⟨i, rest, -, -, rfl, -⟩ := (mem_listingAll_iff ..).1 hb
      have hlt : address ++ [] < address ++ (0 + i) :: rest :=
        List.append_left_lt (List.nil_lt_cons (0 + i) rest)
      rwa [List.append_nil] at hlt
    · split
      · exact List.pairwise_singleton _ _
      · exact .nil

theorem listingAll_inOrder (outer : List Nat) (k : Nat) (es : List Element) :
    (listingAll outer k es).Pairwise Earlier := by
  cases es with
  | nil => exact .nil
  | cons e es =>
    rw [listingAll]
    refine List.pairwise_append.2 ⟨listing_inOrder _ e, listingAll_inOrder outer (k + 1) es, ?_⟩
    rintro ⟨a, x⟩ ha ⟨b, y⟩ hb
    obtain ⟨rest, rfl, -⟩ := (mem_listing_iff ..).1 ha
    obtain ⟨i, behind, -, -, rfl, -⟩ := (mem_listingAll_iff ..).1 hb
    show outer ++ [k] ++ rest < outer ++ (k + 1 + i) :: behind
    rw [List.append_assoc]
    exact List.append_left_lt (List.cons_lt_cons_iff.2 (.inl (by omega)))

end

end Xml.Element

end YangConstraint
