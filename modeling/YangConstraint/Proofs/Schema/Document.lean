import Mathlib.Data.List.Lex
import Mathlib.Data.List.Sort
import YangConstraint.Proofs.Schema.Entered

/-!
The schema that a document declares. The loader goes through the elements that count in document
order: it stops at the first that is incomplete, or ends with a schema whose nodes stand in that
order and lie in each other as the elements do.
-/
namespace YangConstraint

namespace Schema

open Xml (Element)

variable {schema : Schema} {done more : List (List Nat × Element)} {e : Element}
  {address : List Nat}

/-- The outcome of loading `more` behind `done`: the first fault of the former, or
a schema of both. -/
def Loads (done more : List (List Nat × Element)) (result : Except SchemaError Schema) : Prop :=
  match more.findSome? (fault? ·.2) with
  | some problem => result = .error problem
  | none => ∃ schema, result = .ok schema ∧ Loaded (done ++ more) schema

theorem Loads.nil (h : Loaded done schema) : Loads done [] (.ok schema) := by
  refine ⟨schema, rfl, ?_⟩
  rwa [List.append_nil]

theorem Loads.fault {problem : SchemaError} {x : List Nat × Element}
    (h : fault? x.2 = some problem) :
    Loads done (x :: more) (.error problem) := by
  rw [Loads, List.findSome?_cons, h]

/-- An element without a fault is entered before what follows it. -/
theorem Loads.cons {result : Except SchemaError Schema} {x : List Nat × Element}
    (hx : fault? x.2 = none) (h : Loads (done ++ [x]) more result) :
    Loads done (x :: more) result := by
  rw [Loads, List.append_assoc] at h
  rw [Loads, List.findSome?_cons, hx]
  exact h

/-- Loading goes on behind what has been loaded, and ends at its fault. -/
theorem Loads.bind {behind : List (List Nat × Element)} {result : Except SchemaError Schema}
    {next : Schema → Except SchemaError Schema} (h : Loads done more result)
    (hn : ∀ schema, Loaded (done ++ more) schema → Loads (done ++ more) behind (next schema)) :
    Loads done (more ++ behind) (result.bind next) := by
  rw [Loads] at h ⊢
  rw [List.findSome?_append]
  cases hfault : more.findSome? (fault? ·.2) with
  | some problem =>
    rw [hfault] at h
    exact congrArg (Except.bind · next) h
  | none =>
    rw [hfault] at h
    obtain ⟨schema, rfl, hloaded⟩ := h
    have hrest := hn schema hloaded
    rwa [Loads, List.append_assoc] at hrest

theorem loadAll_cons (parent : Nat) (es : List Element) (schema : Schema) :
    loadAll parent (e :: es) schema = (load parent e schema).bind (loadAll parent es) := by
  rw [loadAll]
  cases load parent e schema <;> rfl

mutual

/-- An element is loaded below the node of the element it lies in. -/
theorem loads_load {done : List (List Nat × Element)} {schema : Schema} {parent k : Nat}
    {outer : List Nat} (e : Element) (h : Loaded done schema)
    (hp : (places done)[parent]? = some outer) (ho : InOrder (done ++ e.listing (outer ++ [k]))) :
    Loads done (e.listing (outer ++ [k])) (load parent e schema) := by
  cases e with
  | mk start tag attributes children =>
    rw [Element.listing] at ho ⊢
    rw [load]
    by_cases hnode : tag = "NODE"
    · simp only [if_pos hnode] at ho ⊢
      cases hname : written? "name" attributes with
      | none => exact .fault (by simp [fault?, hnode, hname])
      | some name =>
        rw [List.append_cons] at ho
        have hadded := h.enterNode hp hnode hname ho.prefix_append
        refine .cons (by simp [fault?, hnode, hname]) (loads_loadAll children hadded ?_ ho)
        exact (h.place_iff hnode).2 (.inr ⟨rfl, rfl⟩)
    · simp only [if_neg hnode] at ho ⊢
      by_cases hvalue : tag = "VALUE"
      · simp only [if_pos hvalue] at ho ⊢
        cases hname : written? "name" attributes with
        | none => exact .fault (by simp [fault?, hvalue, hname])
        | some name =>
          cases hvalue' : written? "value" attributes with
          | none => exact .fault (by simp [fault?, hvalue, hname, hvalue'])
          | some value =>
            refine .cons (by simp [fault?, hvalue, hname, hvalue']) (.nil ?_)
            exact h.enterValue hp hvalue hname hvalue' ho.prefix_append
      · simp only [if_neg hvalue] at ho ⊢
        exact .nil h

theorem loads_loadAll {done : List (List Nat × Element)} {schema : Schema} {parent k : Nat}
    {outer : List Nat} (es : List Element) (h : Loaded done schema)
    (hp : (places done)[parent]? = some outer)
    (ho : InOrder (done ++ Element.listingAll outer k es)) :
    Loads done (Element.listingAll outer k es) (loadAll parent es schema) := by
  cases es with
  | nil => exact .nil h
  | cons e es =>
    rw [Element.listingAll, ← List.append_assoc] at ho
    rw [Element.listingAll, loadAll_cons]
    refine Loads.bind (loads_load e h hp ho.prefix_append) fun grown hg => loads_loadAll es hg ?_ ho
    rw [places_append, List.getElem?_append_left (List.getElem?_eq_some_iff.1 hp).1]
    exact hp

end

/-- Of elements in document order, the first that has a fault. -/
theorem first_fault {problem : SchemaError} (ho : done.Pairwise Element.Earlier)
    (h : done.findSome? (fault? ·.2) = some problem) :
    ∃ x ∈ done, fault? x.2 = some problem ∧ ∀ y ∈ done, fault? y.2 ≠ none → x.1 ≤ y.1 := by
  obtain ⟨before, x, behind, rfl, hx, hbefore⟩ := List.findSome?_eq_some_iff.1 h
  refine ⟨x, by simp, hx, fun y hy hfault => ?_⟩
  rcases List.mem_append.1 hy with hy | hy
  · exact absurd (hbefore y hy) hfault
  · rcases List.mem_cons.1 hy with rfl | hy
    · exact le_refl _
    · exact le_of_lt ((List.pairwise_cons.1 (List.pairwise_append.1 ho).2.1).1 y hy)

/-- The schema is the one that the document below `top` declares; `nodes` are the addresses of its
nodes behind the root. -/
structure Mirrors (top : Element) (nodes : List (List Nat)) (schema : Schema) : Prop where
  inOrder : nodes.Pairwise (· < ·)
  mem_iff (address : List Nat) : address ∈ nodes ↔ ∃ e, top.Effective address e ∧ e.name = "NODE"
  size : schema.size = nodes.length
  root : (schema.node root).name = "" ∧ (schema.node root).attributes = [] ∧
    (schema.node root).parent = none
  name {i : Nat} {address : List Nat} {e : Element} (hi : nodes[i]? = some address)
    (he : top.at? address = some e) : written? "name" e.attributes = some (schema.name (i + 1))
  /-- Attributes are stored by their names, of which the last counts. -/
  attributes {i : Nat} {address : List Nat} {e : Element} (hi : nodes[i]? = some address)
    (he : top.at? address = some e) : ((schema.node (i + 1)).attributes.map (·.1)).Nodup ∧
      ∀ key value, (key, value) ∈ (schema.node (i + 1)).attributes ↔
        key ≠ "name" ∧ written? key e.attributes.reverse = some value
  parent {i : Nat} {address : List Nat} (hi : nodes[i]? = some address) :
    ∃ outer, (schema.node (i + 1)).parent = some outer ∧
      ([] :: nodes)[outer]? = some address.dropLast
  children {id : Nat} {address : List Nat} (hid : ([] :: nodes)[id]? = some address) :
    (schema.children id).Pairwise (· < ·) ∧
      ∀ child, child ∈ schema.children id ↔ ∃ k, ([] :: nodes)[child]? = some (address ++ [k])
  /-- The entries of a node are those of the elements directly in its own. -/
  values {id : Nat} {address : List Nat} {e : Element} (hid : ([] :: nodes)[id]? = some address)
    (he : top.at? address = some e) :
    (schema.values id).map (fun entry => (some entry.1, some entry.2)) =
      (e.children.filter (·.name = "VALUE")).map fun v =>
        (written? "name" v.attributes, written? "value" v.attributes)

/-- Of all that counts, what lies directly in an element is its children of that
kind, in their order. -/
theorem filter_listing {top : Element} (he : top.at? address = some e)
    (ha : address ≠ [] → top.Effective address e ∧ e.name = "NODE") :
    (Element.listingAll [] 0 top.children).filter (fun x => x.2.name = "VALUE" ∧
      x.1.dropLast = address) =
      (e.children.zipIdx.filter (·.1.name = "VALUE")).map fun v => (address ++ [v.2], v.1) := by
  have : Std.Irrefl Element.Earlier := ⟨fun x => List.lt_irrefl x.1⟩
  have : Std.Antisymm Element.Earlier :=
    ⟨fun x y h h' => absurd (List.lt_trans h h') (List.lt_irrefl x.1)⟩
  have hdirect :
      (e.children.zipIdx.map fun v => (address ++ [v.2], v.1)).Pairwise Element.Earlier := by
    rw [List.pairwise_map, List.pairwise_iff_getElem]
    intro i j hi hj hij
    rw [List.getElem_zipIdx, List.getElem_zipIdx]
    exact List.append_left_lt (List.cons_lt_cons_iff.2 (.inl (Nat.add_lt_add_left hij 0)))
  refine List.Pairwise.eq_of_mem_iff
    ((Element.listingAll_inOrder [] 0 _).sublist List.filter_sublist)
    (hdirect.sublist (List.filter_sublist.map _)) ?_
  rintro ⟨b, v⟩
  simp only [List.mem_filter, Element.mem_listing_top_iff, List.mem_map, decide_eq_true_eq,
    Prod.mk.injEq]
  constructor
  · rintro ⟨heff, hvalue, hlast⟩
    obtain ⟨k, rfl⟩ : ∃ k, b = address ++ [k] :=
      ⟨b.getLast heff.below, hlast ▸ (List.dropLast_append_getLast heff.below).symm⟩
    have hv := heff.found
    rw [Element.at?_append, he, Option.bind_some, Element.at?] at hv
    obtain ⟨child, hchild, hv⟩ := Option.bind_eq_some_iff.1 hv
    obtain rfl : child = v := Option.some.inj hv
    exact ⟨(child, k), ⟨List.mk_mem_zipIdx_iff_getElem?.2 hchild, hvalue⟩, rfl, rfl⟩
  · rintro ⟨⟨child, k⟩, ⟨hchild, hvalue⟩, rfl, rfl⟩
    have hchild := List.mk_mem_zipIdx_iff_getElem?.1 hchild
    exact ⟨.concat he ha hchild (.inr hvalue), hvalue, List.dropLast_concat⟩

theorem map_filter_listing {top : Element} (he : top.at? address = some e)
    (ha : address ≠ [] → top.Effective address e ∧ e.name = "NODE") :
    ((Element.listingAll [] 0 top.children).filter fun x => x.2.name = "VALUE" ∧
      x.1.dropLast = address).map (·.2) = e.children.filter (·.name = "VALUE") := by
  rw [filter_listing he ha, List.map_map]
  conv_rhs => rw [← List.zipIdx_map_fst 0 e.children, List.filter_map]
  rfl

/-- Entries that are complete have the names and the values of their elements. -/
theorem map_filterMap_alias? {vs : List Element}
    (h : ∀ v ∈ vs, v.name = "VALUE" ∧ fault? v = none) :
    (vs.filterMap alias?).map (fun entry => (some entry.1, some entry.2)) =
      vs.map fun v => (written? "name" v.attributes, written? "value" v.attributes) := by
  induction vs with
  | nil => rfl
  | cons v vs ih =>
    obtain ⟨htag, hfault⟩ := h v (.head _)
    obtain ⟨hname, hvalue⟩ := (fault?_eq_none_iff.1 hfault).2 htag
    obtain ⟨name, hname⟩ := Option.isSome_iff_exists.1 hname
    obtain ⟨value, hvalue⟩ := Option.isSome_iff_exists.1 hvalue
    have halias : alias? v = some (name, value) := by rw [alias?, hname, hvalue]; rfl
    rw [List.filterMap_cons_some halias, List.map_cons, List.map_cons,
      ih fun w hw => h w (.tail _ hw), hname, hvalue]

theorem inOrder_listing (top : Element) : InOrder (Element.listingAll [] 0 top.children) := by
  refine List.pairwise_cons.2 ⟨fun address ha => ?_,
    List.pairwise_map.2 (Element.listingAll_inOrder [] 0 _)⟩
  obtain ⟨⟨b, x⟩, hx, rfl⟩ := List.mem_map.1 ha
  cases b with
  | nil => exact absurd (Element.mem_listing_top_iff.1 hx) Element.not_effective_nil
  | cons i rest => exact List.nil_lt_cons i rest

theorem mem_nodes_iff {top : Element} :
    address ∈ ((Element.listingAll [] 0 top.children).filter (·.2.name = "NODE")).map (·.1) ↔
      ∃ e, top.Effective address e ∧ e.name = "NODE" := by
  simp only [List.mem_map, List.mem_filter, Prod.exists, Element.mem_listing_top_iff,
    decide_eq_true_eq]
  constructor
  · rintro ⟨b, e, h, rfl⟩
    exact ⟨e, h⟩
  · rintro ⟨e, h⟩
    exact ⟨address, e, h, rfl⟩

theorem Loaded.mirrors {top : Element} (h : Loaded (Element.listingAll [] 0 top.children) schema)
    (hfault : ∀ address e, top.Effective address e → fault? e = none) :
    Mirrors top (((Element.listingAll [] 0 top.children).filter (·.2.name = "NODE")).map (·.1))
      schema := by
  -- The element of a node is the one at its address.
  have helement {i : Nat} {address : List Nat} {e : Element}
      (hi : (((Element.listingAll [] 0 top.children).filter (·.2.name = "NODE")).map (·.1))[i]? =
        some address)
      (he : top.at? address = some e) :
      ((Element.listingAll [] 0 top.children).filter (·.2.name = "NODE"))[i]? =
        some (address, e) := by
    rw [List.getElem?_map, Option.map_eq_some_iff] at hi
    obtain ⟨⟨b, x⟩, hx, rfl⟩ := hi
    have heff := Element.mem_listing_top_iff.1 (List.mem_of_mem_filter (List.mem_of_getElem? hx))
    obtain rfl : x = e := Option.some.inj (heff.found.symm.trans he)
    exact hx
  constructor
  case inOrder => exact (List.pairwise_cons.1 (inOrder_listing top).places).2
  case mem_iff => exact fun address => mem_nodes_iff
  case size =>
    rw [Schema.size, h.size]
    rfl
  case root => exact h.root
  case name => exact fun hi he => (h.element (helement hi he)).1
  case attributes =>
    intro i address e hi he
    rw [(h.element (helement hi he)).2.1]
    exact ⟨nodup_foldl_put, fun key value => mem_stores_iff⟩
  case parent =>
    intro i address hi
    obtain ⟨e, heff, -⟩ := mem_nodes_iff.1 (List.mem_of_getElem? hi)
    exact (h.element (helement hi heff.found)).2.2
  case children => exact h.children
  case values =>
    intro id address e hid he
    have heff (hne : address ≠ []) : top.Effective address e ∧ e.name = "NODE" := by
      rcases List.mem_cons.1 (List.mem_of_getElem? hid) with hnil | hmem
      · exact absurd hnil hne
      · obtain ⟨x, hx, hnode⟩ := mem_nodes_iff.1 hmem
        obtain rfl : x = e := Option.some.inj (hx.found.symm.trans he)
        exact ⟨hx, hnode⟩
    have hvalues : schema.values id = (e.children.filter (·.name = "VALUE")).filterMap alias? := by
      rw [h.values hid, ← map_filter_listing he heff, List.filterMap_map, List.filterMap_filter]
      refine List.filterMap_congr fun x _ => ?_
      simp [aliasAt?]
    rw [hvalues]
    refine map_filterMap_alias? fun v hv => ?_
    obtain ⟨hmem, htag⟩ := List.mem_filter.1 hv
    obtain ⟨k, hk⟩ := List.mem_iff_getElem?.1 hmem
    have htag : v.name = "VALUE" := by simpa using htag
    exact ⟨htag, hfault _ v (.concat he heff hk (.inr htag))⟩

/-- The schema of a document is made of what counts in it, or the first fault
in that is reported. -/
theorem ofElement_document (top : Element) :
    ((∃ schema, ofElement top = .ok schema) ↔ ∀ address e, top.Effective address e →
      (e.name = "NODE" → (written? "name" e.attributes).isSome = true) ∧
      (e.name = "VALUE" →
        (written? "name" e.attributes).isSome = true ∧
          (written? "value" e.attributes).isSome = true)) ∧
    (∀ schema, ofElement top = .ok schema → ∃ nodes, Mirrors top nodes schema) ∧
    (∀ problem, ofElement top = .error problem → ∃ address e, top.Effective address e ∧
      fault? e = some problem ∧
      ∀ other o, top.Effective other o → fault? o ≠ none → address ≤ other) ∧
    ∀ text, Xml.document? text = some top → ofXml text = ofElement top := by
  have hloads : Loads [] (Element.listingAll [] 0 top.children) (ofElement top) :=
    loads_loadAll top.children loaded_empty rfl (inOrder_listing top)
  have hofXml (text : String) (ht : Xml.document? text = some top) :
      ofXml text = ofElement top := by
    rw [ofXml, ht]
  simp only [← fault?_eq_none_iff]
  rw [Loads] at hloads
  cases hfirst : (Element.listingAll [] 0 top.children).findSome? (fault? ·.2) with
  | none =>
    rw [hfirst] at hloads
    obtain ⟨schema, hok, hloaded⟩ := hloads
    have hfault (address : List Nat) (e : Element) (he : top.Effective address e) :
        fault? e = none :=
      List.findSome?_eq_none_iff.1 hfirst _ (Element.mem_listing_top_iff.2 he)
    refine ⟨iff_of_true ⟨schema, hok⟩ hfault, fun other ho => ?_, fun problem hp => ?_, hofXml⟩
    · obtain rfl : schema = other := Except.ok.inj (hok.symm.trans ho)
      exact ⟨_, hloaded.mirrors hfault⟩
    · rw [hok] at hp
      cases hp
  | some problem =>
    rw [hfirst] at hloads
    obtain ⟨⟨address, e⟩, hmem, hfault, hleast⟩ :=
      first_fault (Element.listingAll_inOrder [] 0 _) hfirst
    have heff := Element.mem_listing_top_iff.1 hmem
    refine ⟨iff_of_false ?_ fun hall => ?_, fun schema hok => ?_, fun other ho => ?_, hofXml⟩
    · rintro ⟨schema, hok⟩
      rw [hloads] at hok
      cases hok
    · rw [hall address e heff] at hfault
      cases hfault
    · rw [hloads] at hok
      cases hok
    · obtain rfl : problem = other := Except.error.inj (hloads.symm.trans ho)
      refine ⟨address, e, heff, hfault, fun other o ho hne => ?_⟩
      exact hleast (other, o) (Element.mem_listing_top_iff.2 ho) hne

/-- An element of another kind hides what lies in it, and what is
incomplete elsewhere is reported. -/
theorem ofElement_document_nested :
    (∃ top schema nodes,
      Xml.document?
        "<M><NODE name='a'><VALUE name='x' value='1'/></NODE><OTHER><NODE/></OTHER></M>" =
          some top ∧
      ofElement top = .ok schema ∧ Mirrors top nodes schema) ∧
    ∃ top address e,
      Xml.document? "<M><NODE name='a'><VALUE name='x'/></NODE><NODE/></M>" = some top ∧
      ofElement top = .error (.incomplete 18) ∧ top.Effective address e ∧
      fault? e = some (.incomplete 18) ∧
      ∀ other o, top.Effective other o → fault? o ≠ none → address ≤ other := by
  constructor
  · have hload :
        ((Xml.document?
          "<M><NODE name='a'><VALUE name='x' value='1'/></NODE><OTHER><NODE/></OTHER></M>").bind
          fun top => (ofElement top).toOption).isSome = true := by decide +kernel
    obtain ⟨schema, hload⟩ := Option.isSome_iff_exists.1 hload
    obtain ⟨top, htop, hload⟩ := Option.bind_eq_some_iff.1 hload
    have hok : ofElement top = .ok schema := by
      cases h : ofElement top with
      | ok grown => simpa [h, Except.toOption] using hload
      | error problem => simp [h, Except.toOption] at hload
    obtain ⟨nodes, hmirrors⟩ := (ofElement_document top).2.1 schema hok
    exact ⟨top, schema, nodes, htop, hok, hmirrors⟩
  · have hload :
        ((Xml.document? "<M><NODE name='a'><VALUE name='x'/></NODE><NODE/></M>").map fun top =>
          ((ofElement top).map fun _ => none).tryCatch
            fun problem => .ok (some problem)).bind Except.toOption =
          some (some (.incomplete 18)) := by decide +kernel
    obtain ⟨result, hresult, hload⟩ := Option.bind_eq_some_iff.1 hload
    obtain ⟨top, htop, rfl⟩ := Option.map_eq_some_iff.1 hresult
    have herror : ofElement top = .error (.incomplete 18) := by
      cases h : ofElement top with
      | ok grown => simp [h, Except.map, Except.tryCatch, Except.toOption] at hload
      | error problem => simpa [h, Except.map, Except.tryCatch, Except.toOption] using hload
    obtain ⟨address, e, heff, hfault, hleast⟩ := (ofElement_document top).2.2.1 _ herror
    exact ⟨top, address, e, htop, herror, heff, hfault, hleast⟩

end Schema

end YangConstraint
