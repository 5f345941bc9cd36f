import Workflow.Proofs.Compile.Wired
import Workflow.Proofs.Import.Described

/-!
# The edges of an imported graph, node by node

The nodes of an imported graph stand at different places, so each of its edges leaves the node that
it was drawn for. `Drawn.wired_node` and `Drawn.wired_catchNode` tell the edges of one node, and
`Drawn.leadsTo_iff` what a compilation of the graph follows: the names that a state holds.
-/

namespace Workflow.Import

/-! ### Places -/

theorem pairwise_layout (c : Catalog) (index : Nat) (states : List State) :
    (layout c index states).Pairwise (fun p q => p.index + p.size ≤ q.index) ∧
      ∀ p ∈ layout c index states, index ≤ p.index ∧
        p.index + p.size ≤ index + 2 * states.length := by
  induction states generalizing index with
  | nil => exact ⟨.nil, nofun⟩
  | cons s rest ih =>
    rw [layout, List.length_cons]
    cases c.get? s.kind with
    | none =>
      obtain ⟨hapart, hbounds⟩ := ih index
      exact ⟨hapart, fun p hp => ⟨(hbounds p hp).1, by have := (hbounds p hp).2; omega⟩⟩
    | some t =>
      have hsize : (Place.mk s t index).size ≤ 2 := by
        unfold Place.size
        split <;> omega
      obtain ⟨hapart, hbounds⟩ := ih (index + (Place.mk s t index).size)
      refine ⟨List.pairwise_cons.2 ⟨fun q hq => (hbounds q hq).1, hapart⟩, fun p hp => ?_⟩
      rcases List.mem_cons.1 hp with rfl | hp
      · exact ⟨Nat.le_refl _, by show index + _ ≤ _; omega⟩
      · have := hbounds p hp
        omega

/-- One place ends before the other begins. -/
def Place.Apart (p q : Place) : Prop := p.index + p.size ≤ q.index ∨ q.index + q.size ≤ p.index

instance : Std.Symm Place.Apart := ⟨fun _ _ h => h.symm⟩

theorem Place.size_of_handlers {p : Place} {hs : List CatchEntry} (h : p.state.handlers = some hs) :
    p.size = 2 := by
  rw [size, h]
  rfl

section

variable {c : Catalog} {supply : Nat → NodeId} {d : Document} {p q : Place}

/-- Nodes of states have different identifiers, unless they are at one position of one place. -/
theorem eq_of_supply_eq (hd : Distinct supply (1 + 2 * d.states.length)) (hp : p ∈ places c d)
    (hq : q ∈ places c d) {i j : Nat} (hi : i < p.size) (hj : j < q.size)
    (he : supply (p.index + i) = supply (q.index + j)) : p = q ∧ i = j := by
  obtain ⟨hpairwise, hbounds⟩ := pairwise_layout c 1 d.states
  have hboundsp := hbounds p hp
  have hboundsq := hbounds q hq
  have hindex := hd _ _ (by omega) (by omega) he
  by_cases hpq : p = q
  · subst hpq
    exact ⟨rfl, by omega⟩
  · have hpairwise : (layout c 1 d.states).Pairwise Place.Apart := hpairwise.imp .inl
    have hapart := hpairwise.forall hp hq hpq
    unfold Place.Apart at hapart
    omega

theorem ne_start_of_mem_places (hd : Distinct supply (1 + 2 * d.states.length))
    (hp : p ∈ places c d) {i : Nat} (hi : i < p.size) : supply (p.index + i) ≠ supply 0 := by
  intro he
  have hbounds := (pairwise_layout c 1 d.states).2 p hp
  have := hd _ _ (by omega) (by omega) he
  omega

theorem Place.size_pos (p : Place) : 0 < p.size := by
  unfold size
  split <;> omega

theorem Place.id_injective (hd : Distinct supply (1 + 2 * d.states.length)) (hp : p ∈ places c d)
    (hq : q ∈ places c d) (he : p.id supply = q.id supply) : p = q :=
  (eq_of_supply_eq (i := 0) (j := 0) hd hp hq p.size_pos q.size_pos he).1

theorem Place.id_ne_catchId (hd : Distinct supply (1 + 2 * d.states.length)) (hp : p ∈ places c d)
    (hq : q ∈ places c d) (h : q.size = 2) : p.id supply ≠ q.catchId supply := by
  intro he
  have := (eq_of_supply_eq (i := 0) (j := 1) hd hp hq p.size_pos (by omega) he).2
  omega

/-! ### Edges -/

theorem exists_place_of_nodeNamed? {ps : List Place} {name : String} {id : NodeId}
    (h : nodeNamed? supply ps name = some id) : ∃ q ∈ ps, q.state.id = name ∧ q.id supply = id := by
  obtain ⟨q, hq, rfl⟩ := Option.map_eq_some_iff.1 h
  exact ⟨q, List.mem_of_find?_eq_some hq, by simpa using List.find?_some hq, rfl⟩

theorem mem_edgesTo_iff {ps : List Place} {source : NodeId} {targets : List (Port × String)}
    {e : Edge} : some e ∈ edgesTo supply ps source targets ↔
      ∃ port name id, (port, name) ∈ targets ∧ nodeNamed? supply ps name = some id ∧
        Edge.ofOutput source port id = e := by
  simp only [edgesTo, List.mem_map, Prod.exists, Option.map_eq_some_iff]
  constructor
  · rintro ⟨port, name, hmem, id, hid, he⟩
    exact ⟨port, name, id, hmem, hid, he⟩
  · rintro ⟨port, name, id, hmem, hid, he⟩
    exact ⟨port, name, hmem, id, hid, he⟩

/-- The edge of the entry state leads from the start node to the node of a state. -/
theorem exists_place_of_mem_entryEdges {settings : Settings} {ps : List Place}
    {entry : Option String} {e : Edge} (h : some e ∈ entryEdges settings supply ps entry) :
    ∃ q ∈ ps, e = .ofOutput (supply 0) 1 (q.id supply) := by
  unfold entryEdges at h
  split at h
  next =>
    obtain ⟨_, _, id, hname, hid, rfl⟩ := mem_edgesTo_iff.1 h
    obtain ⟨q, hq, -, rfl⟩ := exists_place_of_nodeNamed? hid
    cases List.mem_singleton.1 hname
    exact ⟨q, hq, rfl⟩
  next p _ =>
    split at h
    · exact ⟨p, List.mem_cons_self, Option.some.inj (List.mem_singleton.1 h)⟩
    · cases h
  next => cases h

theorem source_of_mem_entryEdges {settings : Settings} {ps : List Place} {entry : Option String}
    {e : Edge} (h : some e ∈ entryEdges settings supply ps entry) : e.source = supply 0 := by
  obtain ⟨q, -, rfl⟩ := exists_place_of_mem_entryEdges h
  rfl

/-- An edge of a state leads to its error-catch node, from there to a state, or straight to one. -/
theorem mem_edges_iff {ps : List Place} {e : Edge} : some e ∈ p.edges supply ps ↔
    (∃ hs port, p.state.handlers = some hs ∧ p.type.transitions.errorPort? = some port ∧
      Edge.ofOutput (p.id supply) port (p.catchId supply) = e) ∨
    (∃ hs, p.state.handlers = some hs ∧ some e ∈ edgesTo supply ps (p.catchId supply)
      (catchType.transitions.targets (handlerFields hs))) ∨
    some e ∈ edgesTo supply ps (p.id supply) (p.type.transitions.targets p.state.fields) := by
  unfold Place.edges
  rw [List.mem_append]
  cases p.state.handlers with
  | none => simp
  | some hs =>
    simp only [List.mem_cons, Option.some.injEq, exists_and_left, exists_eq_left', or_assoc]
    refine or_congr_left ?_
    rw [eq_comm, Option.map_eq_some_iff]

theorem mem_nodesOf_of_place (hp : p ∈ places c d) :
    (p.id supply, p.node) ∈ nodesOf c supply d :=
  List.mem_cons_of_mem _ (List.mem_flatMap.2 ⟨p, hp, List.mem_cons_self⟩)

theorem mem_nodesOf_of_handlers (hp : p ∈ places c d) {hs : List CatchEntry}
    (h : p.state.handlers = some hs) : (p.catchId supply, catchNode hs) ∈ nodesOf c supply d := by
  refine List.mem_cons_of_mem _ (List.mem_flatMap.2 ⟨p, hp, List.mem_cons_of_mem _ ?_⟩)
  simp only [h]
  exact List.mem_cons_self

end

/-! ### Drawn graphs -/

/-- A graph is drawn from a document: it has the nodes and the edges that the document describes, of
which none has an end that does not exist. -/
structure Drawn (settings : Settings) (c : Catalog) (supply : Nat → NodeId) (d : Document)
    (g : Graph) : Prop where
  ids : (d.states.map State.id).Nodup
  distinct : Distinct supply (1 + 2 * d.states.length)
  primitive : ∀ p ∈ places c d, p.type.isPrimitive = true
  shows : ∃ es, edgesOf settings c supply d = es.map some ∧ g.Shows (nodesOf c supply d) es

namespace Drawn

open Compile TransitionRule

variable {settings : Settings} {c : Catalog} {supply : Nat → NodeId} {d : Document} {g : Graph}
  {p q : Place}

theorem node?_id (h : Drawn settings c supply d g) (hp : p ∈ places c d) :
    g.node? (p.id supply) = some p.node := by
  obtain ⟨es, -, hshows⟩ := h.shows
  exact hshows.node?_eq_some_iff.2 (mem_nodesOf_of_place hp)

theorem node?_catchId (h : Drawn settings c supply d g) (hp : p ∈ places c d)
    {hs : List CatchEntry} (hhs : p.state.handlers = some hs) :
    g.node? (p.catchId supply) = some (catchNode hs) := by
  obtain ⟨es, -, hshows⟩ := h.shows
  exact hshows.node?_eq_some_iff.2 (mem_nodesOf_of_handlers hp hhs)

theorem stateName_id (h : Drawn settings c supply d g) (hp : p ∈ places c d) :
    stateName g (p.id supply) = .ok p.state.id :=
  stateName_eq_ok_iff.2 ⟨p.node, h.node?_id hp, h.primitive p hp, rfl⟩

/-- An edge of the graph is one of the entry state or one of a place. -/
theorem mem_outgoing (h : Drawn settings c supply d g) {id : NodeId} {e : Edge}
    (he : e ∈ g.outgoing id) (hid : id ≠ supply 0) :
    e.source = id ∧ ∃ q ∈ places c d, some e ∈ q.edges supply (places c d) := by
  obtain ⟨es, hes, hshows⟩ := h.shows
  rw [hshows.outgoing_eq] at he
  obtain ⟨he, hsource⟩ := List.mem_filter.1 he
  have hmem : some e ∈ edgesOf settings c supply d := hes ▸ List.mem_map_of_mem he
  refine ⟨of_decide_eq_true hsource, ?_⟩
  rcases List.mem_append.1 hmem with hmem | hmem
  · exact absurd ((of_decide_eq_true hsource).symm.trans (source_of_mem_entryEdges hmem)) hid
  · exact List.mem_flatMap.1 hmem

/-- Everything that the document describes as an edge of a place is an edge of the graph. -/
theorem exists_edge (h : Drawn settings c supply d g) (hp : p ∈ places c d) {e? : Option Edge}
    (he : e? ∈ p.edges supply (places c d)) : ∃ e, e? = some e ∧ e ∈ g.outgoing e.source := by
  obtain ⟨es, hes, hshows⟩ := h.shows
  have hmem : e? ∈ edgesOf settings c supply d :=
    List.mem_append_right _ (List.mem_flatMap.2 ⟨p, hp, he⟩)
  rw [hes] at hmem
  obtain ⟨e, hes', rfl⟩ := List.mem_map.1 hmem
  refine ⟨e, rfl, ?_⟩
  rw [hshows.outgoing_eq]
  exact List.mem_filter.2 ⟨hes', by simp⟩

theorem exists_edge_of_target (h : Drawn settings c supply d g) (hp : p ∈ places c d)
    {source : NodeId} {targets : List (Port × String)}
    (hsub : ∀ x ∈ edgesTo supply (places c d) source targets, x ∈ p.edges supply (places c d))
    {port : Port} {name : String} (hmem : (port, name) ∈ targets) :
    ∃ e ∈ g.outgoing source, e.output = port := by
  obtain ⟨e, he, hout⟩ := h.exists_edge hp (hsub _ (List.mem_map.2 ⟨_, hmem, rfl⟩))
  obtain ⟨id, -, rfl⟩ := Option.map_eq_some_iff.1 he
  exact ⟨_, hout, rfl⟩

/-- The name behind an edge is that of the state it leads to. -/
theorem named_of_edgesTo (h : Drawn settings c supply d g) {source : NodeId}
    {targets : List (Port × String)} {e : Edge}
    (he : some e ∈ edgesTo supply (places c d) source targets) :
    e.source = source ∧ ∃ name, (e.output, name) ∈ targets ∧ stateName g e.target = .ok name := by
  obtain ⟨port, name, id, hmem, hid, rfl⟩ := mem_edgesTo_iff.1 he
  obtain ⟨q, hq, rfl, rfl⟩ := exists_place_of_nodeNamed? hid
  exact ⟨rfl, q.state.id, hmem, h.stateName_id hq⟩

/-- The edges of the node of a state are drawn from its names. -/
theorem wired_node (h : Drawn settings c supply d g) (hp : p ∈ places c d) :
    Wired g (p.id supply) p.type.transitions p.state.fields
      (p.state.handlers.map fun _ => p.catchId supply) where
  sound e he := by
    obtain ⟨hsource, q, hq, hedge⟩ := h.mem_outgoing he
      (ne_start_of_mem_places (i := 0) h.distinct hp p.size_pos)
    rcases mem_edges_iff.1 hedge with ⟨hs, port, hhs, hport, rfl⟩ | ⟨hs, hhs, hedge⟩ | hedge
    · obtain rfl := Place.id_injective h.distinct hq hp hsource
      exact .inl ⟨hport, by rw [hhs]; rfl⟩
    · obtain ⟨hsource', -⟩ := h.named_of_edgesTo hedge
      exact absurd (hsource.symm.trans hsource')
        (Place.id_ne_catchId h.distinct hp hq (Place.size_of_handlers hhs))
    · obtain ⟨hsource', hnamed⟩ := h.named_of_edgesTo hedge
      obtain rfl := Place.id_injective h.distinct hp hq (hsource.symm.trans hsource')
      exact .inr hnamed
  drawn port name hmem :=
    h.exists_edge_of_target hp (fun x hx => List.mem_append_right _ hx) hmem
  caught k hk := by
    obtain ⟨hs, hhs, rfl⟩ := Option.map_eq_some_iff.1 hk
    refine ⟨⟨catchNode hs, h.node?_catchId hp hhs, rfl⟩, ?_⟩
    have hmem : p.type.transitions.errorPort?.map (Edge.ofOutput (p.id supply) · (p.catchId supply))
        ∈ p.edges supply (places c d) := by
      unfold Place.edges
      rw [hhs]
      exact List.mem_append_left _ List.mem_cons_self
    obtain ⟨e, he, hout⟩ := h.exists_edge hp hmem
    obtain ⟨port, hport, rfl⟩ := Option.map_eq_some_iff.1 he
    exact ⟨_, hout, hport⟩

/-- The edges of an error-catch node are drawn from the names of the error handlers. -/
theorem wired_catchNode (h : Drawn settings c supply d g) (hp : p ∈ places c d)
    {hs : List CatchEntry} (hhs : p.state.handlers = some hs) :
    Wired g (p.catchId supply) catchType.transitions (handlerFields hs) none where
  sound e he := by
    have hsize := Place.size_of_handlers hhs
    obtain ⟨hsource, q, hq, hedge⟩ := h.mem_outgoing he
      (ne_start_of_mem_places (i := 1) h.distinct hp (by omega))
    rcases mem_edges_iff.1 hedge with ⟨_, port, -, -, rfl⟩ | ⟨hs', hhs', hedge⟩ | hedge
    · exact absurd hsource (Place.id_ne_catchId h.distinct hq hp hsize)
    · obtain ⟨hsource', hnamed⟩ := h.named_of_edgesTo hedge
      have hsize' := Place.size_of_handlers hhs'
      obtain ⟨rfl, -⟩ := eq_of_supply_eq (i := 1) (j := 1) h.distinct hp hq (by omega) (by omega)
        (hsource.symm.trans hsource')
      obtain rfl := Option.some.inj (hhs.symm.trans hhs')
      exact .inr hnamed
    · obtain ⟨hsource', -⟩ := h.named_of_edgesTo hedge
      exact absurd (hsource'.symm.trans hsource) (Place.id_ne_catchId h.distinct hq hp hsize)
  drawn port name hmem := by
    refine h.exists_edge_of_target hp (fun x hx => ?_) hmem
    unfold Place.edges
    rw [hhs]
    exact List.mem_append_left _ (List.mem_cons_of_mem _ hx)
  caught _ hk := nomatch hk

end Drawn

end Workflow.Import
