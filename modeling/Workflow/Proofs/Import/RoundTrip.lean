import Workflow.Proofs.Compile.Success
import Workflow.Proofs.Import.Reached

/-!
# A document that was imported and compiled

The graph of a document compiles (`Drawn.compile_ok`), and to the document again
(`compile_toGraph`). What is different can be told exactly: states that are not reached are left
out, states are in another order, and their fields are in normal form (`Document.Restores`).
-/

namespace Workflow

/-- The first document was imported and compiled to the second one. -/
structure Document.Restores (d result : Document) : Prop where
  extra : result.extra = d.extra
  functions : result.functions = d.functions
  /-- The start block has the fields of its kind. -/
  start : ∃ entry, d.entryState? = some entry ∧ result.start = some (d.startAt entry)
  nodup : (result.states.map State.id).Nodup
  /-- The states are those that the document reaches. -/
  reached : ∀ id, id ∈ result.states.map State.id ↔ d.Reaches id
  /-- A state is the one with its id, its fields in normal form and without an empty list of error
  handlers. -/
  states : ∀ s' ∈ result.states, ∃ s t, d.state? s'.id = some s ∧
    Catalog.standard.get? s.kind = some t ∧ s'.kind = s.kind ∧
    s'.handlers = s.handlers.filter (fun hs => !hs.isEmpty) ∧
    Json.Alike (.obj s'.fields) (.obj (t.normal s.fields))

namespace Import

open Compile

theorem length_places_le (c : Catalog) (supply : Nat → NodeId) (d : Document) :
    (places c d).length ≤ (nodesOf c supply d).length := by
  have hle : ∀ ps : List Place, ps.length ≤ (ps.flatMap (Place.nodes supply)).length := by
    intro ps
    induction ps with
    | nil => exact Nat.le_refl _
    | cons p rest ih =>
      have hpos := p.size_pos
      rw [List.flatMap_cons, List.length_append, Place.length_nodes, List.length_cons]
      omega
  rw [nodesOf, List.length_cons]
  exact Nat.le_succ_of_le (hle _)

theorem state?_of_mem {d : Document} (hnd : (d.states.map State.id).Nodup) {s : State}
    (hs : s ∈ d.states) : d.state? s.id = some s := by
  cases hfind : d.state? s.id with
  | none =>
    have hnone := List.find?_eq_none.1 hfind s hs
    simp at hnone
  | some s' =>
    have hid : s'.id = s.id := by simpa using List.find?_some hfind
    rw [List.inj_on_of_nodup_map hnd (List.mem_of_find?_eq_some hfind) hs hid]

namespace Drawn

variable {settings : Settings} {c : Catalog} {supply : Nat → NodeId} {d : Document} {g : Graph}
  {p : Place}

/-- No two states of the graph have the same name. -/
theorem namesApart (h : Drawn settings c supply d g) : g.nodes.Pairwise NamesApart := by
  obtain ⟨es, -, hshows⟩ := h.shows
  have hnd : g.nodes.Nodup := hshows.nodes_eq ▸ hshows.nodup.of_map _
  refine hnd.pairwise_of_forall_ne fun a ha b hb hne hpa hpb he => hne ?_
  obtain ⟨q, hq, hqid, hqnode⟩ := h.exists_place (hshows.consistent.mem_nodes_iff.1 ha) hpa
  obtain ⟨r, hr, hrid, hrnode⟩ := h.exists_place (hshows.consistent.mem_nodes_iff.1 hb) hpb
  rw [hqnode, hrnode] at he
  obtain rfl := h.eq_of_id_eq hq hr (Option.some.inj he)
  exact Prod.ext (hqid.symm.trans hrid) (hqnode.trans hrnode.symm)

/-- The graph passes the checks before a compilation. -/
theorem validate_ok [HasSpecials c] (h : Drawn settings c supply d g) : validate c g = .ok () := by
  obtain ⟨es, -, hshows⟩ := h.shows
  refine validate_eq_ok_iff.2 ⟨fun e he => ?_, checkNames_eq_ok_iff.2
    ⟨fun e he => ?_, fun e he hprimitive => ?_, h.namesApart⟩⟩
  · rw [hshows.nodes_eq] at he
    rcases mem_nodesOf he with rfl | ⟨p, -, rfl | ⟨hs, -, rfl⟩⟩ <;> rfl
  · rw [hshows.nodes_eq] at he
    rcases mem_nodesOf he with rfl | ⟨p, hp, rfl | ⟨hs, -, rfl⟩⟩
    · exact ⟨_, HasSpecials.get?_start⟩
    · exact ⟨_, (get?_of_mem_layout hp).1⟩
    · exact ⟨_, HasSpecials.get?_catch⟩
  · obtain ⟨p, -, -, hnode⟩ := h.exists_place (hshows.consistent.mem_nodes_iff.1 he) hprimitive
    exact ⟨p.state.id, by rw [hnode]; rfl, List.not_mem_nil⟩

theorem startNode?_eq (h : Drawn settings c supply d g) : g.startNode? = some (supply 0) := by
  obtain ⟨es, -, hshows⟩ := h.shows
  rw [Graph.startNode?, hshows.nodes_eq]
  rfl

/-- The start block is compiled from the start node. -/
theorem startOf_ok [HasSpecials c] (h : Drawn settings c supply d g)
    (hw : ∀ s, d.start = some s → s.WellFormed) (hp : p ∈ places c d) :
    startOf c g (supply 0) (p.id supply) = .ok (d.startAt p.state.id) := by
  obtain ⟨es, -, hshows⟩ := h.shows
  exact startOf_eq_ok_iff.2 ⟨startNode d, p.state.id, startType, _,
    hshows.node?_eq_some_iff.2 List.mem_cons_self, h.stateName_id hp, HasSpecials.get?_start, rfl,
    ofForm_startNode hw p.state.id⟩

/-- The graph of a document is compiled without an error when each place stands for a state. -/
theorem compile_ok_of_entry [HasSpecials c] (h : Drawn settings c supply d g)
    (hw : ∀ s, d.start = some s → s.WellFormed)
    (hstates : ∀ p ∈ places c d, ∃ s, IsStateOf c g (p.id supply) s)
    (hp : p ∈ places c d)
    (hentry : g.edgeOn? (supply 0) 1 = some (.ofOutput (supply 0) 1 (p.id supply))) :
    ∃ w, statesOf c g (p.id supply) = .ok w ∧ (g.compile c).outcome
      = .ok ⟨g.metadata.extra, g.metadata.functions, some (d.startAt p.state.id), w.finished⟩ := by
  obtain ⟨es, -, hshows⟩ := h.shows
  have hclosed : ∀ v ∈ (places c d).map (Place.id supply), ∀ x,
      LeadsTo c g v x → x ∈ (places c d).map (Place.id supply) := by
    intro v hv x hleads
    obtain ⟨q, hq, rfl⟩ := List.mem_map.1 hv
    obtain ⟨r, hr, rfl⟩ := h.exists_place_of_leadsTo hq hleads
    exact List.mem_map_of_mem hr
  have hstate : ∀ v ∈ (places c d).map (Place.id supply), ∃ s,
      IsStateOf c g v s := by
    intro v hv
    obtain ⟨q, hq, rfl⟩ := List.mem_map.1 hv
    exact hstates q hq
  have hroots : ∀ e ∈ g.nodes, e.2.isPrimitive = true → g.incoming e.1 = [] →
      e.1 ∈ (places c d).map (Place.id supply) := by
    intro e he hprimitive _
    obtain ⟨q, hq, hid, -⟩ := h.exists_place (hshows.consistent.mem_nodes_iff.1 he) hprimitive
    exact hid ▸ List.mem_map_of_mem hq
  have hlength : ((places c d).map (Place.id supply)).length ≤ g.nodeCount := by
    rw [List.length_map, hshows.nodeCount_eq]
    exact length_places_le _ _ _
  obtain ⟨w, hw'⟩ := statesOf_ok hclosed hstate (List.mem_map_of_mem hp) hroots hlength
  have hcompile := compile_eq_ok_iff.2 ⟨supply 0, _, _, w, h.validate_ok, h.startNode?_eq,
    hentry, h.startOf_ok hw hp, hw', rfl, rfl⟩
  exact ⟨w, hw', by rw [hcompile]⟩

/-- The entry state of the document gives the entry edge. -/
theorem compile_ok (h : Drawn settings .standard supply d g)
    (hw : ∀ s, d.start = some s → s.WellFormed)
    (hstates : ∀ p ∈ places .standard d, ∃ s, IsStateOf .standard g (p.id supply) s)
    (hp : IsEntry settings supply d p) :
    ∃ w, statesOf .standard g (p.id supply) = .ok w ∧ (g.compile .standard).outcome
      = .ok ⟨g.metadata.extra, g.metadata.functions, some (d.startAt p.state.id), w.finished⟩ :=
  h.compile_ok_of_entry hw hstates hp.1 (h.edgeOn?_start hp)

/-- The states of the compiled document are those that the document reaches. -/
theorem restores (h : Drawn settings .standard supply d g) (hw : d.WellFormed)
    (hkeeps : ∀ p ∈ places .standard d, p.state.Keeps p.type)
    (hall : (places .standard d).map Place.state = d.states)
    (hmetadata : g.metadata = ⟨d.functions, d.extra⟩) (hp : IsEntry settings supply d p)
    {states : List State} (hcompile : (g.compile .standard).outcome
      = .ok ⟨g.metadata.extra, g.metadata.functions, some (d.startAt p.state.id), states⟩) :
    d.Restores ⟨g.metadata.extra, g.metadata.functions, some (d.startAt p.state.id), states⟩ := by
  obtain ⟨es, -, hshows⟩ := h.shows
  obtain ⟨entry, ids, hemits⟩ := emits_of_compile hshows.consistent.labelled hcompile
  obtain ⟨start, e, -, hstart, he, rfl, -, -⟩ := hemits.start
  obtain rfl := Option.some.inj (h.startNode?_eq.symm.trans hstart)
  obtain rfl := Option.some.inj ((h.edgeOn?_start hp).symm.trans he)
  have hstates := hemits.states
  have hids := hemits.mem_iff
  -- Each state of the result is that of the place of its node.
  have hplace : ∀ x s', IsStateOf .standard g x s' → ∃ q ∈ places .standard d, q.id supply = x ∧
      s'.id = q.state.id ∧ s'.kind = q.state.kind ∧
      s'.handlers = q.state.handlers.filter (fun hs => !hs.isEmpty) ∧
      Json.Alike (.obj s'.fields) (.obj (q.type.normal q.state.fields)) := by
    intro x s' hstate
    have hnode := hstate
    obtain ⟨n, -, -, -, -, hn, hprimitive, -⟩ := hnode
    obtain ⟨q, hq, rfl, -⟩ := h.exists_place hn hprimitive
    obtain ⟨s, hs, hrest⟩ := h.exists_state hw hq (hkeeps q hq)
    obtain rfl := hs.unique hstate
    exact ⟨q, hq, rfl, hrest⟩
  refine ⟨by rw [hmetadata], by rw [hmetadata], ⟨_, hp.2.1, rfl⟩,
    hemits.nodup_ids hshows.consistent.labelled, fun id => ?_, ?_⟩
  · constructor
    · intro hid
      obtain ⟨s', hs', rfl⟩ := List.mem_map.1 hid
      obtain ⟨x, hx, hstate⟩ := hstates.exists_of_mem_right hs'
      obtain ⟨q, hq, rfl, hsid, -⟩ := hplace x s' hstate
      rw [hsid]
      exact (h.reaches_iff hw hkeeps hall hp hq).1 ((hids _).1 hx).2
    · intro hreaches
      obtain ⟨q, hq, rfl⟩ := h.exists_place_of_reaches hw hkeeps hall hp hreaches
      have hx : q.id supply ∈ ids := (hids _).2
        ⟨⟨q.node, h.node?_id hq, h.primitive q hq⟩, (h.reaches_iff hw hkeeps hall hp hq).2 hreaches⟩
      obtain ⟨s', hs', hstate⟩ := hstates.exists_of_mem_left hx
      obtain ⟨q', hq', he', hsid, -⟩ := hplace _ s' hstate
      obtain rfl := Place.id_injective h.distinct hq' hq he'
      exact List.mem_map.2 ⟨s', hs', hsid⟩
  · intro s' hs'
    obtain ⟨x, -, hstate⟩ := hstates.exists_of_mem_right hs'
    obtain ⟨q, hq, -, hsid, hrest⟩ := hplace x s' hstate
    obtain ⟨hkind, hmem⟩ := get?_of_mem_layout hq
    exact ⟨q.state, q.type, hsid ▸ state?_of_mem h.ids hmem, hkind, hrest⟩

end Drawn

/-- With the types and the settings of the editor, a document that was imported is compiled without
an error, and nothing is lost but what no compilation keeps. It is enough that there are states,
that they all are of types that the editor knows, and that each of them can be kept in a graph. -/
theorem compile_toGraph_restores {supply : Nat → NodeId} {d : Document} {r : Imported}
    (hw : d.WellFormed) (hne : d.states ≠ [])
    (hstates : ∀ s ∈ d.states, ∃ t, Catalog.standard.get? s.kind = some t ∧
      t.isPrimitive = true ∧ s.Keeps t)
    (hsupply : Distinct supply (1 + 2 * d.states.length))
    (h : (d.toGraph {} .standard supply).outcome = .ok r) :
    ∃ result, (r.graph.compile .standard).outcome = .ok result ∧ d.Restores result := by
  obtain ⟨hrep, hmetadata, es, hes, hb⟩ :=
    toGraph_builds standard_startName standard_catchName hsupply (entryName?_eq hw.start) h
  have hplaces : ∀ p ∈ places .standard d, p.type.isPrimitive = true ∧ p.state.Keeps p.type := by
    intro p hp
    obtain ⟨hkind, hmem⟩ := get?_of_mem_layout hp
    obtain ⟨t, ht, hrest⟩ := hstates _ hmem
    obtain rfl := Option.some.inj (hkind.symm.trans ht)
    exact hrest
  have hdrawn : Drawn {} .standard supply d r.graph :=
    ⟨(repeatedId?_eq_none_iff.1 hrep).1, hsupply, fun p hp => (hplaces p hp).1, es, hes, hb.shows⟩
  have hkeeps : ∀ p ∈ places .standard d, p.state.Keeps p.type := fun p hp => (hplaces p hp).2
  have hall : (places .standard d).map Place.state = d.states :=
    map_state_places fun s hs => (hstates s hs).imp fun _ => And.left
  obtain ⟨p, hp⟩ := hdrawn.exists_isEntry rfl hne hall
  obtain ⟨w, -, hcompile⟩ := hdrawn.compile_ok hw.start (fun p hp => by
    obtain ⟨s, hs, -⟩ := hdrawn.exists_state hw hp (hkeeps p hp)
    exact ⟨s, hs⟩) hp
  exact ⟨_, hcompile, hdrawn.restores hw hkeeps hall hmetadata hp hcompile⟩

/-- A document with a transform, an error handler and a state that no state names. -/
def draftDocument : Document :=
  ⟨[("name", .str "draft")], none, some ⟨some .plain, none, []⟩,
    [⟨"a", "noop", [("transform", .arr [.str "x"]), ("transition", .str "b")],
        some [⟨"E", some "b", []⟩]⟩,
      ⟨"b", "noop", [], some []⟩, ⟨"c", "noop", [("transition", .str "a")], none⟩]⟩

theorem draftDocument_wellFormed : draftDocument.WellFormed where
  extra := ⟨⟨by decide, trivial, trivial⟩, by decide⟩
  functions := nofun
  start := by
    intro s hs
    cases hs
    exact ⟨trivial, nofun⟩
  states := by
    have hfields : ∀ s ∈ draftDocument.states, s.fields.Beside ["id", "type", "catch"] := by
      refine List.forall_mem_cons.2 ⟨⟨?_, by decide⟩, List.forall_mem_cons.2 ⟨⟨trivial, by decide⟩,
        List.forall_mem_singleton.2 ⟨⟨by decide, trivial, trivial⟩, by decide⟩⟩⟩
      exact ⟨by decide, ⟨trivial, trivial⟩, by decide, trivial, trivial⟩
    have hhandlers : ∀ s ∈ draftDocument.states, ∀ hs, s.handlers = some hs →
        ∀ h ∈ hs, h.extra = [] := by decide
    intro s hs
    refine ⟨hfields s hs, fun handlers hsome h hh => ?_⟩
    rw [CatchEntry.WellFormed, hhandlers s hs handlers hsome h hh]
    exact ⟨trivial, nofun⟩

theorem draftDocument_keeps : ∀ s ∈ draftDocument.states, ∃ t,
    Catalog.standard.get? s.kind = some t ∧ t.isPrimitive = true ∧ s.Keeps t := by
  have hkind : ∀ s ∈ draftDocument.states,
      Catalog.standard.get? s.kind = some (.primitive .single) := by decide +kernel
  have hfits : ∀ s ∈ draftDocument.states, TransitionRule.single.fixed.length +
      (TransitionRule.single.entries s.fields).length ≤ PortCount.greatest := by decide
  have hlength : ∀ s ∈ draftDocument.states, ∀ hs, s.handlers = some hs →
      hs.length ≤ PortCount.greatest := by decide
  have htransforms : ∀ s ∈ draftDocument.states,
      ∀ v ∈ (NodeType.primitive .single).transforms s.fields, v = .arr [.str "x"] := by decide
  have hreads : Transform.yamlValue (Yaml.print (.arr [.str "x"])) = .ok (.arr [.str "x"]) := by
    decide +kernel
  intro s hs
  refine ⟨_, hkind s hs, rfl, hfits s hs, hlength s hs, fun v hv w hw => ?_⟩
  rw [htransforms s hs v hv] at hw
  cases hw
  exact hreads

theorem compile_draftDocument_restores :
    ∃ r result, (draftDocument.toGraph {} .standard NodeId.ofNat).outcome = .ok r ∧
      (r.graph.compile .standard).outcome = .ok result ∧ draftDocument.Restores result := by
  have hok : (draftDocument.toGraph {} .standard NodeId.ofNat).outcome.toOption.isSome = true := by
    decide +kernel
  cases h : (draftDocument.toGraph {} .standard NodeId.ofNat).outcome with
  | error e =>
    rw [h] at hok
    cases hok
  | ok r =>
    obtain ⟨result, hcompile, hrestores⟩ := compile_toGraph_restores draftDocument_wellFormed
      (by decide) draftDocument_keeps (distinct_ofNat (by decide)) h
    exact ⟨r, result, rfl, hcompile, hrestores⟩

end Import

end Workflow
