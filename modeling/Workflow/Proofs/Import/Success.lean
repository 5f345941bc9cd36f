import Workflow.Proofs.Import.Wiring

/-!
# When an import ends with a graph

An import draws the edges that the document describes one after the other (`foldlM_wire_eq`). They
all fit, because every name has a port of its own on its node (`singleOutputs_described`,
`fits_described`). So an import ends with a graph as soon as its states have different ids, their
types may be imported, and every name is that of a state (`toGraph_ok`).
-/

namespace Workflow

theorem TransitionRule.nodup_targets (r : TransitionRule) (fields : Fields) :
    (r.targets fields).Pairwise fun x y => x.1 ≠ y.1 := by
  rw [targets_eq_filterMap_names]
  refine List.pairwise_filterMap.2 (List.Pairwise.imp_of_mem ?_ List.pairwise_lt_range)
  rintro i j hi hj hij x hx y hy
  obtain ⟨_, -, rfl⟩ := Option.map_eq_some_iff.1 hx
  obtain ⟨_, -, rfl⟩ := Option.map_eq_some_iff.1 hy
  have hlt := (r.portsFor fields).toNat_lt
  rw [List.mem_range] at hi hj
  intro he
  have hnat := congrArg UInt16.toNat he
  rw [UInt16.toNat_ofNat', UInt16.toNat_ofNat', Nat.mod_eq_of_lt (by omega),
    Nat.mod_eq_of_lt (by omega)] at hnat
  omega

namespace Import

variable {settings : Settings} {c : Catalog} {supply : Nat → NodeId} {d : Document}

/-! ### Adding the edges -/

section

variable {ps : List Place} {es : List Edge}

theorem drawEdges_eq {owner : String} {source : NodeId} {targets : List (Port × String)}
    (hes : edgesTo supply ps source targets = es.map some) (g : Graph) :
    drawEdges (ps.map (Place.pending supply)) owner source g targets
      = es.foldlM Graph.addEdge g := by
  unfold drawEdges
  induction targets generalizing g es with
  | nil =>
    rw [List.map_eq_nil_iff.1 hes.symm]
    rfl
  | cons target rest ih =>
    obtain ⟨port, name⟩ := target
    obtain ⟨e, es, rfl, he, hrest⟩ := List.map_eq_cons_iff.1 hes.symm
    obtain ⟨id, hid, rfl⟩ := Option.map_eq_some_iff.1 he.symm
    have hresolve : resolve (ps.map (Place.pending supply)) owner name = .ok id :=
      resolve_eq_ok_iff.2 hid
    rw [List.foldlM_cons, List.foldlM_cons]
    show (resolve (ps.map (Place.pending supply)) owner name >>= fun id =>
      g.addEdge (.ofOutput source port id)) >>= _ = _
    rw [hresolve]
    exact bind_congr fun g₁ => ih hrest.symm g₁

theorem wire_eq {p : Place} (hes : p.edges supply ps = es.map some) (g : Graph) :
    wire (ps.map (Place.pending supply)) g (p.pending supply) = es.foldlM Graph.addEdge g := by
  unfold Place.edges at hes
  obtain ⟨first, rest, rfl, hfirst, hrest⟩ := List.map_eq_append_iff.1 hes.symm
  have hown : ∀ g, drawEdges (ps.map (Place.pending supply)) p.state.id (p.id supply) g
      (p.type.transitions.targets p.state.fields) = rest.foldlM Graph.addEdge g :=
    drawEdges_eq hrest.symm
  rw [List.foldlM_append]
  unfold wire
  cases hs : p.state.handlers with
  | none =>
    rw [hs] at hfirst
    rw [List.map_eq_nil_iff.1 hfirst, List.foldlM_nil, pure_bind]
    have hp : (p.pending supply).handlers = none := by rw [Place.pending, hs]; rfl
    simp only [hp]
    exact hown g
  | some hlist =>
    rw [hs] at hfirst
    obtain ⟨e, handled, rfl, he, hhandled⟩ := List.map_eq_cons_iff.1 hfirst
    obtain ⟨port, hport, rfl⟩ := Option.map_eq_some_iff.1 he.symm
    have hp : (p.pending supply).handlers =
        some ⟨p.catchId supply, catchType.transitions.targets (handlerFields hlist)⟩ := by
      rw [Place.pending, hs]; rfl
    have hport : (p.pending supply).errorPort = some port := hport
    simp only [hp, hport, List.foldlM_cons, bind_assoc]
    refine bind_congr fun g₁ => ?_
    have hdraw : drawEdges (ps.map (Place.pending supply)) (p.pending supply).state
        (p.catchId supply) g₁ (catchType.transitions.targets (handlerFields hlist))
        = handled.foldlM Graph.addEdge g₁ := drawEdges_eq hhandled.symm g₁
    rw [hdraw]
    exact bind_congr hown

/-- The second pass adds the edges that the document describes. -/
theorem foldlM_wire_eq {qs : List Place} (hes : qs.flatMap (Place.edges supply ps) = es.map some)
    (g : Graph) : (qs.map (Place.pending supply)).foldlM (wire (ps.map (Place.pending supply))) g
      = es.foldlM Graph.addEdge g := by
  induction qs generalizing g es with
  | nil =>
    rw [List.map_eq_nil_iff.1 hes.symm]
    rfl
  | cons q rest ih =>
    obtain ⟨first, others, rfl, hfirst, hothers⟩ := List.map_eq_append_iff.1 hes.symm
    rw [List.map_cons, List.foldlM_cons, wire_eq hfirst.symm, List.foldlM_append]
    exact bind_congr (ih hothers.symm)

end

/-- The edge joins an output and an input of nodes in the list. -/
def Fits (nodes : List (NodeId × Node)) (e : Edge) : Prop :=
  ∃ source target, (e.source, source) ∈ nodes ∧ (e.target, target) ∈ nodes ∧
    e.output.isWithin source.outputs = true ∧ e.input.isWithin target.inputs = true

/-- An edge that fits is added when its output is free. -/
theorem Builds.addEdge_ok {g : Graph} {nodes : List (NodeId × Node)} {edges : List Edge} {e : Edge}
    (h : Builds supply g nodes edges) (hfit : Fits nodes e)
    (hfree : ∀ f ∈ edges, ¬(f.source = e.source ∧ f.output = e.output)) :
    ∃ g', g.addEdge e = .ok g' ∧ Builds supply g' nodes (edges ++ [e]) := by
  obtain ⟨source, target, hs, ht, ho, hi⟩ := hfit
  obtain ⟨g', hok⟩ := h.shows.addEdge_ok hs ht ho hi (.inr hfree)
  exact ⟨g', hok, (h.addEdge hok).1⟩

/-- Edges that fit are added as long as no two of them leave the same output. -/
theorem Builds.foldlM_addEdge_ok {g : Graph} {nodes : List (NodeId × Node)} {edges es : List Edge}
    (h : Builds supply g nodes edges) (hfit : ∀ e ∈ es, Fits nodes e)
    (hsingle : SingleOutputs (edges ++ es)) : ∃ g', es.foldlM Graph.addEdge g = .ok g' := by
  induction es generalizing g edges with
  | nil => exact ⟨g, rfl⟩
  | cons e rest ih =>
    have hfree := (List.pairwise_append.1 hsingle).2.2
    obtain ⟨g₁, hadd, hb⟩ := h.addEdge_ok (hfit e List.mem_cons_self)
      fun f hf => hfree f hf e List.mem_cons_self
    obtain ⟨g', hg'⟩ := ih hb (fun f hf => hfit f (List.mem_cons_of_mem e hf))
      (by rwa [List.append_assoc])
    exact ⟨g', Except.bind_eq_ok_iff.2 ⟨g₁, hadd, hg'⟩⟩

/-! ### Described edges -/

/-- What is described as two edges does not leave the same output. -/
def OutputsApart (a b : Option Edge) : Prop :=
  ∀ e f, a = some e → b = some f → ¬(e.source = f.source ∧ e.output = f.output)

theorem outputsApart_edgesTo (supply : Nat → NodeId) (ps : List Place) (source : NodeId)
    (r : TransitionRule) (fields : Fields) :
    (edgesTo supply ps source (r.targets fields)).Pairwise OutputsApart := by
  refine List.pairwise_map.2 ((r.nodup_targets fields).imp ?_)
  rintro ⟨port, name⟩ ⟨port', name'⟩ hne e f he hf ⟨-, hout⟩
  obtain ⟨_, -, rfl⟩ := Option.map_eq_some_iff.1 he
  obtain ⟨_, -, rfl⟩ := Option.map_eq_some_iff.1 hf
  exact hne hout

theorem source_of_mem_edges {p : Place} {ps : List Place} {e : Edge}
    (h : some e ∈ p.edges supply ps) : ∃ i < p.size, e.source = supply (p.index + i) := by
  rcases mem_edges_iff.1 h with ⟨hs, port, hhs, -, rfl⟩ | ⟨hs, hhs, h⟩ | h
  · exact ⟨0, p.size_pos, rfl⟩
  · obtain ⟨_, _, _, -, -, rfl⟩ := mem_edgesTo_iff.1 h
    exact ⟨1, by rw [Place.size_of_handlers hhs]; omega, rfl⟩
  · obtain ⟨_, _, _, -, -, rfl⟩ := mem_edgesTo_iff.1 h
    exact ⟨0, p.size_pos, rfl⟩

theorem outputsApart_edges (hd : Distinct supply (1 + 2 * d.states.length)) {p : Place}
    (hp : p ∈ places c d) (ps : List Place) : (p.edges supply ps).Pairwise OutputsApart := by
  unfold Place.edges
  refine List.pairwise_append.2 ⟨?_, outputsApart_edgesTo _ _ _ _ _, ?_⟩
  · cases hs : p.state.handlers with
    | none => exact .nil
    | some hlist =>
      refine List.pairwise_cons.2 ⟨?_, outputsApart_edgesTo _ _ _ _ _⟩
      rintro _ hmem e f he rfl ⟨hsource, -⟩
      obtain ⟨_, -, rfl⟩ := Option.map_eq_some_iff.1 he
      obtain ⟨_, _, _, -, -, rfl⟩ := mem_edgesTo_iff.1 hmem
      exact Place.id_ne_catchId hd hp hp (Place.size_of_handlers hs) hsource
  · cases hs : p.state.handlers with
    | none => exact nofun
    | some hlist =>
      rintro a ha _ hmem e f rfl rfl ⟨hsource, hout⟩
      obtain ⟨_, _, _, hname, -, rfl⟩ := mem_edgesTo_iff.1 hmem
      rcases List.mem_cons.1 ha with ha | ha
      · obtain ⟨port, hport, rfl⟩ := Option.map_eq_some_iff.1 ha.symm
        obtain rfl : port = _ := hout
        exact TransitionRule.ne_error_of_mem_targets hname hport
      · obtain ⟨_, _, _, -, -, rfl⟩ := mem_edgesTo_iff.1 ha
        exact Place.id_ne_catchId hd hp hp (Place.size_of_handlers hs) hsource.symm

theorem outputsApart_edgesOf (hd : Distinct supply (1 + 2 * d.states.length)) :
    (edgesOf settings c supply d).Pairwise OutputsApart := by
  refine List.pairwise_append.2 ⟨?_, List.pairwise_flatMap.2
    ⟨fun p hp => outputsApart_edges hd hp _, ?_⟩, ?_⟩
  · unfold entryEdges
    split
    next => exact List.pairwise_singleton _ _
    next =>
      split
      · exact List.pairwise_singleton _ _
      · exact .nil
    next => exact .nil
  · refine List.Pairwise.imp_of_mem ?_ (pairwise_layout c 1 d.states).1
    rintro p q hp hq hpq _ ha _ hb e f rfl rfl ⟨hsource, -⟩
    obtain ⟨i, hi, he⟩ := source_of_mem_edges ha
    obtain ⟨j, hj, hf⟩ := source_of_mem_edges hb
    have hpos := p.size_pos
    obtain ⟨rfl, -⟩ := eq_of_supply_eq hd hp hq hi hj (he.symm.trans (hsource.trans hf))
    omega
  · rintro _ ha b hb e f rfl rfl ⟨hsource, -⟩
    obtain ⟨p, hp, hb⟩ := List.mem_flatMap.1 hb
    obtain ⟨i, hi, hf⟩ := source_of_mem_edges hb
    rw [source_of_mem_entryEdges ha, hf] at hsource
    exact ne_start_of_mem_places hd hp hi hsource.symm

/-- No two of the edges that a document describes leave the same output. -/
theorem singleOutputs_edgesOf (hd : Distinct supply (1 + 2 * d.states.length)) {es : List Edge}
    (hes : edgesOf settings c supply d = es.map some) : SingleOutputs es := by
  have hapart : (edgesOf settings c supply d).Pairwise OutputsApart := outputsApart_edgesOf hd
  rw [hes, List.pairwise_map] at hapart
  exact hapart.imp fun hef => hef _ _ rfl rfl

/-- Every edge that a document describes joins an output and an input, when every state has an
input. -/
theorem fits_of_mem_edgesOf
    (hinputs : ∀ p ∈ places c d, (1 : Port).isWithin p.type.inputs = true) {e : Edge}
    (he : some e ∈ edgesOf settings c supply d) : Fits (nodesOf c supply d) e := by
  have hcount : ∀ (r : TransitionRule) (fields : Fields) (least : PortCount) {p : Port},
      p.isWithin (r.portsFor fields) = true → p.isWithin (r.outputCount fields least) = true := by
    intro r fields least p hp
    have hle := r.toNat_portsFor_le fields least
    rw [Port.isWithin_iff] at hp ⊢
    omega
  -- Where a name leads to there is the node of a state.
  have hnamed : ∀ {source n targets}, (source, n) ∈ nodesOf c supply d →
      (∀ x ∈ targets, x.1.isWithin n.outputs = true) →
      some e ∈ edgesTo supply (places c d) source targets → Fits (nodesOf c supply d) e := by
    intro source n targets hn houtputs hedge
    obtain ⟨port, name, id, hname, hid, rfl⟩ := mem_edgesTo_iff.1 hedge
    obtain ⟨q, hq, -, rfl⟩ := exists_place_of_nodeNamed? hid
    exact ⟨n, q.node, hn, mem_nodesOf_of_place hq, houtputs _ hname, hinputs q hq⟩
  rcases List.mem_append.1 he with hentry | he
  · obtain ⟨q, hq, rfl⟩ := exists_place_of_mem_entryEdges hentry
    have houtput : (1 : Port).isWithin 1 = true := by decide
    exact ⟨startNode d, q.node, List.mem_cons_self, mem_nodesOf_of_place hq, houtput, hinputs q hq⟩
  · obtain ⟨p, hp, he⟩ := List.mem_flatMap.1 he
    rcases mem_edges_iff.1 he with ⟨hs, port, hhs, hport, rfl⟩ | ⟨hs, hhs, he⟩ | he
    · have hinput : (1 : Port).isWithin 1 = true := by decide
      exact ⟨p.node, catchNode hs, mem_nodesOf_of_place hp, mem_nodesOf_of_handlers hp hhs,
        hcount _ _ _ (TransitionRule.errorPort_isWithin hport _), hinput⟩
    · exact hnamed (mem_nodesOf_of_handlers hp hhs)
        (fun x hx => hcount _ _ _ (TransitionRule.mem_targets_iff.1 hx).1) he
    · exact hnamed (mem_nodesOf_of_place hp)
        (fun x hx => hcount _ _ _ (TransitionRule.mem_targets_iff.1 hx).1) he

theorem none_not_mem_edgesTo {ps : List Place} {source : NodeId} {targets : List (Port × String)}
    (h : ∀ x ∈ targets, ∃ q ∈ ps, q.state.id = x.2) : none ∉ edgesTo supply ps source targets := by
  intro hmem
  obtain ⟨x, hx, hnone⟩ := List.mem_map.1 hmem
  obtain ⟨q, hq, hid⟩ := h x hx
  have hfind := Option.map_eq_none_iff.1 (Option.map_eq_none_iff.1 hnone)
  exact absurd (List.find?_eq_none.1 hfind q hq) (by simpa using hid)

/-- Every edge that a document describes has ends when each name is that of a state with a place,
and error handlers belong to states with an error output. -/
theorem none_not_mem_edgesOf
    (hentry : ∀ name, entryName? d = some name → ∃ q ∈ places c d, q.state.id = name)
    (hnames : ∀ p ∈ places c d, ∀ x ∈ p.type.transitions.targets p.state.fields,
      ∃ q ∈ places c d, q.state.id = x.2)
    (hhandlers : ∀ p ∈ places c d, ∀ hs, p.state.handlers = some hs →
      p.type.transitions.errorPort? ≠ none ∧
        ∀ x ∈ catchType.transitions.targets (handlerFields hs), ∃ q ∈ places c d, q.state.id = x.2) :
    none ∉ edgesOf settings c supply d := by
  intro hmem
  rcases List.mem_append.1 hmem with hmem | hmem
  · unfold entryEdges at hmem
    split at hmem
    next name hname =>
      refine none_not_mem_edgesTo (fun x hx => ?_) hmem
      rw [List.mem_singleton.1 hx]
      exact hentry name hname
    next =>
      split at hmem
      · cases List.mem_singleton.1 hmem
      · cases hmem
    next => cases hmem
  · obtain ⟨p, hp, hmem⟩ := List.mem_flatMap.1 hmem
    rcases List.mem_append.1 hmem with hmem | hmem
    · cases hhs : p.state.handlers with
      | none =>
        rw [hhs] at hmem
        cases hmem
      | some hs =>
        rw [hhs] at hmem
        obtain ⟨hport, hnamed⟩ := hhandlers p hp hs hhs
        rcases List.mem_cons.1 hmem with hnone | hmem
        · exact hport (Option.map_eq_none_iff.1 hnone.symm)
        · exact none_not_mem_edgesTo hnamed hmem
    · exact none_not_mem_edgesTo (hnames p hp) hmem

/-! ### The whole import -/

theorem addStart_ok (hstart : c.get? NodeType.startName = some startType) (g : Graph)
    (start : Option Start) : ∃ r, addStart c supply g start = .ok r := by
  unfold addStart
  rw [Catalog.lookup_eq_ok_iff.2 hstart]
  exact ⟨_, rfl⟩

theorem addState_ok (hcatch : c.get? NodeType.catchName = some catchType) (t : NodeType)
    (dr : Draft) (s : State) :
    ∃ dr', addState c supply t dr s = .ok dr' ∧ dr'.skipped = dr.skipped := by
  unfold addState
  cases s.handlers with
  | none => exact ⟨_, rfl, rfl⟩
  | some hs =>
    simp only [addHandlers, Catalog.lookup_eq_ok_iff.2 hcatch]
    exact ⟨_, rfl, rfl⟩

/-- The first pass leaves out the states of unknown types, if it may. -/
theorem foldlM_takeState_ok (hcatch : c.get? NodeType.catchName = some catchType)
    {states : List State} (hknown : settings.skipUnregistered = true ∨
      ∀ s ∈ states, c.contains s.kind = true) (dr : Draft) :
    ∃ trace dr', states.foldlM (takeState settings c supply) dr = ⟨trace, .ok dr'⟩ ∧
      dr'.skipped = dr.skipped ++
        (states.filter fun s => !c.contains s.kind).map fun s => ⟨s.id, s.kind⟩ := by
  induction states generalizing dr with
  | nil => exact ⟨[], dr, rfl, (List.append_nil _).symm⟩
  | cons s rest ih =>
    have ih := ih (hknown.imp_right fun h s hs => h s (List.mem_cons_of_mem _ hs))
    suffices hfirst : ∃ first dr₁, takeState settings c supply dr s = ⟨first, .ok dr₁⟩ ∧
        dr₁.skipped = dr.skipped ++ if c.contains s.kind then [] else [⟨s.id, s.kind⟩] by
      obtain ⟨first, dr₁, htake, hskipped₁⟩ := hfirst
      obtain ⟨trace, dr', hfold, hskipped⟩ := ih dr₁
      refine ⟨first ++ trace, dr', ?_, ?_⟩
      · rw [List.foldlM_cons]
        exact Traced.bind_eq_ok_iff.2 ⟨_, _, _, htake, hfold, rfl⟩
      · rw [hskipped, hskipped₁, List.append_assoc, List.filter_cons]
        cases c.contains s.kind <;> rfl
    unfold takeState Catalog.contains
    cases ht : c.get? s.kind with
    | some t =>
      obtain ⟨dr₁, hadd, hskipped⟩ :
          ∃ dr₁, addState c supply t dr s = .ok dr₁ ∧ dr₁.skipped = dr.skipped :=
        addState_ok hcatch t dr s
      exact ⟨[], dr₁, by rw [← hadd]; rfl, by rw [hskipped]; exact (List.append_nil _).symm⟩
    | none =>
      have hskip : settings.skipUnregistered = true := hknown.resolve_right fun h => by
        have hs := h s List.mem_cons_self
        rw [Catalog.contains, ht] at hs
        cases hs
      simp only [hskip, if_true]
      exact ⟨_, _, rfl, rfl⟩

theorem entryNode_ok {ps : List Place} {entry : Option String}
    (h : none ∉ entryEdges settings supply ps entry) : ∃ trace node,
      entryNode settings (ps.map (Place.pending supply)) entry = ⟨trace, .ok node⟩ := by
  cases entry with
  | some name =>
    cases hid : nodeNamed? supply ps name with
    | none =>
      refine absurd ?_ h
      simp [entryEdges, edgesTo, hid]
    | some id =>
      have hresolve : resolve (ps.map (Place.pending supply)) NodeType.startName name = .ok id :=
        resolve_eq_ok_iff.2 hid
      refine ⟨[], some id, ?_⟩
      simp only [entryNode, hresolve]
      rfl
  | none =>
    cases ps with
    | nil => exact ⟨_, _, rfl⟩
    | cons p rest =>
      simp only [entryNode, List.map_cons]
      split
      · exact ⟨_, _, rfl⟩
      · exact ⟨_, _, rfl⟩

/-- An import ends with a graph when the ids of the states are different, their types are known or
may be left out, and every edge that the document describes has both ends. It leaves out the states
of unknown types. -/
theorem toGraph_ok (hstart : c.get? NodeType.startName = some startType)
    (hcatch : c.get? NodeType.catchName = some catchType)
    (hd : Distinct supply (1 + 2 * d.states.length))
    (hentry : ((startType.transitions.targets (startFields d)).head?).map Prod.snd = entryName? d)
    (hids : (d.states.map State.id).Nodup)
    (hknown : settings.skipUnregistered = true ∨ ∀ s ∈ d.states, c.contains s.kind = true)
    (hinputs : ∀ p ∈ places c d, (1 : Port).isWithin p.type.inputs = true)
    (hends : none ∉ edgesOf settings c supply d) :
    ∃ r, (d.toGraph settings c supply).outcome = .ok r ∧ r.skipped =
      (d.states.filter fun s => !c.contains s.kind).map fun s => ⟨s.id, s.kind⟩ := by
  obtain ⟨es, hes⟩ := List.exists_eq_map_some hends
  have hrep : repeatedId? [] d.states = none :=
    repeatedId?_eq_none_iff.2 ⟨hids, fun _ _ => List.not_mem_nil⟩
  obtain ⟨⟨id, entry, g₀⟩, hadd⟩ : ∃ r₀, addStart c supply (.empty ⟨d.functions, d.extra⟩) d.start
      = .ok r₀ := addStart_ok hstart _ _
  obtain ⟨rfl, rfl, hb₀, -⟩ := addStart_builds hstart hd (by omega) hadd
  obtain ⟨trace₁, draft, hfold, hskipped⟩ : ∃ trace draft,
      d.states.foldlM (takeState settings c supply) ⟨g₀, [], []⟩ = ⟨trace, .ok draft⟩ ∧
        draft.skipped = [] ++
          (d.states.filter fun s => !c.contains s.kind).map fun s => ⟨s.id, s.kind⟩ :=
    foldlM_takeState_ok hcatch hknown _
  obtain ⟨hb₁, hpending, -⟩ := foldlM_takeState_builds hcatch hd hb₀ (by simp) hfold
  have hpending : draft.pending = (places c d).map (Place.pending supply) := hpending
  obtain ⟨first, rest, rfl, hfirst, hrest⟩ := List.map_eq_append_iff.1 hes.symm
  have hentered : none ∉ entryEdges settings supply (places c d) (entryName? d) :=
    fun hmem => hends (List.mem_append_left _ hmem)
  obtain ⟨trace₂, node, hnode⟩ := entryNode_ok hentered
  have hfirst : first.map some
      = (node.map fun id => some (Edge.ofOutput (supply 0) 1 id)).toList :=
    hfirst.trans (entryNode_eq hnode)
  obtain ⟨g', hall⟩ : ∃ g', (first ++ rest).foldlM Graph.addEdge draft.graph = .ok g' :=
    hb₁.foldlM_addEdge_ok
      (fun e he => fits_of_mem_edgesOf hinputs (hes ▸ List.mem_map_of_mem he))
      (singleOutputs_edgesOf hd hes)
  rw [List.foldlM_append] at hall
  obtain ⟨g₁, hg₁, hg'⟩ := Except.bind_eq_ok_iff.1 hall
  rw [← foldlM_wire_eq hrest.symm] at hg'
  suffices h : ∃ trace, d.toGraph settings c supply = ⟨trace, .ok ⟨g', draft.skipped⟩⟩ by
    obtain ⟨trace, h⟩ := h
    exact ⟨⟨g', draft.skipped⟩, by rw [h], hskipped⟩
  have hwire : (do
      let g ← liftM (draft.pending.foldlM (wire draft.pending) g₁)
      return ⟨g, draft.skipped⟩ : Traced Warning Error Imported)
      = ⟨[], .ok ⟨g', draft.skipped⟩⟩ := by
    rw [hpending]
    exact Traced.liftM_bind_eq_ok_iff.2 ⟨g', hg', rfl⟩
  unfold Document.toGraph
  simp only [hrep]
  rw [← hentry, ← hpending] at hnode
  refine ⟨_, Traced.liftM_bind_eq_ok_iff.2 ⟨_, hadd, Traced.bind_eq_ok_iff.2
    ⟨trace₁, draft, _, hfold, Traced.bind_eq_ok_iff.2 ⟨trace₂, node, [], hnode, ?_, rfl⟩, rfl⟩⟩⟩
  cases node with
  | none =>
    obtain rfl := List.map_eq_nil_iff.1 hfirst
    obtain rfl := Except.ok.inj hg₁
    exact hwire
  | some entry =>
    obtain ⟨e, rfl, he⟩ := List.map_eq_singleton_iff.1 hfirst
    obtain rfl := Option.some.inj he
    obtain ⟨g₂, hadd, hg₂⟩ := Except.bind_eq_ok_iff.1 hg₁
    obtain rfl := Except.ok.inj hg₂
    exact Traced.liftM_bind_eq_ok_iff.2 ⟨g₂, hadd, hwire⟩

end Import

end Workflow
