import Workflow.Proofs.Import.RoundTrip
import Workflow.Proofs.Import.Walked
import Workflow.Proofs.NodeType.Settled

/-!
# A document that was compiled and is imported again

Once a document was imported and compiled, nothing changes any more when this is done again, but for
retries that are a list of one policy: an import replaces such a list by its policy, every time
(`Document.settled`). The states are the same because their forms were fields
(`Emits.isStateOf_settled`), and they are in the same order because both graphs are walked alike
(`Emits.compile_settled`). `normalize_settled` is the statement about documents.
-/

namespace Workflow

/-- A state after another import and compilation: retries that are still a list of one policy are
replaced by this policy. -/
def State.settled (s : State) : State :=
  match Catalog.standard.get? s.kind with
  | some t => { s with fields := t.form.prepare s.fields }
  | none => s

/-- A document after another import and compilation. -/
def Document.settled (d : Document) : Document := { d with states := d.states.map State.settled }

/-- Imports a document and compiles its graph, with the types of the editor; gives the states that
the import left out, too. -/
def Document.normalize (settings : Settings) (supply : Nat → NodeId) (d : Document) :
    Except Error (List SkippedState × Document) := do
  let r ← (d.toGraph settings .standard supply).outcome
  let result ← (r.graph.compile .standard).outcome
  return (r.skipped, result)

namespace Import

open Compile

variable {settings : Settings} {supply : Nat → NodeId} {d : Document} {g : Graph}

/-! ### Imported graphs -/

theorem keyed_nodesOf (hw : d.WellFormed) :
    ∀ x ∈ nodesOf .standard supply d, Json.KeyedFields x.2.form := by
  have hform : ∀ (kind : String) (t : NodeType) {fields : Fields}, Json.KeyedFields fields →
      Json.KeyedFields (rawNode kind t fields).form := fun kind t _ hkeyed =>
    NodeType.keyed_toForm (t.transitions.keyed_strip hkeyed)
  intro x hx
  rcases mem_nodesOf hx with rfl | ⟨p, hp, rfl | ⟨hs, -, rfl⟩⟩
  · exact hform NodeType.startName startType (keyed_startFields fun s hs => (hw.start s hs).1)
  · exact hform p.state.kind p.type (hw.states _ (get?_of_mem_layout hp).2).fields.1
  · exact hform NodeType.catchName catchType (keyed_handlerFields hs)

theorem SingleOutputs.nodup_outputs {edges : List Edge} (h : SingleOutputs edges) (id : NodeId) :
    ((edges.filter (·.source = id)).map Edge.output).Nodup := by
  refine List.pairwise_map.2 (List.Pairwise.imp_of_mem ?_ (List.Pairwise.filter _ h))
  intro e f he hf hef hout
  have hsource := of_decide_eq_true (List.mem_filter.1 he).2
  exact hef ⟨hsource.trans (of_decide_eq_true (List.mem_filter.1 hf).2).symm, hout⟩

/-- The graph of a document is orderly, whatever the types of its states are. -/
theorem Builds.orderly {edges : List Edge} (hw : d.WellFormed)
    (h : Builds supply g (nodesOf .standard supply d) edges) : g.Orderly where
  consistent := h.shows.consistent
  typed _ _ hn := isTyped_nodesOf _ (h.shows.node?_eq_some_iff.1 hn)
  keyed _ _ hn := keyed_nodesOf hw _ (h.shows.node?_eq_some_iff.1 hn)
  single id := by
    rw [h.shows.outgoing_eq]
    exact (h.single fanOut_nodesOf).nodup_outputs id

/-- The forms of states are those of fields, whose transforms read back. -/
def FormsRead (g : Graph) : Prop :=
  ∀ id n t, g.node? id = some n → n.isPrimitive = true → Catalog.standard.get? n.kind = some t →
    ∃ fields, n.form = t.form.toForm (t.transitions.strip fields) ∧ Json.KeyedFields fields ∧
      ∀ v ∈ t.transforms fields, Transform.ReadsBack v

theorem Builds.formsRead {edges : List Edge} (hw : d.WellFormed)
    (hr : ∀ s ∈ d.states, ∀ t, Catalog.standard.get? s.kind = some t →
      ∀ v ∈ t.transforms s.fields, Transform.ReadsBack v)
    (h : Builds supply g (nodesOf .standard supply d) edges) : FormsRead g := by
  intro id n t hn hp ht
  rcases mem_nodesOf (h.shows.node?_eq_some_iff.1 hn) with he | ⟨q, hq, he | ⟨hs, -, he⟩⟩
  · cases he
    cases hp
  · cases he
    obtain ⟨hkind, hmem⟩ := get?_of_mem_layout hq
    obtain rfl := Option.some.inj (hkind.symm.trans ht)
    exact ⟨q.state.fields, rfl, (hw.states _ hmem).fields.1, hr _ hmem _ hkind⟩
  · cases he
    cases hp

namespace Drawn

theorem single (h : Drawn settings .standard supply d g) (id : NodeId) : Single g id := by
  obtain ⟨es, hes, hshows⟩ := h.shows
  rw [Single, hshows.outgoing_eq]
  exact (singleOutputs_edgesOf h.distinct hes).nodup_outputs id

/-- Of the nodes of a place, only that of its state can be a root. -/
theorem filter_roots_nodes (h : Drawn settings .standard supply d g) {p : Place}
    (hp : p ∈ places .standard d) : ((p.nodes supply).map Prod.fst).filter (· ∈ roots g)
      = [p.id supply].filter (· ∈ roots g) := by
  obtain ⟨es, -, hshows⟩ := h.shows
  unfold Place.nodes
  cases hhs : p.state.handlers with
  | none => rfl
  | some hs =>
    have hcatch : p.catchId supply ∉ roots g :=
      not_mem_roots_of_node? hshows.consistent (h.node?_catchId hp hhs) rfl
    show ([p.id supply] ++ [p.catchId supply]).filter _ = _
    rw [List.filter_append, List.filter_cons_of_neg (a := p.catchId supply) (by simpa using hcatch)]
    exact List.append_nil _

/-- The roots are among the nodes of the places, in their order. -/
theorem filter_roots (h : Drawn settings .standard supply d g) :
    ((places .standard d).map (Place.id supply)).filter (· ∈ roots g) = roots g := by
  obtain ⟨es, -, hshows⟩ := h.shows
  have hnd : (g.nodes.map Prod.fst).Nodup := hshows.nodes_eq ▸ hshows.nodup
  have hnodes : g.nodes.map Prod.fst
      = supply 0 :: (places .standard d).flatMap fun p => (p.nodes supply).map Prod.fst := by
    rw [hshows.nodes_eq, nodesOf, List.map_cons, List.map_flatMap]
  have hstart : supply 0 ∉ roots g := not_mem_roots_of_node? hshows.consistent
    (hshows.node?_eq_some_iff.2 List.mem_cons_self) rfl
  calc ((places .standard d).map (Place.id supply)).filter (· ∈ roots g)
      = ((places .standard d).flatMap fun p => [p.id supply]).filter (· ∈ roots g) := by
        rw [List.map_eq_flatMap]
    _ = ((places .standard d).flatMap fun p => (p.nodes supply).map Prod.fst).filter
          (· ∈ roots g) := by
        rw [List.filter_flatMap, List.filter_flatMap]
        exact (List.flatMap_congr fun p hp => h.filter_roots_nodes hp).symm
    _ = (g.nodes.map Prod.fst).filter (· ∈ roots g) := by
        rw [hnodes, List.filter_cons_of_neg (by simpa using hstart)]
    _ = roots g := filter_mem_roots hnd

end Drawn

end Import

namespace Compile

open Import

/-- Error handlers of a compiled state are never an empty list. -/
theorem IsStateOf.filter_handlers {c : Catalog} {g : Graph} {x : NodeId} {s : State}
    (h : IsStateOf c g x s) : s.handlers.filter (fun hs => !hs.isEmpty) = s.handlers := by
  obtain ⟨-, -, -, -, lists, -, -, -, -, -, -, -, -, -, -, hhandlers⟩ := h
  rw [hhandlers, Option.filter_filter]
  simp only [Bool.and_self]

namespace Emits

variable {settings : Settings} {supply : Nat → NodeId} {d : Document} {g g' : Graph}
  {entry : NodeId} {ids : List NodeId} {q : Place}

/-- In the graph of a compiled document, each state is compiled to itself, but for its retries. -/
theorem isStateOf_settled (h : Emits .standard g d entry ids) (hg : g.Orderly) (hr : FormsRead g)
    (hdrawn : Drawn settings .standard supply d g') (hq : q ∈ places .standard d) :
    IsStateOf .standard g' (q.id supply) q.state.settled := by
  obtain ⟨x, hx, hstate⟩ := h.exists_state hq
  obtain ⟨hkind, hmem⟩ := get?_of_mem_layout hq
  obtain ⟨n, outputs, form, hn, hnkind, ho, hfit, hw, hform⟩ := hstate.exists_form hkind
  have hname := hstate.stateName_eq
  have hp : n.isPrimitive = true := by
    obtain ⟨m, hm, hp, -⟩ := stateName_eq_ok_iff.1 hname
    obtain rfl := Option.some.inj (hn.symm.trans hm)
    exact hp
  obtain ⟨fields, hfields, hkeyed, hreads⟩ := hr x n q.type hn hp (hnkind ▸ hkind)
  rw [hfields] at hw
  obtain ⟨form', hform', hresult⟩ := NodeType.fields_settle (Catalog.apart_of_standard hkind)
    (Catalog.separate_of_standard hkind) hkeyed hreads (fun w hw => exists_port_of_mem_written hw)
    hw hform
  have hout := (hdrawn.wired_node hq).outputsOf_eq (hdrawn.node?_id hq)
    (TransitionRule.toNat_portsFor_le q.type.transitions q.state.fields q.type.outputs)
  have hwritten : writtenFor .standard g' (q.id supply) = written g q.type outputs := by
    rw [← writtenFor_eq hn (hnkind ▸ hkind) ho]
    exact (h.reproduces hg hdrawn).writtenFor_eq (List.mem_map_of_mem hmem) hname
      (hdrawn.stateName_id hq) (hg.single x) (hdrawn.single _) hn (hdrawn.node?_id hq) hnkind.symm
      (hnkind ▸ hkind) ho hout hfit ((hdrawn.wired_node hq).outputsFit hout)
  rw [← hwritten] at hform'
  have hsettled : q.state.settled = ⟨q.state.id, q.state.kind, q.type.form.prepare q.state.fields,
      q.state.handlers.filter fun hs => !hs.isEmpty⟩ := by
    rw [State.settled, hkind, hstate.filter_handlers]
  rw [hsettled]
  exact hdrawn.isStateOf hq (fun hs hhs => hstate.handlers_wellFormed hhs) hform' hresult

/-- The nodes that were walked over and the nodes of the document stand for the same states. -/
theorem sameState_places (h : Emits .standard g d entry ids) (hg : g.Orderly)
    (hdrawn : Drawn settings .standard supply d g') :
    List.Forall₂ (SameState g g') ids ((places .standard d).map (Place.id supply)) := by
  have hstates := h.states
  rw [← h.map_state_places hg, List.forall₂_map_right_iff] at hstates
  refine List.forall₂_map_right_iff.2 (hstates.flip.imp_mem fun q hq x hx => ?_).flip
  exact ⟨q.state.id, IsStateOf.stateName_eq hx, hdrawn.stateName_id hq⟩

/-- Both graphs have the state of a place at nodes that stand for it. -/
theorem exists_place_of_sameState (h : Emits .standard g d entry ids) (hg : g.Orderly)
    (hdrawn : Drawn settings .standard supply d g') {x x' : NodeId} (hx : x ∈ ids)
    (hsame : SameState g g' x x') : ∃ q ∈ places .standard d, q.id supply = x' ∧
      IsStateOf .standard g x q.state ∧ stateName g x = .ok q.state.id := by
  obtain ⟨name, hname, hname'⟩ := hsame
  have hmem : name ∈ d.states.map State.id := nameOf_of_stateName hname ▸ h.nameOf_mem hx
  obtain ⟨q, hq, rfl, rfl, hstate⟩ := h.exists_place_of_stateName hg hdrawn hmem hname hname'
  exact ⟨q, hq, rfl, hstate, hname⟩

/-- Each state has one node in both graphs. -/
theorem biUnique_sameState (h : Emits .standard g d entry ids) (hg : g.Orderly)
    (hdrawn : Drawn settings .standard supply d g') : Relator.BiUnique (SameState g g') := by
  constructor
  · rintro x y _ ⟨name, hx, hx'⟩ ⟨other, hy, hy'⟩
    obtain rfl := Except.ok.inj (hx'.symm.trans hy')
    exact eq_of_stateName hg.consistent.labelled h.valid hx hy
  · rintro _ x' y' ⟨name, hx, hx'⟩ ⟨other, hy, hy'⟩
    obtain rfl := Except.ok.inj (hx.symm.trans hy)
    exact hdrawn.eq_of_stateName hx' hy'

/-- The same states have to follow a state in both graphs, in the same order. -/
theorem trace_matches (h : Emits .standard g d entry ids) (hg : g.Orderly) (hr : FormsRead g)
    (hdrawn : Drawn settings .standard supply d g') {x x' : NodeId} (hx : x ∈ ids)
    (hsame : SameState g g' x x') : List.Forall₂ (fun y y' => y ∈ ids ∧ SameState g g' y y')
      (expand .standard g x).trace (expand .standard g' x').trace := by
  obtain ⟨q, hq, rfl, hstate, hname⟩ := h.exists_place_of_sameState hg hdrawn hx hsame
  have hstate' := h.isStateOf_settled hg hr hdrawn hq
  have hkind : q.state.settled.kind = q.state.kind := by
    rw [State.settled, (get?_of_mem_layout hq).1]
  have htrace := (h.reproduces hg hdrawn).trace_matches hg hdrawn.single
    (List.mem_map_of_mem (get?_of_mem_layout hq).2) hname (hdrawn.stateName_id hq) hstate hstate'
    hkind
  refine htrace.imp_mem fun y hy y' hyy' => ⟨h.closed x hx y ?_, hyy'⟩
  exact (expand_leads_iff (expand_outcome_iff.2 hstate)).1 hy

/-- One state leads to another one in both graphs or in neither. -/
theorem leadsTo_iff (h : Emits .standard g d entry ids) (hg : g.Orderly) (hr : FormsRead g)
    (hdrawn : Drawn settings .standard supply d g') {x x' y y' : NodeId} (hx : x ∈ ids)
    (hxx' : SameState g g' x x') (hyy' : SameState g g' y y') :
    LeadsTo .standard g x y ↔ LeadsTo .standard g' x' y' := by
  have htrace := h.trace_matches hg hr hdrawn hx hxx'
  obtain ⟨q, hq, rfl, hstate, -⟩ := h.exists_place_of_sameState hg hdrawn hx hxx'
  have hstate' := h.isStateOf_settled hg hr hdrawn hq
  rw [← expand_leads_iff (expand_outcome_iff.2 hstate),
    ← expand_leads_iff (expand_outcome_iff.2 hstate')]
  exact List.rel_mem (h.biUnique_sameState hg hdrawn) hyy' (htrace.imp fun _ _ hzz' => hzz'.2)

/-- The entry state has a node in both graphs. -/
theorem exists_isEntry (h : Emits .standard g d entry ids)
    (hdrawn : Drawn settings .standard supply d g') :
    ∃ p, Drawn.IsEntry settings supply d p ∧ SameState g g' entry (p.id supply) ∧
      d.start = some (d.startAt p.state.id) := by
  obtain ⟨start, e, block, -, -, rfl, hb, hd⟩ := h.start
  obtain ⟨n, name, t, form, -, hname, -, -, hof⟩ := startOf_eq_ok_iff.1 hb
  have hentry : entryName? d = some name := by
    rw [entryName?, hd]
    exact state_of_ofForm hof
  obtain ⟨p, hp, rfl⟩ := hdrawn.exists_isEntry_of_name hentry
  refine ⟨p, hp, ⟨p.state.id, hname, hdrawn.stateName_id hp.1⟩, ?_⟩
  rw [Document.startAt_of_ofForm hof hd, hd]

/-- The states that nothing leads to are the same in both graphs, in the same order. -/
theorem roots_match (h : Emits .standard g d entry ids) (hg : g.Orderly) (hr : FormsRead g)
    {edges : List Edge} (hedges : g.Holds edges) (hnd : (g.nodes.map Prod.fst).Nodup)
    (hdrawn : Drawn settings .standard supply d g') :
    List.Forall₂ (fun x x' => x ∈ ids ∧ SameState g g' x x') (roots g) (roots g') := by
  obtain ⟨p, hp, hentry, -⟩ := h.exists_isEntry hdrawn
  have hplaces := h.sameState_places hg hdrawn
  have hmatch : List.Forall₂ (fun x x' => x ∈ ids ∧ SameState g g' x x') ids
      ((places .standard d).map (Place.id supply)) := hplaces.imp_mem fun x hx _ hxx' => ⟨hx, hxx'⟩
  rw [← h.filter_roots hedges hnd, ← hdrawn.filter_roots]
  refine hmatch.filter fun x _ x' hxx' => decide_eq_decide.2 ?_
  obtain ⟨hx, hsame⟩ := hxx'
  obtain ⟨q, hq, rfl, -, -⟩ := h.exists_place_of_sameState hg hdrawn hx hsame
  rw [h.mem_roots_iff hedges hx, hdrawn.mem_roots_iff hp hq]
  refine and_congr (not_congr ?_) ?_
  · have hiff : x = entry ↔ q.id supply = p.id supply :=
      Relator.rel_eq (h.biUnique_sameState hg hdrawn) hsame hentry
    rw [hiff]
    exact ⟨Place.id_injective hdrawn.distinct hq hp.1, congrArg (Place.id supply)⟩
  · constructor
    · intro hnone p' hp' hleads
      obtain ⟨y, hy, hyy'⟩ := hplaces.exists_of_mem_right (List.mem_map_of_mem hp')
      exact hnone y hy ((h.leadsTo_iff hg hr hdrawn hy hyy' hsame).2 hleads)
    · intro hnone y hy hleads
      obtain ⟨y', hy', hyy'⟩ := hplaces.exists_of_mem_left hy
      obtain ⟨p', hp', rfl⟩ := List.mem_map.1 hy'
      exact hnone p' hp' ((h.leadsTo_iff hg hr hdrawn hy hyy' hsame).1 hleads)

/-- The graph of a compiled document is compiled to this document, with its states settled. -/
theorem compile_settled (h : Emits .standard g d entry ids) (hg : g.Orderly) (hr : FormsRead g)
    {edges : List Edge} (hedges : g.Holds edges) (hnd : (g.nodes.map Prod.fst).Nodup)
    (hdrawn : Drawn settings .standard supply d g')
    (hmetadata : g'.metadata = ⟨d.functions, d.extra⟩) : (g'.compile .standard).outcome = .ok d.settled := by
  obtain ⟨p, hp, hentry, hstart⟩ := h.exists_isEntry hdrawn
  obtain ⟨w', hw', hcompile⟩ := hdrawn.compile_ok (h.start_wellFormed hg)
    (fun q hq => ⟨_, h.isStateOf_settled hg hr hdrawn hq⟩) hp
  obtain ⟨w, hw, hfinished⟩ := h.walk
  have hstates : List.Forall₂ (fun s s' => s' = s.settled) w.finished w'.finished := by
    refine statesOf_matches (R := fun x x' => x ∈ ids ∧ SameState g g' x x') ?_ ?_ ?_
      ⟨h.entry_mem, hentry⟩ (h.roots_match hg hr hedges hnd hdrawn) hw hw'
    · have hunique := h.biUnique_sameState hg hdrawn
      exact ⟨fun _ _ _ hx hy => hunique.1 hx.2 hy.2, fun _ _ _ hx hy => hunique.2 hx.2 hy.2⟩
    · exact fun x x' hx => h.trace_matches hg hr hdrawn hx.1 hx.2
    · intro x x' s s' hx hs hs'
      obtain ⟨q, hq, rfl, hstate, -⟩ := h.exists_place_of_sameState hg hdrawn hx.1 hx.2
      obtain rfl := hstate.unique (expand_outcome_iff.1 hs)
      exact (expand_outcome_iff.1 hs').unique (h.isStateOf_settled hg hr hdrawn hq)
  have hmap : w'.finished = d.states.map State.settled := by
    rw [← hfinished, ← List.forall₂_eq_eq_eq]
    exact List.forall₂_map_right_iff.2 hstates.flip
  rw [hcompile, hmetadata, hmap, ← hstart]
  rfl

end Emits

end Compile

namespace Import

/-- With any settings, the document of an import is imported without an error, no state is left out,
and it is compiled to the same document, the order of states and keys included, but for retries that
are still a list of one policy. It is enough that the transforms of the first document read back. -/
theorem normalize_settled {settings settings' : Settings} {supply supply' : Nat → NodeId}
    {d result : Document} {skipped : List SkippedState} (hw : d.WellFormed)
    (hreads : ∀ s ∈ d.states, ∀ t, Catalog.standard.get? s.kind = some t →
      ∀ v ∈ t.transforms s.fields, Transform.ReadsBack v)
    (hsupply : Distinct supply (1 + 2 * d.states.length))
    (h : d.normalize settings supply = .ok (skipped, result))
    (hsupply' : Distinct supply' (1 + 2 * result.states.length)) :
    result.normalize settings' supply' = .ok ([], result.settled) := by
  obtain ⟨r, himport, h⟩ := Except.bind_eq_ok_iff.1 h
  obtain ⟨d₁, hcompile, h⟩ := Except.bind_eq_ok_iff.1 h
  cases h
  obtain ⟨-, -, es, -, hb⟩ :=
    toGraph_builds standard_startName standard_catchName hsupply (entryName?_eq hw.start) himport
  have hg := hb.orderly hw
  obtain ⟨entry, ids, hemits⟩ := Compile.emits_of_compile hg.consistent.labelled hcompile
  obtain ⟨r', himport', hskipped, hmetadata, hdrawn⟩ := hemits.toGraph_ok hg hsupply'
  have hnd : (r.graph.nodes.map Prod.fst).Nodup := hb.shows.nodes_eq ▸ hb.shows.nodup
  have hcompile' := hemits.compile_settled hg (hb.formsRead hw hreads) hb.shows.holds hnd hdrawn
    hmetadata
  refine Except.bind_eq_ok_iff.2 ⟨r', himport', Except.bind_eq_ok_iff.2 ⟨_, hcompile', ?_⟩⟩
  rw [hskipped]
  rfl

/-- A text with retries that are a list in a list, a transform and a state that no state names. -/
def retryText : String :=
  "start:\n  state: a\nstates:\n- id: b\n  type: noop\n  transition: a\n" ++
    "- id: a\n  type: foreach\n  action:\n    retries:\n    - - p\n  transform:\n  - x\n"

/-- The document of `retryText`. -/
def retryDocument : Document :=
  ⟨[], none, some ⟨none, some "a", []⟩,
    [⟨"b", "noop", [("transition", .str "a")], none⟩,
      ⟨"a", "foreach", [("action", .obj [("retries", .arr [.arr [.str "p"]])]),
        ("transform", .arr [.str "x"])], none⟩]⟩

/-- The document after one import and compilation. -/
def retriedDocument : Document :=
  ⟨[], none, some ⟨none, some "a", []⟩,
    [⟨"a", "foreach", [("action", .obj [("retries", .arr [.str "p"])]),
        ("transform", .arr [.str "x"])], none⟩,
      ⟨"b", "noop", [("transition", .str "a")], none⟩]⟩

theorem read_retryText : Document.ofYamlText retryText = .ok retryDocument := by decide +kernel

theorem normalize_retryDocument :
    retryDocument.normalize {} NodeId.ofNat = .ok ([], retriedDocument) := by decide +kernel

theorem normalize_retryDocument_settled :
    retryDocument.normalize {} NodeId.ofNat = .ok ([], retriedDocument) ∧
      retriedDocument.normalize {} NodeId.ofNat = .ok ([], retriedDocument.settled) := by
  have hreads : ∀ s ∈ retryDocument.states, ∀ t, Catalog.standard.get? s.kind = some t →
      ∀ v ∈ t.transforms s.fields, Transform.ReadsBack v := by
    have hsame : ∀ s ∈ retryDocument.states, (Catalog.standard.get? s.kind).all (fun t =>
        (t.transforms s.fields).all (· = .arr [.str "x"])) = true := by decide +kernel
    have hread : Transform.yamlValue (Yaml.print (.arr [.str "x"])) = .ok (.arr [.str "x"]) := by
      decide +kernel
    intro s hs t ht v hv w hw
    have hall := hsame s hs
    rw [ht, Option.all_some, List.all_eq_true] at hall
    obtain rfl := of_decide_eq_true (hall v hv)
    cases hw
    exact hread
  exact ⟨normalize_retryDocument,
    normalize_settled (Document.wellFormed_of_yaml read_retryText) hreads (distinct_ofNat (by decide))
      normalize_retryDocument (distinct_ofNat (by decide))⟩

/-- The document of an import is not always the one that it is compiled to again. -/
theorem normalize_retryDocument_changes :
    Document.ofYamlText retryText = .ok retryDocument ∧
      retryDocument.normalize {} NodeId.ofNat = .ok ([], retriedDocument) ∧
      retriedDocument.normalize {} NodeId.ofNat ≠ .ok ([], retriedDocument) :=
  ⟨read_retryText, normalize_retryDocument, by decide +kernel⟩

end Import

end Workflow
