import Workflow.Proofs.Except
import Workflow.Proofs.Graph.Sound
import Workflow.Proofs.Graph.View
import Workflow.Proofs.Import.Layout
import Workflow.Proofs.Traced

/-!
# What an import builds

An import only ever adds to its graph, so the graph is told by the lists of its nodes and its edges
(`Builds`). This file follows these lists through the two passes over the states: the first one adds
the nodes (`foldlM_takeState_builds`), the second one the edges (`foldlM_wire_builds`). Together
they give the graph that the document describes (`toGraph_builds`). What a step did when it ended
with a graph is told for types of any description (`addState_eq_ok`, `toGraph_eq_ok`).
-/

namespace Workflow.Import

/-! ### Building nodes -/

/-- Different positions get different identifiers, as far as `count`. -/
def Distinct (supply : Nat → NodeId) (count : Nat) : Prop :=
  ∀ i j, i < count → j < count → supply i = supply j → i = j

/-- Each node has the identifier of its position. -/
def Numbered (supply : Nat → NodeId) (nodes : List (NodeId × Node)) : Prop :=
  nodes.map Prod.fst = (List.range nodes.length).map supply

theorem Numbered.append {supply : Nat → NodeId} {nodes : List (NodeId × Node)}
    (h : Numbered supply nodes) (n : Node) :
    Numbered supply (nodes ++ [(supply nodes.length, n)]) := by
  unfold Numbered at h ⊢
  rw [List.map_append, h, List.length_append, List.length_singleton, List.range_succ,
    List.map_append]
  rfl

theorem Numbered.not_mem {supply : Nat → NodeId} {nodes : List (NodeId × Node)} {count : Nat}
    (h : Numbered supply nodes) (hd : Distinct supply count) (hlt : nodes.length < count) :
    supply nodes.length ∉ nodes.map Prod.fst := by
  unfold Numbered at h
  rw [h, List.mem_map]
  rintro ⟨i, hi, heq⟩
  rw [List.mem_range] at hi
  have := hd i nodes.length (by omega) hlt heq
  omega

/-- No two edges leave the same output. -/
def SingleOutputs (edges : List Edge) : Prop :=
  edges.Pairwise fun e f => ¬(e.source = f.source ∧ e.output = f.output)

/-- A graph under construction, from which nothing was erased and whose nodes are numbered. While no
node has an output that takes more than one edge, no output has more than one. -/
structure Builds (supply : Nat → NodeId) (g : Graph) (nodes : List (NodeId × Node))
    (edges : List Edge) : Prop where
  shows : g.Shows nodes edges
  sound : g.Sound edges
  numbered : Numbered supply nodes
  single : (∀ x ∈ nodes, x.2.fanOut = []) → SingleOutputs edges

theorem Builds.insertNext {supply : Nat → NodeId} {g : Graph} {nodes : List (NodeId × Node)}
    {edges : List Edge} {count : Nat} (h : Builds supply g nodes edges)
    (hd : Distinct supply count) (hlt : nodes.length < count) (n : Node) :
    (insertNext supply g n).1 = supply nodes.length ∧
      Builds supply (insertNext supply g n).2 (nodes ++ [(supply nodes.length, n)]) edges ∧
      (insertNext supply g n).2.metadata = g.metadata := by
  unfold Import.insertNext
  rw [h.shows.nodeCount_eq]
  have hnew := h.numbered.not_mem hd hlt
  have hfree : g.contains (supply nodes.length) = false :=
    Bool.eq_false_iff.2 fun hc => hnew (h.shows.contains_iff.1 hc)
  refine ⟨rfl, ⟨h.shows.insert hnew n, h.sound.insert hfree n, h.numbered.append n, ?_⟩, rfl⟩
  exact fun hf => h.single fun x hx => hf x (List.mem_append_left _ hx)

theorem Builds.addEdge {supply : Nat → NodeId} {g g' : Graph} {nodes : List (NodeId × Node)}
    {edges : List Edge} {e : Edge} (h : Builds supply g nodes edges) (he : g.addEdge e = .ok g') :
    Builds supply g' nodes (edges ++ [e]) ∧ g'.metadata = g.metadata := by
  obtain ⟨hshows, hmeta, source, -, hsource, -, -, -, hfree⟩ := h.shows.addEdge he
  refine ⟨⟨hshows, h.sound.addEdge he, h.numbered, fun hf => ?_⟩, hmeta⟩
  refine List.pairwise_append.2 ⟨h.single hf, List.pairwise_singleton _ _, ?_⟩
  intro f hmem e' he'
  obtain rfl := List.mem_singleton.1 he'
  rcases hfree with hout | hnone
  · have hnil : source.fanOut = [] := hf _ hsource
    rw [Node.allowsFanOut, hnil] at hout
    cases hout
  · exact hnone f hmem

/-! ### Adding nodes -/

/-- What is kept of a place until its edges are drawn. -/
def Place.pending (supply : Nat → NodeId) (p : Place) : Pending where
  state := p.state.id
  node := p.id supply
  errorPort := p.type.transitions.errorPort?
  targets := p.type.transitions.targets p.state.fields
  handlers := p.state.handlers.map fun hs =>
    ⟨p.catchId supply, catchType.transitions.targets (handlerFields hs)⟩

section

variable {c : Catalog} {supply : Nat → NodeId} {count : Nat}

theorem addStart_builds (hstart : c.get? NodeType.startName = some startType)
    (hd : Distinct supply count) (hlt : 0 < count) {metadata : Metadata} {d : Document}
    {id : NodeId} {entry : Option String} {g : Graph}
    (h : addStart c supply (.empty metadata) d.start = .ok (id, entry, g)) :
    id = supply 0 ∧ entry = ((startType.transitions.targets (startFields d)).head?).map Prod.snd ∧
      Builds supply g [(supply 0, startNode d)] [] ∧ g.metadata = metadata := by
  unfold addStart at h
  rw [Catalog.lookup_eq_ok_iff.2 hstart, Except.ok_bind, nodeOf_eq] at h
  have h := Except.pure_eq_ok_iff.1 h
  have hb : Builds supply (.empty metadata) [] [] :=
    ⟨Graph.shows_empty metadata, Graph.sound_empty metadata, rfl, fun _ => .nil⟩
  obtain ⟨hid, hbuilds, hmeta⟩ := hb.insertNext hd hlt (startNode d)
  cases h
  exact ⟨hid, rfl, hbuilds, hmeta⟩

theorem addHandlers_builds (hcatch : c.get? NodeType.catchName = some catchType)
    (hd : Distinct supply count) {g g' : Graph} {nodes : List (NodeId × Node)}
    {edges : List Edge} (hb : Builds supply g nodes edges) (hlt : nodes.length < count)
    {owner : String} {hs : List CatchEntry} {node : HandlerNode}
    (h : addHandlers c supply g owner hs = .ok (node, g')) :
    node = ⟨supply nodes.length, catchType.transitions.targets (handlerFields hs)⟩ ∧
      Builds supply g' (nodes ++ [(supply nodes.length, catchNode hs)]) edges ∧
      g'.metadata = g.metadata := by
  unfold addHandlers at h
  rw [Catalog.lookup_eq_ok_iff.2 hcatch, Except.ok_bind, nodeOf_eq] at h
  have h := Except.pure_eq_ok_iff.1 h
  obtain ⟨hid, hbuilds, hmeta⟩ := hb.insertNext hd hlt (catchNode hs)
  cases h
  exact ⟨by rw [← hid]; rfl, hbuilds, hmeta⟩

theorem Place.length_nodes (p : Place) : (p.nodes supply).length = p.size := by
  unfold Place.nodes Place.size
  cases p.state.handlers <;> rfl

/-- The node of a state, with the form of `raw`. -/
def stateNode {T : Type} [NodeSpec T] (t : T) (s : State) (raw : Node) : Node :=
  { raw with
    stateId := some s.id
    outputs := NodeSpec.outputCount t s.fields (NodeSpec.outputs t)
    initialized := true }

/-- A state that was added has a node, and one for its error handlers if it has any. -/
theorem addState_eq_ok {T : Type} [NodeSpec T] {c : Catalog T} {t : T} {s : State} {d d' : Draft}
    (h : addState c supply t d s = .ok d') :
    ∃ raw targets handlers g', nodeOf s.kind t s.id s.fields = .ok (raw, targets) ∧
      (s.handlers = none ∧ handlers = none ∧
          g' = (Import.insertNext supply d.graph (stateNode t s raw)).2 ∨
        ∃ hs node, s.handlers = some hs ∧ handlers = some node ∧
          addHandlers c supply (Import.insertNext supply d.graph (stateNode t s raw)).2 s.id hs
            = .ok (node, g')) ∧
      d' = { d with
        graph := g'
        pending := d.pending ++
          [⟨s.id, supply d.graph.nodeCount, NodeSpec.errorPort? t, targets, handlers⟩] } := by
  unfold addState at h
  obtain ⟨⟨raw, targets⟩, hraw, h⟩ := Except.bind_eq_ok_iff.1 h
  cases hs : s.handlers with
  | none =>
    rw [hs] at h
    exact ⟨raw, targets, none, _, hraw, .inl ⟨rfl, rfl, rfl⟩, (Except.ok.inj h).symm⟩
  | some hlist =>
    rw [hs] at h
    have hbind : (do
        let r ← addHandlers c supply (Import.insertNext supply d.graph (stateNode t s raw)).2 s.id
          hlist
        return ({ d with
          graph := r.2
          pending := d.pending ++ [⟨s.id, supply d.graph.nodeCount, NodeSpec.errorPort? t, targets,
            some r.1⟩] } : Draft)) = Except.ok d' := h
    obtain ⟨⟨node, g'⟩, hadd, hpure⟩ := Except.bind_eq_ok_iff.1 hbind
    exact ⟨raw, targets, some node, g', hraw, .inr ⟨hlist, node, rfl, rfl, hadd⟩,
      (Except.ok.inj hpure).symm⟩

/-- A state adds the nodes of its place. -/
theorem addState_builds (hcatch : c.get? NodeType.catchName = some catchType)
    (hd : Distinct supply count) {t : NodeType} {s : State} {d d' : Draft}
    {nodes : List (NodeId × Node)} (hb : Builds supply d.graph nodes [])
    (hlt : nodes.length + 1 < count) (h : addState c supply t d s = .ok d') :
    Builds supply d'.graph (nodes ++ (Place.mk s t nodes.length).nodes supply) [] ∧
      d'.pending = d.pending ++ [(Place.mk s t nodes.length).pending supply] ∧
      d'.graph.metadata = d.graph.metadata := by
  obtain ⟨hid, hbuilds, hmeta⟩ := hb.insertNext hd (by omega) (Place.mk s t nodes.length).node
  have hid : supply d.graph.nodeCount = supply nodes.length := hid
  obtain ⟨raw, targets, handlers, g', hraw, hhandlers, rfl⟩ := addState_eq_ok h
  cases hraw
  rcases hhandlers with ⟨hs, rfl, rfl⟩ | ⟨hlist, node, hs, rfl, hadd⟩
  · refine ⟨?_, ?_, hmeta⟩
    · simp only [Place.nodes, hs]
      exact hbuilds
    · simp only [Place.pending, hs, hid]
      rfl
  · obtain ⟨rfl, hbuilds₁, hmeta₁⟩ := addHandlers_builds hcatch hd hbuilds (by simpa using hlt) hadd
    refine ⟨?_, ?_, hmeta₁.trans hmeta⟩
    · simpa [Place.nodes, Place.id, Place.catchId, hs] using hbuilds₁
    · simp only [Place.pending, hs, hid, List.length_append, List.length_singleton]
      rfl

/-- The first pass adds the nodes of all places. -/
theorem foldlM_takeState_builds {settings : Settings}
    (hcatch : c.get? NodeType.catchName = some catchType) (hd : Distinct supply count)
    {states : List State} {d d' : Draft} {nodes : List (NodeId × Node)} {trace : List Warning}
    (hb : Builds supply d.graph nodes []) (hlt : nodes.length + 2 * states.length ≤ count)
    (h : states.foldlM (takeState settings c supply) d = ⟨trace, .ok d'⟩) :
    Builds supply d'.graph
        (nodes ++ (layout c nodes.length states).flatMap (Place.nodes supply)) [] ∧
      d'.pending = d.pending ++ (layout c nodes.length states).map (Place.pending supply) ∧
      d'.graph.metadata = d.graph.metadata := by
  induction states generalizing d nodes trace with
  | nil =>
    cases h
    simpa [layout] using hb
  | cons s rest ih =>
    rw [List.length_cons] at hlt
    rw [List.foldlM_cons] at h
    obtain ⟨first, d₁, others, hfirst, hrest, rfl⟩ := Traced.bind_eq_ok_iff.1 h
    unfold takeState at hfirst
    cases ht : c.get? s.kind with
    | none =>
      simp only [ht] at hfirst
      have hsame : d₁.graph = d.graph ∧ d₁.pending = d.pending := by
        split at hfirst
        · obtain ⟨_, hpure, -⟩ := Traced.note_bind_eq_ok_iff.1 hfirst
          cases hpure
          exact ⟨rfl, rfl⟩
        · exact absurd hfirst Traced.fail_ne_ok
      rw [← hsame.1] at hb
      obtain ⟨hbuilds, hpending, hmeta⟩ := ih hb (by omega) hrest
      rw [layout]
      simp only [ht]
      exact ⟨hbuilds, hsame.2 ▸ hpending, hsame.1 ▸ hmeta⟩
    | some t =>
      simp only [ht] at hfirst
      have hadd : addState c supply t d s = .ok d₁ := (Traced.mk.inj hfirst).2
      obtain ⟨hb₁, hpending₁, hmeta₁⟩ := addState_builds hcatch hd hb (by omega) hadd
      have hsize : (Place.mk s t nodes.length).size ≤ 2 := by
        unfold Place.size
        split <;> omega
      obtain ⟨hbuilds, hpending, hmeta⟩ := ih hb₁
        (by rw [List.length_append, Place.length_nodes]; omega) hrest
      rw [List.length_append, Place.length_nodes, List.append_assoc] at hbuilds
      rw [List.length_append, Place.length_nodes, hpending₁, List.append_assoc] at hpending
      rw [layout]
      simp only [ht]
      exact ⟨hbuilds, hpending, hmeta.trans hmeta₁⟩

/-! ### Adding edges -/

theorem resolve_eq_ok_iff {ps : List Place} {owner name : String} {id : NodeId} :
    resolve (ps.map (Place.pending supply)) owner name = .ok id ↔
      nodeNamed? supply ps name = some id := by
  have hfind : (ps.map (Place.pending supply)).find? (·.state = name)
      = (ps.find? (·.state.id = name)).map (Place.pending supply) := by
    rw [List.find?_map]
    rfl
  rw [resolve, nodeNamed?, hfind]
  cases ps.find? (·.state.id = name) with
  | none => simp
  | some p => simp [Place.pending]

/-- The edges of a node are added in the order of its names. -/
theorem drawEdges_builds {ps : List Place} {owner : String} {source : NodeId}
    {targets : List (Port × String)} {g g' : Graph} {nodes : List (NodeId × Node)}
    {edges : List Edge} (hb : Builds supply g nodes edges)
    (h : drawEdges (ps.map (Place.pending supply)) owner source g targets = .ok g') :
    ∃ es, edgesTo supply ps source targets = es.map some ∧ Builds supply g' nodes (edges ++ es) ∧
      g'.metadata = g.metadata := by
  unfold drawEdges at h
  induction targets generalizing g edges with
  | nil =>
    cases h
    exact ⟨[], rfl, by simpa using hb, rfl⟩
  | cons target rest ih =>
    obtain ⟨port, name⟩ := target
    rw [List.foldlM_cons] at h
    obtain ⟨g₁, h₁, hrest⟩ := Except.bind_eq_ok_iff.1 h
    obtain ⟨id, hid, hadd⟩ := Except.bind_eq_ok_iff.1 h₁
    obtain ⟨hb₁, hmeta₁⟩ := hb.addEdge hadd
    obtain ⟨es, hes, hb', hmeta⟩ := ih hb₁ hrest
    refine ⟨.ofOutput source port id :: es, ?_, ?_, hmeta.trans hmeta₁⟩
    · have hhead : (nodeNamed? supply ps name).map (Edge.ofOutput source port) =
          some (.ofOutput source port id) := by rw [resolve_eq_ok_iff.1 hid]; rfl
      rw [List.map_cons, ← hes, ← hhead]
      rfl
    · rwa [List.append_assoc] at hb'

/-- A state adds its edges. -/
theorem wire_builds {ps : List Place} {p : Place} {g g' : Graph} {nodes : List (NodeId × Node)}
    {edges : List Edge} (hb : Builds supply g nodes edges)
    (h : wire (ps.map (Place.pending supply)) g (p.pending supply) = .ok g') :
    ∃ es, p.edges supply ps = es.map some ∧ Builds supply g' nodes (edges ++ es) ∧
      g'.metadata = g.metadata := by
  unfold wire at h
  cases hs : p.state.handlers with
  | none =>
    have hp : (p.pending supply).handlers = none := by rw [Place.pending, hs]; rfl
    simp only [hp] at h
    obtain ⟨es, hes, hb', hmeta⟩ := drawEdges_builds hb h
    refine ⟨es, ?_, hb', hmeta⟩
    simp only [Place.edges, hs, List.nil_append]
    exact hes
  | some hlist =>
    have hp : (p.pending supply).handlers =
        some ⟨p.catchId supply, catchType.transitions.targets (handlerFields hlist)⟩ := by
      rw [Place.pending, hs]; rfl
    cases he : p.type.transitions.errorPort? with
    | none =>
      have hport : (p.pending supply).errorPort = none := he
      simp only [hp, hport] at h
      cases h
    | some port =>
      have hport : (p.pending supply).errorPort = some port := he
      simp only [hp, hport] at h
      obtain ⟨g₁, hadd, h⟩ := Except.bind_eq_ok_iff.1 h
      obtain ⟨g₂, hhandlers, h⟩ := Except.bind_eq_ok_iff.1 h
      obtain ⟨hb₁, hmeta₁⟩ := hb.addEdge hadd
      obtain ⟨es₁, hes₁, hb₂, hmeta₂⟩ := drawEdges_builds hb₁ hhandlers
      obtain ⟨es₂, hes₂, hb₃, hmeta₃⟩ := drawEdges_builds hb₂ h
      have hes₂ : edgesTo supply ps (p.id supply) (p.type.transitions.targets p.state.fields)
          = es₂.map some := hes₂
      refine ⟨.ofOutput (p.id supply) port (p.catchId supply) :: es₁ ++ es₂, ?_, ?_,
        hmeta₃.trans (hmeta₂.trans hmeta₁)⟩
      · simp only [Place.edges, hs, he, hes₁, hes₂]
        simp
      · rw [List.append_assoc, List.append_assoc] at hb₃
        exact hb₃

/-- The second pass adds the edges of all places. -/
theorem foldlM_wire_builds {ps qs : List Place} {g g' : Graph} {nodes : List (NodeId × Node)}
    {edges : List Edge} (hb : Builds supply g nodes edges)
    (h : (qs.map (Place.pending supply)).foldlM (wire (ps.map (Place.pending supply))) g = .ok g') :
    ∃ es, qs.flatMap (Place.edges supply ps) = es.map some ∧
      Builds supply g' nodes (edges ++ es) ∧ g'.metadata = g.metadata := by
  induction qs generalizing g edges with
  | nil =>
    cases h
    exact ⟨[], rfl, by simpa using hb, rfl⟩
  | cons q rest ih =>
    rw [List.map_cons, List.foldlM_cons] at h
    obtain ⟨g₁, h₁, hrest⟩ := Except.bind_eq_ok_iff.1 h
    obtain ⟨es₁, hes₁, hb₁, hmeta₁⟩ := wire_builds hb h₁
    obtain ⟨es, hes, hb', hmeta⟩ := ih hb₁ hrest
    refine ⟨es₁ ++ es, ?_, ?_, hmeta.trans hmeta₁⟩
    · rw [List.flatMap_cons, hes₁, hes, List.map_append]
    · rwa [List.append_assoc] at hb'

/-! ### The whole import -/

theorem entryNode_eq {settings : Settings} {ps : List Place} {entry : Option String}
    {trace : List Warning} {node : Option NodeId}
    (h : entryNode settings (ps.map (Place.pending supply)) entry = ⟨trace, .ok node⟩) :
    entryEdges settings supply ps entry
      = (node.map fun id => some (Edge.ofOutput (supply 0) 1 id)).toList := by
  cases entry with
  | some name =>
    simp only [entryNode] at h
    cases hr : resolve (ps.map (Place.pending supply)) NodeType.startName name with
    | error e =>
      rw [hr] at h
      cases h
    | ok id =>
      rw [hr] at h
      cases h
      simp [entryEdges, edgesTo, resolve_eq_ok_iff.1 hr]
  | none =>
    cases ps with
    | nil =>
      cases h
      rfl
    | cons p rest =>
      simp only [entryNode, List.map_cons] at h
      by_cases hf : settings.entryFallback = true
      · simp only [hf, if_true] at h
        obtain ⟨_, hpure, -⟩ := Traced.note_bind_eq_ok_iff.1 h
        cases hpure
        simp [entryEdges, hf, Place.pending]
      · simp only [hf] at h
        cases h
        simp [entryEdges, hf]

/-- What an import that ends with a graph did, in order: the start node, the nodes of the states,
the edge to the entry state if there is one, and the other edges. -/
theorem toGraph_eq_ok {T : Type} [NodeSpec T] {settings : Settings} {c : Catalog T}
    {supply : Nat → NodeId} {d : Document} {r : Imported}
    (h : (d.toGraph settings c supply).outcome = .ok r) :
    repeatedId? [] d.states = none ∧ ∃ start entry g₀ first draft second node g₁,
      addStart c supply (.empty ⟨d.functions, d.extra⟩) d.start = .ok (start, entry, g₀) ∧
      d.states.foldlM (takeState settings c supply) ⟨g₀, [], []⟩ = ⟨first, .ok draft⟩ ∧
      entryNode settings draft.pending entry = ⟨second, .ok node⟩ ∧
      (node = none ∧ g₁ = draft.graph ∨
        ∃ id, node = some id ∧ draft.graph.addEdge (.ofOutput start 1 id) = .ok g₁) ∧
      draft.pending.foldlM (wire draft.pending) g₁ = .ok r.graph ∧ r.skipped = draft.skipped := by
  obtain ⟨trace, h⟩ : ∃ trace, d.toGraph settings c supply = ⟨trace, .ok r⟩ :=
    ⟨_, Traced.eq_of_outcome h⟩
  unfold Document.toGraph at h
  cases hrep : repeatedId? [] d.states with
  | some id =>
    simp only [hrep] at h
    obtain ⟨_, _, _, hfail, -⟩ := Traced.bind_eq_ok_iff.1 h
    exact absurd hfail Traced.fail_ne_ok
  | none =>
    simp only [hrep] at h
    obtain ⟨⟨start, entry, g₀⟩, hstart, h⟩ := Traced.liftM_bind_eq_ok_iff.1 h
    obtain ⟨first, draft, _, hfold, h, -⟩ := Traced.bind_eq_ok_iff.1 h
    obtain ⟨second, node, _, hnode, h, -⟩ := Traced.bind_eq_ok_iff.1 h
    refine ⟨rfl, start, entry, g₀, first, draft, second, node, ?_⟩
    cases node with
    | none =>
      obtain ⟨_, hsame, h⟩ := Traced.liftM_bind_eq_ok_iff.1 h
      cases hsame
      obtain ⟨g, hwire, hlast⟩ := Traced.liftM_bind_eq_ok_iff.1 h
      cases hlast
      exact ⟨draft.graph, hstart, hfold, hnode, .inl ⟨rfl, rfl⟩, hwire, rfl⟩
    | some id =>
      obtain ⟨g₁, hadd, h⟩ := Traced.liftM_bind_eq_ok_iff.1 h
      obtain ⟨g, hwire, hlast⟩ := Traced.liftM_bind_eq_ok_iff.1 h
      cases hlast
      exact ⟨g₁, hstart, hfold, hnode, .inr ⟨id, rfl, hadd⟩, hwire, rfl⟩

/-- An import that ends with a graph has built the one that the document describes, whatever the
name of the entry state. -/
theorem toGraph_builds_from {settings : Settings}
    (hstart : c.get? NodeType.startName = some startType)
    (hcatch : c.get? NodeType.catchName = some catchType) {d : Document}
    (hd : Distinct supply (1 + 2 * d.states.length)) {r : Imported}
    (h : (d.toGraph settings c supply).outcome = .ok r) :
    repeatedId? [] d.states = none ∧ r.graph.metadata = ⟨d.functions, d.extra⟩ ∧
      ∃ es, entryEdges settings supply (places c d)
            ((startType.transitions.targets (startFields d)).head?.map Prod.snd) ++
          (places c d).flatMap (Place.edges supply (places c d)) = es.map some ∧
        Builds supply r.graph (nodesOf c supply d) es := by
  obtain ⟨hrep, id, entry, g₀, _, draft, _, node, g₁, hs, hfold, hnode, hentry, hwire, -⟩ :=
    toGraph_eq_ok h
  obtain ⟨rfl, rfl, hb₀, hmeta₀⟩ := addStart_builds hstart hd (by omega) hs
  obtain ⟨hb₁, hpending, hmeta₁⟩ := foldlM_takeState_builds hcatch hd hb₀ (by simp) hfold
  have hpending : draft.pending = (places c d).map (Place.pending supply) := hpending
  rw [hpending] at hnode hwire
  have hedges := entryNode_eq hnode
  -- Whether there is an entry node or not, the second pass starts with its edge.
  obtain ⟨hb₂, hmeta₂⟩ : Builds supply g₁ (nodesOf c supply d)
      ((node.map fun id => Edge.ofOutput (supply 0) 1 id).toList) ∧
      g₁.metadata = draft.graph.metadata := by
    rcases hentry with ⟨rfl, rfl⟩ | ⟨entry, rfl, hadd⟩
    · exact ⟨hb₁, rfl⟩
    · exact hb₁.addEdge hadd
  obtain ⟨es, hes, hb₃, hmeta₃⟩ := foldlM_wire_builds hb₂ hwire
  refine ⟨hrep, hmeta₃.trans (hmeta₂.trans (hmeta₁.trans hmeta₀)), _, ?_, hb₃⟩
  rw [hedges, hes, List.map_append]
  cases node <;> rfl

/-- An import that ends with a graph has built the one that the document describes. -/
theorem toGraph_builds {settings : Settings}
    (hstart : c.get? NodeType.startName = some startType)
    (hcatch : c.get? NodeType.catchName = some catchType) {d : Document}
    (hd : Distinct supply (1 + 2 * d.states.length)) {r : Imported}
    (hentry : ((startType.transitions.targets (startFields d)).head?).map Prod.snd = entryName? d)
    (h : (d.toGraph settings c supply).outcome = .ok r) :
    repeatedId? [] d.states = none ∧ r.graph.metadata = ⟨d.functions, d.extra⟩ ∧
      ∃ es, edgesOf settings c supply d = es.map some ∧
        Builds supply r.graph (nodesOf c supply d) es := by
  have hbuilds := toGraph_builds_from hstart hcatch hd h
  rw [hentry] at hbuilds
  exact hbuilds

end

end Workflow.Import
