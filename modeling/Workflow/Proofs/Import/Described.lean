import Mathlib.Algebra.Group.Nat.Defs
import Workflow.Proofs.Document.Handlers
import Workflow.Proofs.Document.Start
import Workflow.Proofs.Graph.Connect
import Workflow.Proofs.Import.Building
import Workflow.Proofs.NodeType.Forms

/-!
# An import builds the graph that the document describes

`toGraph_exact` puts together what an import builds: the nodes and the edges are those that the
document describes, no edge is there twice, and no form names a state any more.
-/

namespace Workflow.Import

/-! ### Places -/

theorem get?_of_mem_layout {c : Catalog} {index : Nat} {states : List State} {p : Place}
    (h : p ∈ layout c index states) : c.get? p.state.kind = some p.type ∧ p.state ∈ states := by
  induction states generalizing index with
  | nil => cases h
  | cons s rest ih =>
    rw [layout] at h
    split at h
    next t ht =>
      rcases List.mem_cons.1 h with rfl | h
      · exact ⟨ht, List.mem_cons_self⟩
      · exact ⟨(ih h).1, List.mem_cons_of_mem _ (ih h).2⟩
    next => exact ⟨(ih h).1, List.mem_cons_of_mem _ (ih h).2⟩

/-- Every state of a known type has a place, in order. -/
theorem map_state_layout (c : Catalog) (index : Nat) (states : List State) :
    (layout c index states).map Place.state = states.filter fun s => c.contains s.kind := by
  induction states generalizing index with
  | nil => rfl
  | cons s rest ih =>
    rw [layout, List.filter_cons, Catalog.contains]
    cases c.get? s.kind with
    | none => exact ih index
    | some t => exact congrArg (s :: ·) (ih _)

theorem map_state_places {c : Catalog} {d : Document} (h : ∀ s ∈ d.states, ∃ t, c.get? s.kind = some t) :
    (places c d).map Place.state = d.states := by
  rw [places, map_state_layout]
  refine List.filter_eq_self.2 fun s hs => ?_
  obtain ⟨t, ht⟩ := h s hs
  rw [Catalog.contains, ht]
  rfl

/-- Places of states with different ids are told apart by these ids. -/
theorem eq_of_nodup_ids {c : Catalog} {d : Document} (hids : (d.states.map State.id).Nodup)
    {p q : Place} (hp : p ∈ places c d) (hq : q ∈ places c d) (he : p.state.id = q.state.id) :
    p = q := by
  have hnodup : ((places c d).map fun p => p.state.id).Nodup := by
    have hmap : (places c d).map (fun p => p.state.id)
        = ((places c d).map Place.state).map State.id := by
      rw [List.map_map]
      rfl
    rw [hmap, places, map_state_layout]
    exact hids.sublist (List.filter_sublist.map _)
  exact List.inj_on_of_nodup_map hnodup hp hq he

/-- A state of a known type has a place. -/
theorem exists_place_of_mem {c : Catalog} {d : Document} {s : State} {t : NodeType}
    (hs : s ∈ d.states) (ht : c.get? s.kind = some t) : ∃ p ∈ places c d, p.state = s ∧ p.type = t := by
  have hmem : s ∈ (places c d).map Place.state := by
    rw [places, map_state_layout]
    exact List.mem_filter.2 ⟨hs, by rw [Catalog.contains, ht]; rfl⟩
  obtain ⟨p, hp, rfl⟩ := List.mem_map.1 hmem
  exact ⟨p, hp, rfl, Option.some.inj ((get?_of_mem_layout hp).1.symm.trans ht)⟩

/-- No two states have the same id when none repeats that of an earlier one. -/
theorem repeatedId?_eq_none_iff {seen : List String} {states : List State} :
    repeatedId? seen states = none ↔
      (states.map State.id).Nodup ∧ ∀ s ∈ states, s.id ∉ seen := by
  induction states generalizing seen with
  | nil => simp [repeatedId?]
  | cons s rest ih =>
    rw [repeatedId?, List.map_cons, List.nodup_cons, List.forall_mem_cons]
    split
    next h => simp [h]
    next h =>
      rw [ih]
      constructor
      · rintro ⟨hnd, hseen⟩
        refine ⟨⟨fun hmem => ?_, hnd⟩, h, fun t ht => ?_⟩
        · obtain ⟨t, ht, he⟩ := List.mem_map.1 hmem
          exact hseen t ht (he ▸ List.mem_cons_self)
        · exact fun hmem => hseen t ht (List.mem_cons_of_mem _ hmem)
      · rintro ⟨⟨hnot, hnd⟩, -, hseen⟩
        refine ⟨hnd, fun t ht hmem => ?_⟩
        rcases List.mem_cons.1 hmem with he | hmem
        · exact hnot (he ▸ List.mem_map_of_mem ht)
        · exact hseen t ht hmem

/-! ### Nodes -/

@[simp] theorem startNode_kind (d : Document) : (startNode d).kind = NodeType.startName := rfl

@[simp] theorem catchNode_kind (hs : List CatchEntry) :
    (catchNode hs).kind = NodeType.catchName := rfl

@[simp] theorem Place.node_kind (p : Place) : p.node.kind = p.state.kind := rfl

theorem mem_nodesOf {c : Catalog} {supply : Nat → NodeId} {d : Document} {x : NodeId × Node}
    (h : x ∈ nodesOf c supply d) :
    x = (supply 0, startNode d) ∨ ∃ p ∈ places c d, x = (p.id supply, p.node) ∨
      ∃ hs, p.state.handlers = some hs ∧ x = (p.catchId supply, catchNode hs) := by
  rcases List.mem_cons.1 h with rfl | h
  · exact .inl rfl
  · obtain ⟨p, hp, h⟩ := List.mem_flatMap.1 h
    refine .inr ⟨p, hp, ?_⟩
    rcases List.mem_cons.1 h with rfl | h
    · exact .inl rfl
    · cases hs : p.state.handlers with
      | none =>
        simp only [hs] at h
        cases h
      | some hlist =>
        simp only [hs] at h
        exact .inr ⟨hlist, rfl, List.mem_singleton.1 h⟩

theorem standard_startName : Catalog.standard.get? NodeType.startName = some startType := by
  decide +kernel

theorem standard_catchName : Catalog.standard.get? NodeType.catchName = some catchType := by
  decide +kernel

/-- A catalog in which the types of start nodes and of error-catch nodes are those of the editor. -/
class HasSpecials (c : Catalog) : Prop where
  get?_start : c.get? NodeType.startName = some startType
  get?_catch : c.get? NodeType.catchName = some catchType

instance : HasSpecials .standard := ⟨standard_startName, standard_catchName⟩

theorem fanOut_of_standard {name : String} {t : NodeType}
    (h : Catalog.standard.get? name = some t) : t.fanOut = [] := by
  have hall : Catalog.standard.entries.all (·.2.fanOut.isEmpty) = true := by decide +kernel
  exact List.isEmpty_iff.1 (List.all_eq_true.1 hall _ (Catalog.mem_of_get? h))

/-- A type of states has one input and an error output. -/
theorem primitive_of_standard {kind : String} {t : NodeType}
    (h : Catalog.standard.get? kind = some t) (ht : t.isPrimitive = true) :
    t.inputs = 1 ∧ t.transitions.errorPort? ≠ none := by
  have hall : ∀ x ∈ Catalog.standard.entries, x.2.isPrimitive = true →
      x.2.inputs = 1 ∧ x.2.transitions.errorPort? ≠ none := by decide +kernel
  exact hall _ (Catalog.mem_of_get? h) ht

theorem fanOut_nodesOf {supply : Nat → NodeId} {d : Document} :
    ∀ x ∈ nodesOf .standard supply d, x.2.fanOut = [] := by
  intro x hx
  rcases mem_nodesOf hx with rfl | ⟨p, hp, rfl | ⟨hs, -, rfl⟩⟩
  · rfl
  · exact fanOut_of_standard (get?_of_mem_layout hp).1
  · rfl

theorem isTyped_nodesOf {supply : Nat → NodeId} {d : Document} :
    ∀ x ∈ nodesOf .standard supply d, Graph.IsTyped .standard x.2 := by
  intro x hx
  rcases mem_nodesOf hx with rfl | ⟨p, hp, rfl | ⟨hs, -, rfl⟩⟩
  · exact ⟨startType, standard_startName, rfl, rfl⟩
  · exact ⟨p.type, (get?_of_mem_layout hp).1, rfl, rfl⟩
  · exact ⟨catchType, standard_catchName, rfl, rfl⟩

theorem keyed_handlerFields (hs : List CatchEntry) : Json.KeyedFields (handlerFields hs) :=
  ⟨List.not_mem_nil, Json.keyed_merged _, trivial⟩

/-- No form of a node names a state under the rule of the type of the node. -/
theorem targets_nodesOf {supply : Nat → NodeId} {d : Document}
    (hstart : ∀ s, d.start = some s → Json.KeyedFields s.fields)
    (hstates : ∀ s ∈ d.states, Json.KeyedFields s.fields) :
    ∀ x ∈ nodesOf .standard supply d, ∀ t, Catalog.standard.get? x.2.kind = some t →
      t.transitions.targets x.2.form = [] := by
  intro x hx t ht
  have hstrip : ∀ (name : String) (t : NodeType) (fields : Fields),
      Catalog.standard.get? name = some t → Json.KeyedFields fields →
      t.transitions.targets (rawNode name t fields).form = [] := by
    intro name t fields ht hkeyed
    have happly := TransitionRule.SameNames.toForm (Catalog.apart_of_standard ht)
      (t.transitions.strip fields)
    exact happly.targets_eq.trans (TransitionRule.targets_strip hkeyed)
  rcases mem_nodesOf hx with rfl | ⟨p, hp, rfl | ⟨hs, -, rfl⟩⟩
  · simp only [startNode_kind] at ht
    obtain rfl := Option.some.inj (standard_startName.symm.trans ht)
    exact hstrip _ _ _ standard_startName (keyed_startFields hstart)
  · obtain ⟨hkind, hmem⟩ := get?_of_mem_layout hp
    simp only [Place.node_kind] at ht
    obtain rfl := Option.some.inj (hkind.symm.trans ht)
    exact hstrip _ _ _ hkind (hstates _ hmem)
  · simp only [catchNode_kind] at ht
    obtain rfl := Option.some.inj (standard_catchName.symm.trans ht)
    exact hstrip _ _ (handlerFields hs) standard_catchName (keyed_handlerFields hs)

/-! ### The graph -/

theorem SingleOutputs.nodup {edges : List Edge} (h : SingleOutputs edges) : edges.Nodup :=
  List.Pairwise.imp (fun hne he => hne ⟨congrArg _ he, congrArg _ he⟩) h

/-- With the types of the editor, an import that succeeds builds the graph that the document
describes. Its nodes are those of the places of the document: a start node, then for each state of a
known type, in order, an initialized node with its id and type, and right behind it an error-catch
node if the state has a list of error handlers. Its edges are those of the entry state and of the
places, each once, and they lead to the node of the one state with the id that is named. No form
names a state any more.

The other fields of the start block, of the states and of the error handlers are maps here, and none
repeats the key of the entry state or of the transition of an error handler. In a document that is
read none does, since the value is then read as the entry state or as the transition; in one that was
put together otherwise it would take their place in a form. -/
theorem toGraph_exact {settings : Settings} {supply : Nat → NodeId} {d : Document} {r : Imported}
    (hstart : ∀ s, d.start = some s → Json.KeyedFields s.fields ∧ "state" ∉ s.fields.keys)
    (hstates : ∀ s ∈ d.states, Json.KeyedFields s.fields)
    (hhandlers : ∀ s ∈ d.states, ∀ h ∈ s.handlers.getD [], "transition" ∉ h.extra.keys)
    (hprimitive : ∀ s ∈ d.states, ∀ t, Catalog.standard.get? s.kind = some t →
      t.isPrimitive = true)
    (hsupply : Distinct supply (1 + 2 * d.states.length))
    (h : (d.toGraph settings .standard supply).outcome = .ok r) :
    (places .standard d).map Place.state
        = d.states.filter (fun s => Catalog.standard.contains s.kind) ∧
      (d.states.map State.id).Nodup ∧
      r.graph.nodes = nodesOf .standard supply d ∧
      (startNode d).isStart = true ∧
      (∀ p ∈ places .standard d, p.node.isPrimitive = true ∧ p.node.initialized = true ∧
        p.node.stateId = some p.state.id ∧ p.node.kind = p.state.kind) ∧
      (∀ hs, (catchNode hs).isCatch = true) ∧
      r.graph.edges.map some = edgesOf settings .standard supply d ∧
      r.graph.edges.Nodup ∧
      (∀ p ∈ places .standard d, ∀ hs, p.state.handlers = some hs → ∀ (k : Port) (name : String),
        (k, name) ∈ catchType.transitions.targets (handlerFields hs) ↔
          ∃ i h, hs[i]? = some h ∧ h.transition = some name ∧ k.toNat = i + 1) ∧
      ∀ x ∈ r.graph.nodes, ∀ t, Catalog.standard.get? x.2.kind = some t →
        t.transitions.targets x.2.form = [] := by
  obtain ⟨hrep, -, es, hes, hb⟩ :=
    toGraph_builds standard_startName standard_catchName hsupply
      (entryName?_eq_of_not_mem fun s hs => (hstart s hs).2) h
  rw [hb.shows.nodes_eq, hb.shows.edges_eq]
  refine ⟨map_state_layout _ _ _, (repeatedId?_eq_none_iff.1 hrep).1, rfl, rfl, ?_, fun _ => rfl,
    hes.symm, (hb.single fanOut_nodesOf).nodup, ?_,
    targets_nodesOf (fun s hs => (hstart s hs).1) hstates⟩
  · intro p hp
    obtain ⟨hkind, hmem⟩ := get?_of_mem_layout hp
    exact ⟨hprimitive _ hmem _ hkind, rfl, rfl, rfl⟩
  · intro p hp hs hhs k name
    obtain ⟨-, hmem⟩ := get?_of_mem_layout hp
    exact mem_targets_handlerFields fun h hh => hhandlers _ hmem h (by rwa [hhs])

/-- Numbers of 128 bits are identifiers that differ. -/
theorem distinct_ofNat {count : Nat} (h : count ≤ 2 ^ 128) : Distinct NodeId.ofNat count := by
  intro i j hi hj heq
  have hbits : BitVec.ofNat 128 i = BitVec.ofNat 128 j := congrArg NodeId.bits heq
  have hnat := congrArg BitVec.toNat hbits
  rwa [BitVec.toNat_ofNat, BitVec.toNat_ofNat, Nat.mod_eq_of_lt (by omega),
    Nat.mod_eq_of_lt (by omega)] at hnat

/-- A document with a state that has error handlers and a state of an unknown type. -/
def sampleDocument : Document :=
  ⟨[], none, some ⟨none, some "a", []⟩,
    [⟨"a", "noop", [("transition", .str "b")], some [⟨"E", some "b", []⟩]⟩,
      ⟨"x", "unknown", [], none⟩, ⟨"b", "noop", [], none⟩]⟩

theorem toGraph_sampleDocument_exact :
    ∃ r, (sampleDocument.toGraph {} .standard NodeId.ofNat).outcome = .ok r ∧
      r.graph.nodes = nodesOf .standard NodeId.ofNat sampleDocument ∧
      r.graph.edges.map some = edgesOf {} .standard NodeId.ofNat sampleDocument := by
  have hprimitive : ∀ s ∈ sampleDocument.states, ∀ t, Catalog.standard.get? s.kind = some t →
      t.isPrimitive = true := by decide +kernel
  have hstart : ∀ s, sampleDocument.start = some s →
      Json.KeyedFields s.fields ∧ "state" ∉ s.fields.keys := by
    intro s hs
    cases hs
    decide +kernel
  have hok : (sampleDocument.toGraph {} .standard NodeId.ofNat).outcome.toOption.isSome = true := by
    decide +kernel
  cases h : (sampleDocument.toGraph {} .standard NodeId.ofNat).outcome with
  | error e =>
    rw [h] at hok
    cases hok
  | ok r =>
    obtain ⟨-, -, hnodes, -, -, -, hedges, -⟩ :=
      toGraph_exact hstart (by decide +kernel) (by decide +kernel) hprimitive
        (distinct_ofNat (by decide)) h
    exact ⟨r, rfl, hnodes, hedges⟩

end Workflow.Import
