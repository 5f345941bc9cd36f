import Workflow.Proofs.Compile.Transitions
import Workflow.Proofs.Document.Renamed
import Workflow.Proofs.Graph.Renamed

/-!
# Compiled graphs whose states are named otherwise

No part of a compilation depends on what the states are called: of a name it asks only whether it
has been seen. So a graph whose states are named otherwise is compiled to the document with the other
names (`Graph.Renamed.compile_ok`), and a state that is given another id has it everywhere in the
document, in the places that held the old one because an edge leads to its node
(`compile_rename`).

A state can also be given the id of an old node, one whose identifier was given to the node of the
state. So it is false that every change of a name which is allowed leaves a graph that is compiled
(`compile_rename_fails`, `compile_rename_reinserted`).
-/

namespace Workflow

/-- The state with other names: its own, and those in its fields and in its error handlers. -/
def State.mapNames (c : Catalog) (σ : String → String) (s : State) : State where
  id := σ s.id
  kind := s.kind
  fields := ((c.get? s.kind).map fun t => t.transitions.mapNames σ s.fields).getD s.fields
  handlers := s.handlers.map (List.mapFirst PortCount.greatest (CatchEntry.mapName σ))

/-- The document with other names for its states. -/
def Document.mapNames (c : Catalog) (σ : String → String) (d : Document) : Document where
  extra := d.extra
  functions := d.functions
  start := d.start.map fun s => { s with state := s.state.map σ }
  states := d.states.map (State.mapNames c σ)

namespace Graph.Renamed

open Compile

variable {T : Type} [NodeSpec T] {σ : String → String} {g g' : Graph} {id : NodeId}

/-! ### What a node amounts to -/

theorem node?_ok (h : g.Renamed σ g') {n : Node} (hn : g.node? id = some n) :
    g'.node? id = some (n.mapName σ) := by
  rw [h.node?_eq, hn, Option.map_some]

theorem outputsOf_eq (h : g.Renamed σ g') (id : NodeId) : g'.outputsOf id = g.outputsOf id := by
  simp only [outputsOf, Graph.node, h.node?_eq, h.outgoing_eq]
  cases g.node? id with
  | none => rfl
  | some n =>
    show Except.ok (byPort (n.mapName σ).outputs Edge.output (g.outgoing id)) = _
    rw [n.outputs_mapName]
    rfl

theorem stateName_ok (h : g.Renamed σ g') {name : String} (hname : stateName g id = .ok name) :
    stateName g' id = .ok (σ name) := by
  obtain ⟨n, hn, hp, hid⟩ := stateName_eq_ok_iff.1 hname
  refine stateName_eq_ok_iff.2 ⟨n.mapName σ, h.node?_ok hn, ?_, ?_⟩
  · rw [Node.isPrimitive_mapName, hp]
  · rw [Node.stateId_mapName hp, hid, Option.map_some]

theorem followers_eq (h : g.Renamed σ g') (t : T) (outputs : List (Port × List Edge)) :
    followers g' t outputs = followers g t outputs := by
  have hhandlers : handlerFollowers g' = handlerFollowers g :=
    funext fun id => by rw [handlerFollowers, handlerFollowers, h.outputsOf_eq]
  rw [followers, followers, hhandlers]

theorem outputsFit (h : g.Renamed σ g') {t : T} {outputs : List (Port × List Edge)}
    (hfit : OutputsFit g t outputs) : OutputsFit g' t outputs := by
  intro output ho e es hes
  rcases hfit output ho e es hes with ⟨hslot, target, htarget, hcatch⟩ | ⟨⟨name, hname⟩, hslot⟩
  · exact .inl ⟨hslot, target.mapName σ, h.node?_ok htarget, by rw [Node.isCatch_mapName, hcatch]⟩
  · exact .inr ⟨⟨_, h.stateName_ok hname⟩, hslot⟩

theorem handlersFit (h : g.Renamed σ g') {t : T} {outputs : List (Port × List Edge)}
    (hfit : HandlersFit g t outputs) : HandlersFit g' t outputs := fun output ho e es hes =>
  let ⟨⟨_, hname⟩, hslot⟩ := hfit output ho e es hes
  ⟨⟨_, h.stateName_ok hname⟩, hslot⟩

/-- What is written for outputs are the other names, when every output but the error output leads to
a state. -/
theorem written_eq (h : g.Renamed σ g') {t : T} {outputs : List (Port × List Edge)}
    (hnamed : ∀ output ∈ outputs, ∀ e es, output.2 = e :: es →
      NodeSpec.slot? t output.1 ≠ some .error → ∃ name, stateName g e.target = .ok name) :
    written g' t outputs = (written g t outputs).map fun w => (w.1, σ w.2) := by
  rw [written, written, List.map_filterMap]
  refine List.filterMap_congr fun output ho => ?_
  obtain ⟨p, es⟩ := output
  cases es with
  | nil => rfl
  | cons e es =>
    unfold writtenBehind
    cases hs : NodeSpec.slot? t p with
    | none => rfl
    | some s =>
      simp only
      split
      next => rfl
      next hne =>
        obtain ⟨name, hname⟩ := hnamed _ ho e es rfl fun herror =>
          hne (Option.some.inj (hs.symm.trans herror))
        rw [nameOf_of_stateName hname, nameOf_of_stateName (h.stateName_ok hname)]
        rfl

/-- Fields without names into which the other names are written. -/
theorem writeAll_strip (h : g.Renamed σ g') {t : NodeType}
    {outputs : List (Port × List Edge)} {fields form : Fields}
    (hnamed : ∀ output ∈ outputs, ∀ e es, output.2 = e :: es →
      NodeSpec.slot? t output.1 ≠ some .error → ∃ name, stateName g e.target = .ok name)
    (hkeyed : Json.KeyedFields fields)
    (hw : writeAll (t.transitions.strip fields) (written g t outputs) = some form) :
    writeAll (t.transitions.strip fields) (written g' t outputs)
      = some (t.transitions.mapNames σ form) := by
  rw [h.written_eq hnamed]
  conv => lhs; rw [← TransitionRule.mapNames_strip σ hkeyed]
  exact NodeType.writeAll_map t.transitions σ (fun _ => exists_port_of_mem_written) hw

/-- An error-catch node amounts to the error handlers with the other names. -/
theorem isHandlerList (h : g.Renamed σ g') {owner : String} {hs : List CatchEntry} {m : Node}
    (hlist : IsHandlerList .standard g id owner hs) (hm : g.node? id = some m)
    (hcatch : m.isCatch = true) (hkeyed : Json.KeyedFields m.form) :
    IsHandlerList .standard g' id (σ owner)
      (hs.mapFirst PortCount.greatest (CatchEntry.mapName σ)) := by
  have hkind : m.kind = NodeType.catchName := of_decide_eq_true (Bool.and_eq_true_iff.1 hcatch).2
  obtain ⟨outputs, form, ho, hfit, hw, hread⟩ := hlist.exists_form hm hkind
  have hm' := h.node?_ok hm
  have ho' : g'.outputsOf id = .ok outputs := (h.outputsOf_eq id).trans ho
  have ht' : Catalog.standard.get? (m.mapName σ).kind = some Import.catchType := by
    rw [Node.kind_mapName, hkind, Import.standard_catchName]
  have hw' := h.writeAll_strip (t := Import.catchType)
    (fun output ho e es hes _ => (hfit output ho e es hes).1) hkeyed hw
  refine ⟨m.mapName σ, Import.catchType, outputs, TransitionRule.handlers.mapNames σ form, _, hm',
    ht', ho', h.handlersFit hfit, ?_, rfl, readHandlers_mapNames σ hread⟩
  rw [writtenFor_eq hm' ht' ho', Node.form_mapName]
  exact hw'

/-- A node stands for the state with the other names. -/
theorem isStateOf (h : g.Renamed σ g') {s : State} (hs : IsStateOf .standard g id s)
    (hkeyed : ∀ id n, g.node? id = some n → Json.KeyedFields n.form) :
    IsStateOf .standard g' id (s.mapNames .standard σ) := by
  have hstate := hs
  obtain ⟨n, t, outputs, form, lists, hn, hp, hid, ht, ho, hfit, hw, hf, hkind, hl, hh⟩ := hstate
  have hn' := h.node?_ok hn
  have ho' : g'.outputsOf id = .ok outputs := (h.outputsOf_eq id).trans ho
  have ht' : Catalog.standard.get? (n.mapName σ).kind = some t := by rw [Node.kind_mapName, ht]
  have hfields : (s.mapNames .standard σ).fields = t.transitions.mapNames σ s.fields := by
    rw [State.mapNames, hkind, ht]
    rfl
  rw [writtenFor_eq hn ht ho] at hw
  have hw' := h.writeAll_strip (fun output ho e es hes hne =>
    (hfit output ho e es hes).elim (fun herror => absurd herror.1 hne) And.left)
    (hkeyed id n hn) hw
  refine ⟨n.mapName σ, t, outputs, t.transitions.mapNames σ form,
    lists.map (List.mapFirst PortCount.greatest (CatchEntry.mapName σ)), hn', ?_, ?_, ht', ho',
    h.outputsFit hfit, ?_, ?_, ?_, ?_, ?_⟩
  · rw [Node.isPrimitive_mapName, hp]
  · rw [Node.stateId_mapName hp, hid]
    rfl
  · rw [writtenFor_eq hn' ht' ho', Node.form_mapName]
    exact hw'
  · rw [hfields, fieldsOfForm_eq_ok_iff]
    exact NodeType.ofForm_owner (NodeType.ofForm_mapNames (Catalog.apart_of_standard ht) σ
      (fieldsOfForm_eq_ok_iff.1 hf)) _
  · rw [Node.kind_mapName]
    exact hkind
  · refine List.forall₂_map_right_iff.2 (hl.imp_mem fun k hk hs' hlist => ?_)
    obtain ⟨m, hm, hcatch⟩ := hs.isCatch ((mem_catchNodes_iff hn ht ho).1 hk)
    exact h.isHandlerList hlist hm hcatch (hkeyed k m hm)
  · show s.handlers.map _ = _
    rw [hh, List.getLast?_map]
    cases lists.getLast? with
    | none => rfl
    | some hs' => cases hs' <;> rfl

theorem expand_ok (h : g.Renamed σ g')
    (hkeyed : ∀ id n, g.node? id = some n → Json.KeyedFields n.form) {trace : List NodeId}
    {s : State} (hs : expand .standard g id = ⟨trace, .ok s⟩) :
    expand .standard g' id = ⟨trace, .ok (s.mapNames .standard σ)⟩ := by
  obtain ⟨hstate, n, t, outputs, hn, ht, ho, rfl⟩ := expand_eq_ok_iff.1 hs
  refine expand_eq_ok_iff.2 ⟨h.isStateOf hstate hkeyed, n.mapName σ, t, outputs, h.node?_ok hn, ?_,
    ?_, ?_⟩
  · rw [Node.kind_mapName, ht]
  · exact (h.outputsOf_eq id).trans ho
  · rw [h.followers_eq]

/-! ### Documents -/

/-- The walk over all states ends with the states with the other names. -/
theorem statesOf_ok (h : g.Renamed σ g')
    (hkeyed : ∀ id n, g.node? id = some n → Json.KeyedFields n.form) {entry : NodeId}
    {w : Walk NodeId State} (hw : statesOf .standard g entry = .ok w) :
    statesOf .standard g' entry = .ok (w.mapFinished (State.mapNames .standard σ)) := by
  have hvisit : ∀ w id w', visit .standard g w id = .ok w' →
      visit .standard g' (w.mapFinished (State.mapNames .standard σ)) id
        = .ok (w'.mapFinished (State.mapNames .standard σ)) := by
    intro w id w' hw'
    rw [visit, h.nodeCount_eq]
    exact Walk.visit_mapFinished (fun _ _ _ => h.expand_ok hkeyed) _ hw'
  have hroot : ∀ w e w', visitRoot .standard g w e = .ok w' →
      visitRoot .standard g' (w.mapFinished (State.mapNames .standard σ)) (e.1, e.2.mapName σ)
        = .ok (w'.mapFinished (State.mapNames .standard σ)) := by
    intro w e w' hw'
    simp only [visitRoot, Node.isPrimitive_mapName, h.incoming_eq] at hw' ⊢
    split at hw'
    next hroot =>
      exact (if_pos hroot).trans (hvisit _ _ _ hw')
    next hroot =>
      cases hw'
      exact if_neg hroot
  -- The states of the entry are put in reverse before the roots are swept, under either name.
  obtain ⟨w₁, hentry, hroots⟩ := Except.bind_eq_ok_iff.1 hw
  refine Except.bind_eq_ok_iff.2 ⟨_, hvisit _ _ _ hentry, ?_⟩
  have hreverse : ({ w₁.mapFinished (State.mapNames .standard σ) with
      finished := (w₁.mapFinished (State.mapNames .standard σ)).finished.reverse } :
      Walk NodeId State) =
      Walk.mapFinished (State.mapNames .standard σ) { w₁ with finished := w₁.finished.reverse } :=
    congrArg (Walk.mk w₁.visited) List.map_reverse.symm
  rw [hreverse, h.nodes_eq, List.foldlM_map]
  exact Except.foldlM_map_ok hroot hroots

/-- The checks pass when the other names are still apart. -/
theorem validate_ok (h : g.Renamed σ g')
    (hinj : ∀ x y a b, ListsState g x a → ListsState g y b → σ a = σ b → a = b)
    (hv : validate .standard g = .ok ()) : validate .standard g' = .ok () := by
  obtain ⟨hinit, hnames⟩ := validate_eq_ok_iff.1 hv
  obtain ⟨htypes, hnamed, hapart⟩ := checkNames_eq_ok_iff.1 hnames
  have hname : ∀ e ∈ g.nodes, e.2.isPrimitive = true →
      ∃ name, e.2.stateId = some name ∧ ListsState g e.1 name := fun e he hp =>
    let ⟨name, hid, _⟩ := hnamed e he hp
    ⟨name, hid, e.2, he, hp, hid⟩
  refine validate_eq_ok_iff.2 ⟨?_, checkNames_eq_ok_iff.2 ⟨?_, ?_, ?_⟩⟩ <;> rw [h.nodes_eq]
  · exact List.forall_mem_map.2 fun e he => (e.2.initialized_mapName σ).trans (hinit e he)
  · refine List.forall_mem_map.2 fun e he => ?_
    rw [Node.kind_mapName]
    exact htypes e he
  · refine List.forall_mem_map.2 fun e he hp => ?_
    rw [Node.isPrimitive_mapName] at hp
    obtain ⟨name, hid, -⟩ := hname e he hp
    exact ⟨σ name, by rw [Node.stateId_mapName hp, hid, Option.map_some], List.not_mem_nil⟩
  · refine List.pairwise_map.2 (hapart.imp_of_mem fun {a b} ha hb hab hpa hpb heq => ?_)
    rw [Node.isPrimitive_mapName] at hpa hpb
    obtain ⟨x, hx, hxlisted⟩ := hname a ha hpa
    obtain ⟨y, hy, hylisted⟩ := hname b hb hpb
    rw [Node.stateId_mapName hpa, Node.stateId_mapName hpb, hx, hy] at heq
    exact hab hpa hpb (by rw [hx, hy, hinj _ _ _ _ hxlisted hylisted (Option.some.inj heq)])

theorem startNode?_eq (h : g.Renamed σ g') : g'.startNode? = g.startNode? := by
  have hstart : ((fun e : NodeId × Node => e.2.isStart) ∘
      fun e : NodeId × Node => (e.1, e.2.mapName σ))
      = fun e => e.2.isStart := funext fun e => Node.isStart_mapName σ e.2
  rw [startNode?, startNode?, h.nodes_eq, List.find?_map, hstart, Option.map_map]
  rfl

theorem startOf_ok (h : g.Renamed σ g') {start entry : NodeId} {b : Start}
    (hb : startOf .standard g start entry = .ok b) :
    startOf .standard g' start entry = .ok { b with state := b.state.map σ } := by
  obtain ⟨n, name, t, form, hn, hname, ht, hf, hof⟩ := startOf_eq_ok_iff.1 hb
  refine startOf_eq_ok_iff.2 ⟨n.mapName σ, σ name, t, form, h.node?_ok hn, h.stateName_ok hname, ?_,
    ?_, ?_⟩
  · rw [Node.kind_mapName, ht]
  · rw [Node.form_mapName, hf]
  · obtain ⟨kind, hkind, hof⟩ := Except.bind_eq_ok_iff.1 hof
    obtain rfl := Except.pure_eq_ok_iff.1 hof
    exact Except.bind_eq_ok_iff.2 ⟨kind, hkind, rfl⟩

/-- A graph whose states have other names, still apart, is compiled to the document with these
names. -/
theorem compile_ok (h : g.Renamed σ g')
    (hkeyed : ∀ id n, g.node? id = some n → Json.KeyedFields n.form)
    (hinj : ∀ x y a b, ListsState g x a → ListsState g y b → σ a = σ b → a = b)
    {d : Document} (hd : (g.compile .standard).outcome = .ok d) :
    (g'.compile .standard).outcome = .ok (d.mapNames .standard σ) := by
  obtain ⟨start, e, block, w, hv, hs, he, hb, hw, -, rfl⟩ :=
    compile_eq_ok_iff.1 (Traced.eq_of_outcome hd)
  have hcompile : g'.compile .standard = ⟨_, .ok _⟩ := compile_eq_ok_iff.2 ⟨start, e, _, _,
    h.validate_ok hinj hv, h.startNode?_eq.trans hs, (h.edgeOn?_eq start 1).trans he,
    h.startOf_ok hb, h.statesOf_ok hkeyed hw, rfl, rfl⟩
  rw [hcompile, h.metadata_eq]
  rfl

end Graph.Renamed

/-! ### Giving a state another id -/

namespace Graph

variable {g g' : Graph} {id : NodeId} {name : String}

/-- A state is given an id that no other state has. -/
theorem rename_eq_ok_iff : g.rename id name = .ok g' ↔
    (∀ other, g.findState? name = some other → other = id) ∧ g.contains id = true ∧
      g' = g.modify id fun n => { n with stateId := some name } := by
  unfold rename
  have hfree : (g.findState? name).any (· ≠ id) = true ↔
      ¬∀ other, g.findState? name = some other → other = id := by
    cases g.findState? name with
    | none => simp
    | some other => simp
  by_cases h : (g.findState? name).any (· ≠ id) = true
  · rw [if_pos h]
    exact iff_of_false nofun fun hall => hfree.1 h hall.1
  · rw [if_neg h]
    have hall := not_not.1 (hfree.not.1 h)
    by_cases hid : g.contains id = true
    · rw [if_pos hid]
      exact ⟨fun hok => ⟨hall, hid, (Except.ok.inj hok).symm⟩, fun hok => congrArg _ hok.2.2.symm⟩
    · rw [if_neg hid]
      exact iff_of_false nofun fun hok => hid hok.2.1

/-- A state that is found has the id that was looked for, and the identifier that it is found by
lists it. -/
theorem listsState_of_findState? (h : g.findState? name = some id) :
    Compile.ListsState g id name := by
  obtain ⟨e, he, rfl⟩ := Option.map_eq_some_iff.1 h
  have hkept := List.find?_some he
  rw [Bool.and_eq_true, decide_eq_true_eq] at hkept
  exact ⟨e.2, List.mem_of_find?_eq_some he, hkept⟩

/-- A state is found when one with this id is listed. -/
theorem exists_findState? (h : Compile.ListsState g id name) :
    ∃ other, g.findState? name = some other := by
  obtain ⟨n, hn, hp, hid⟩ := h
  obtain ⟨e, he⟩ : ∃ e, g.nodes.find? (fun e => e.2.isPrimitive && e.2.stateId = some name)
      = some e := Option.isSome_iff_exists.1 (List.find?_isSome.2 ⟨(id, n), hn, by simp [hp, hid]⟩)
  exact ⟨e.1, by rw [findState?, he]; rfl⟩

end Graph

namespace Compile

variable {g g' : Graph} {id : NodeId} {old new : String}

/-- The oldest edge of an output leads to a node. -/
def OldestLeads (g : Graph) (source : NodeId) (p : Port) (id : NodeId) : Prop :=
  ∃ e, (g.outgoing source).find? (·.output = p) = some e ∧ e.target = id

/-- A place that follows the edges has the name of a node when the oldest edge leads to it. -/
theorem Follows.eq_some_iff {source : NodeId} {p : Port} {held : Option String}
    (h : Follows g source p held) (hg : g.Labelled) (hv : validate .standard g = .ok ())
    (hid : stateName g id = .ok old) : held = some old ↔ OldestLeads g source p id := by
  constructor
  · intro hheld
    cases he : (g.outgoing source).find? (·.output = p) with
    | none =>
      rw [h.free he] at hheld
      cases hheld
    | some e =>
      obtain ⟨name, hname, hsome⟩ := h.connected e he
      obtain rfl := Option.some.inj (hsome.symm.trans hheld)
      exact ⟨e, he, eq_of_stateName hg hv hname hid⟩
  · rintro ⟨e, he, rfl⟩
    obtain ⟨name, hname, hsome⟩ := h.connected e he
    rw [hsome, Except.ok.inj (hname.symm.trans hid)]

/-- An error handler has the name of a node when the oldest edge of its output leads to it. -/
theorem IsStateOf.handler_named_iff {source k : NodeId} {s : State} {m : Node}
    (h : IsStateOf .standard g source s) (hk : IsCatchOf .standard g source k)
    (hm : g.node? k = some m) (hkeyed : Json.KeyedFields m.form) (hg : g.Labelled)
    (hv : validate .standard g = .ok ()) (hid : stateName g id = .ok old) {p : Port}
    {slot : TransitionSlot} (hslot : (p, slot) ∈ TransitionRule.handlers.slots m.form) :
    ∃ entry, (s.handlers.getD [])[p.toNat - 1]? = some entry ∧
      (entry.transition = some old ↔ OldestLeads g k p id) := by
  obtain ⟨m', hm', hcatch⟩ := h.isCatch hk
  obtain rfl := Option.some.inj (hm.symm.trans hm')
  obtain ⟨handlers, hlist, hhandlers⟩ := h.exists_handlerList hk
  obtain ⟨entry, hentry, hfollows⟩ := hlist.handler_follows hm
    (of_decide_eq_true (Bool.and_eq_true_iff.1 hcatch).2) hkeyed hslot
  refine ⟨entry, ?_, hfollows.eq_some_iff hg hv hid⟩
  -- The list has this entry, so it is not left out.
  have hne : handlers.isEmpty = false := by
    cases handlers with
    | nil => cases hentry
    | cons => rfl
  rw [hhandlers, Option.filter_some, hne]
  exact hentry

/-- In a graph that passed the checks, the cell of a state is the only one with its name, also when
other cells have the identifier. -/
theorem cell?_of_stateName (hg : g.Labelled) (hv : validate .standard g = .ok ())
    (hold : stateName g id = .ok old) {x : Nat × Node} (hx : x ∈ g.nodeArena.entries)
    (hp : x.2.isPrimitive = true) (hid : x.2.stateId = some old) : g.cell? id = some x.1 := by
  obtain ⟨-, -, hapart⟩ := checkNames_eq_ok_iff.1 (validate_eq_ok_iff.1 hv).2
  obtain ⟨n, hn, hpn, hidn⟩ := stateName_eq_ok_iff.1 hold
  obtain ⟨i, hi, hcell⟩ := Graph.node?_eq_some_iff.1 hn
  -- The names of the nodes are apart cell by cell, since every cell in use is listed.
  have hcells : g.nodeArena.listed.Pairwise fun a b =>
      a.2.isPrimitive = true → b.2.isPrimitive = true → a.2.stateId ≠ b.2.stateId := by
    refine (List.pairwise_filterMap.1 hapart).imp_of_mem fun {a b} ha hb hab => ?_
    obtain ⟨x, hx⟩ := hg.exists_owner ha
    obtain ⟨y, hy⟩ := hg.exists_owner hb
    exact hab (x, a.2) (by rw [hx]; rfl) (y, b.2) (by rw [hy]; rfl)
  have : Std.Symm fun a b : Nat × Node =>
      a.2.isPrimitive = true → b.2.isPrimitive = true → a.2.stateId ≠ b.2.stateId :=
    ⟨fun _ _ h hb ha => (h ha hb).symm⟩
  by_contra hne
  have hentry := hg.tidy.mem_entries_iff.2 hcell
  exact hcells.forall (Arena.mem_listed.2 hx) (Arena.mem_listed.2 hentry)
    (fun he => hne (by rw [he]; exact hi)) hp hpn (hid.trans hidn.symm)

/-- A state that is given another id leaves a graph with the other names. -/
theorem renamed_of_rename (hg : g.Labelled) (hv : validate .standard g = .ok ())
    (hold : stateName g id = .ok old) (hr : g.rename id new = .ok g') :
    g.Renamed (replaceName old new) g' := by
  obtain ⟨n, hn, hp, hid⟩ := stateName_eq_ok_iff.1 hold
  obtain ⟨-, -, rfl⟩ := Graph.rename_eq_ok_iff.1 hr
  rw [hg.modify_eq_mapNodes hn hp hid fun _ => cell?_of_stateName hg hv hold]
  exact g.renamed_mapNodes _

/-- The new id is no other state's when the identifier does not list an old node with it. -/
theorem eq_of_listsState_new (hr : g.rename id new = .ok g')
    (hclear : ListsState g id new → new = old) {x : NodeId} (hx : ListsState g x new) :
    new = old := by
  obtain ⟨hfree, -, -⟩ := Graph.rename_eq_ok_iff.1 hr
  obtain ⟨other, hother⟩ := Graph.exists_findState? hx
  obtain rfl := hfree other hother
  exact hclear (Graph.listsState_of_findState? hother)

/-- An id that no other state has keeps the names of the states apart. -/
theorem replaceName_apart (hnew : ∀ x, ListsState g x new → new = old) {x y : NodeId}
    {a b : String} (ha : ListsState g x a) (hb : ListsState g y b)
    (heq : replaceName old new a = replaceName old new b) : a = b := by
  -- When one of the states is renamed, the other one cannot have had the new name before.
  by_cases hao : a = old <;> by_cases hbo : b = old
  · rw [hao, hbo]
  · rw [hao, replaceName_self, replaceName_of_ne hbo] at heq
    rw [hao, ← heq, hnew y (heq ▸ hb)]
  · rw [hbo, replaceName_self, replaceName_of_ne hao] at heq
    rw [hbo, heq, hnew x (heq ▸ ha)]
  · rwa [replaceName_of_ne hao, replaceName_of_ne hbo] at heq

/-- Where an identifier names one node, it lists no old ones. -/
theorem eq_of_listsState_self (hg : g.Consistent) (hold : stateName g id = .ok old)
    (h : ListsState g id new) : new = old :=
  Except.ok.inj (((listsState_iff hg).1 h).symm.trans hold)

/-- A graph that is compiled is compiled as well after one of its states was given another id, and to
the same document with the new id in place of the old one: as the id of the state, as the entry state
and in the slots and error handlers that held it. These are the ones behind whose ports the oldest
edge leads to the node of the state, so nothing else is changed.

It takes a graph that lists no old node with the new id under the identifier of the state. One that
does has given the identifier to a second node, and then it is not compiled any more
(`compile_rename_fails`). -/
theorem compile_rename {d : Document} (hg : g.Labelled)
    (hkeyed : ∀ id n, g.node? id = some n → Json.KeyedFields n.form)
    (hd : (g.compile .standard).outcome = .ok d) (hold : stateName g id = .ok old)
    (hr : g.rename id new = .ok g') (hclear : ListsState g id new → new = old) :
    (g'.compile .standard).outcome = .ok (d.mapNames .standard (replaceName old new)) ∧
      ∀ s ∈ d.states, ∃ source n t, g.node? source = some n ∧ stateName g source = .ok s.id ∧
        (s.id = old ↔ source = id) ∧ n.kind = s.kind ∧
        Catalog.standard.get? n.kind = some t ∧
        (∀ p slot, (p, slot) ∈ t.transitions.slots n.form → slot ≠ .error →
          (slot.read s.fields = some old ↔ OldestLeads g source p id)) ∧
        ∀ k m, IsCatchOf .standard g source k → g.node? k = some m →
          ∀ p slot, (p, slot) ∈ TransitionRule.handlers.slots m.form →
            ∃ entry, (s.handlers.getD [])[p.toNat - 1]? = some entry ∧
              (entry.transition = some old ↔ OldestLeads g k p id) := by
  obtain ⟨-, -, -, -, hv, -⟩ := compile_eq_ok_iff.1 (Traced.eq_of_outcome hd)
  refine ⟨?_, fun s hs => ?_⟩
  · have hnew : ∀ x, ListsState g x new → new = old := fun _ => eq_of_listsState_new hr hclear
    exact (renamed_of_rename hg hv hold hr).compile_ok hkeyed
      (fun _ _ _ _ => replaceName_apart hnew) hd
  · obtain ⟨source, hstate⟩ := exists_isStateOf hd hs
    have hnode := hstate
    obtain ⟨n, t, -, -, -, hn, -, -, ht, -, -, -, -, hkind, -⟩ := hnode
    refine ⟨source, n, t, hn, hstate.stateName_eq, ⟨fun he => ?_, fun he => ?_⟩, hkind.symm, ht,
      fun p slot hslot hne => ?_, fun k m hk hm p slot hslot => ?_⟩
    · exact eq_of_stateName hg hv (he ▸ hstate.stateName_eq) hold
    · exact Except.ok.inj (hstate.stateName_eq.symm.trans (he ▸ hold))
    · exact (hstate.slot_follows hn ht (hkeyed source) hslot hne).eq_some_iff hg hv hold
    · exact hstate.handler_named_iff hk hm (hkeyed k m hm) hg hv hold hslot

/-- The document of `staleGraph` with another id for the state of the error handler. -/
def renamedDocument : Document :=
  ⟨[], none, some ⟨none, some "a", []⟩,
    [⟨"a", "switch", [("conditions", .arr [.obj [("transition", .str "b")], .obj [], .null])],
        some [⟨"E", some "z", []⟩, ⟨"F", none, []⟩]⟩,
      ⟨"b", "noop", [], none⟩, ⟨"z", "noop", [], none⟩]⟩

theorem compile_rename_staleGraph : ∃ g', staleGraph.rename (.ofNat 3) "z" = .ok g' ∧
    (g'.compile .standard).outcome = .ok renamedDocument := by
  have hkeyed : ∀ e ∈ staleGraph.nodes, Json.KeyedFields e.2.form := by decide +kernel
  have hdocument : freshDocument.mapNames .standard (replaceName "c" "z") = renamedDocument := by
    decide +kernel
  have hold : stateName staleGraph (.ofNat 3) = .ok "c" := by decide +kernel
  obtain ⟨g', hg'⟩ : ∃ g', staleGraph.rename (.ofNat 3) "z" = .ok g' :=
    ⟨_, Graph.rename_eq_ok_iff.2 ⟨by decide +kernel, by decide +kernel, rfl⟩⟩
  refine ⟨g', hg', hdocument ▸ (compile_rename staleGraph_consistent.labelled (fun id n hn =>
    hkeyed _ (staleGraph_consistent.mem_nodes_iff.2 hn)) (by decide +kernel) hold hg'
    (eq_of_listsState_self staleGraph_consistent hold)).1⟩

/-- When all types are known, all states have names and no two of them share another name than
`name`, the check can only complain about this one. -/
theorem checkNames_clash {c : Catalog} {name : String} {seen : List String}
    {nodes : List (NodeId × Node)} (htypes : ∀ e ∈ nodes, ∃ t, c.get? e.2.kind = some t)
    (hnamed : ∀ e ∈ nodes, e.2.isPrimitive = true →
      ∃ a, e.2.stateId = some a ∧ (a ∈ seen → a = name))
    (hapart : nodes.Pairwise fun a b => a.2.isPrimitive = true → b.2.isPrimitive = true →
      a.2.stateId = b.2.stateId → a.2.stateId = some name) :
    (checkNames c seen nodes).Fails (· = .duplicateStateId name) := by
  induction nodes generalizing seen with
  | nil => exact Except.fails_ok ()
  | cons e rest ih =>
    obtain ⟨⟨t, ht⟩, htypes⟩ := List.forall_mem_cons.1 htypes
    obtain ⟨hname, hnamed⟩ := List.forall_mem_cons.1 hnamed
    obtain ⟨hfirst, hapart⟩ := List.pairwise_cons.1 hapart
    rw [checkNames, Catalog.lookup_eq_ok_iff.2 ht, Except.ok_bind]
    split
    next => exact ih htypes hnamed hapart
    next hp =>
      have hp : e.2.isPrimitive = true := by simpa using hp
      obtain ⟨a, ha, hseen⟩ := hname hp
      rw [ha]
      dsimp only
      split
      next hmem => exact Except.fails_error (congrArg _ (hseen hmem))
      next =>
        refine ih htypes (fun b hb hpb => ?_) hapart
        obtain ⟨other, hother, hold⟩ := hnamed b hb hpb
        refine ⟨other, hother, fun hmem => ?_⟩
        rcases List.mem_cons.1 hmem with rfl | hmem
        · exact Option.some.inj (ha.symm.trans (hfirst b hb hp hpb (ha.trans hother.symm)))
        · exact hold hmem

/-- Names that get mixed up when `old` becomes `new` have become `new`. -/
theorem eq_or_replaceName_eq {a b : String} (h : replaceName old new a = replaceName old new b) :
    a = b ∨ replaceName old new a = new := by
  by_cases hao : a = old
  · rw [hao, replaceName_self]
    exact .inr rfl
  · by_cases hbo : b = old
    · rw [h, hbo, replaceName_self]
      exact .inr rfl
    · rw [replaceName_of_ne hao, replaceName_of_ne hbo] at h
      exact .inl h

/-- A compilation ends with what its checks complain about. -/
theorem compile_error_of_validate {c : Catalog} {e : Error} (h : validate c g = .error e) :
    (g.compile c).outcome = .error e := by
  rw [Graph.compile, h]
  rfl

/-- After a state was given another id, the only names that can clash are that one. -/
theorem checkNames_renamed_fails (hrenamed : g.Renamed (replaceName old new) g')
    (hv : validate .standard g = .ok ()) :
    (checkNames .standard [] g'.nodes).Fails (· = .duplicateStateId new) := by
  obtain ⟨htypes, hnamed, hapart⟩ := checkNames_eq_ok_iff.1 (validate_eq_ok_iff.1 hv).2
  rw [hrenamed.nodes_eq]
  refine checkNames_clash (List.forall_mem_map.2 fun e he => ?_)
    (List.forall_mem_map.2 fun e he hp => ?_)
    (List.pairwise_map.2 (hapart.imp_of_mem fun {a b} ha hb hab hpa hpb heq => ?_))
  · rw [Node.kind_mapName]
    exact htypes e he
  · rw [Node.isPrimitive_mapName] at hp
    obtain ⟨name, hid, -⟩ := hnamed e he hp
    exact ⟨_, by rw [Node.stateId_mapName hp, hid, Option.map_some], nofun⟩
  · rw [Node.isPrimitive_mapName] at hpa hpb
    obtain ⟨x, hx, -⟩ := hnamed a ha hpa
    obtain ⟨y, hy, -⟩ := hnamed b hb hpb
    rw [Node.stateId_mapName hpa, Node.stateId_mapName hpb, hx, hy] at heq
    rw [Node.stateId_mapName hpa, hx]
    refine congrArg some ((eq_or_replaceName_eq (Option.some.inj heq)).resolve_left fun hxy => ?_)
    exact hab hpa hpb (hx.trans (hxy ▸ hy.symm))

/-- The checks find two states that have become one in name. -/
theorem checkNames_renamed_ne_ok (hg : g.Labelled)
    (hrenamed : g.Renamed (replaceName old new) g') (hold : stateName g id = .ok old)
    (hlists : ListsState g id new) (hne : new ≠ old) :
    checkNames .standard [] g'.nodes ≠ .ok () := by
  intro hok
  obtain ⟨-, -, hapart⟩ := checkNames_eq_ok_iff.1 hok
  rw [hrenamed.nodes_eq, List.pairwise_map] at hapart
  obtain ⟨n, hn, hp, hid⟩ := listsState_of_stateName hg hold
  obtain ⟨m, hm, hpm, hidm⟩ := hlists
  have hdiffer : (id, n) ≠ (id, m) := by
    intro he
    obtain rfl := (Prod.mk.inj he).2
    exact hne (Option.some.inj (hidm.symm.trans hid))
  have : Std.Symm fun a b : NodeId × Node => NamesApart (a.1, a.2.mapName (replaceName old new))
    (b.1, b.2.mapName (replaceName old new)) := ⟨fun _ _ h => symm_of NamesApart h⟩
  refine hapart.forall hn hm hdiffer (by rwa [Node.isPrimitive_mapName])
    (by rwa [Node.isPrimitive_mapName]) ?_
  rw [Node.stateId_mapName hp, Node.stateId_mapName hpm, hid, hidm, Option.map_some,
    Option.map_some, replaceName_self, replaceName_of_ne hne]

/-- Only other identifiers are asked whether a state has the new id already. So a state is given the
id that an old node has under the same identifier, and then two states are listed with it. -/
theorem compile_rename_fails {d : Document} (hg : g.Labelled)
    (hd : (g.compile .standard).outcome = .ok d) (hold : stateName g id = .ok old)
    (hr : g.rename id new = .ok g') (hlists : ListsState g id new) (hne : new ≠ old) :
    (g'.compile .standard).outcome = .error (.duplicateStateId new) := by
  obtain ⟨-, -, -, -, hv, -⟩ := compile_eq_ok_iff.1 (Traced.eq_of_outcome hd)
  have hrenamed := renamed_of_rename hg hv hold hr
  have hinit : ∀ e ∈ g'.nodes, e.2.initialized = true := by
    rw [hrenamed.nodes_eq]
    exact List.forall_mem_map.2 fun e he =>
      (e.2.initialized_mapName _).trans ((validate_eq_ok_iff.1 hv).1 e he)
  refine compile_error_of_validate ((validate_eq_checkNames hinit).trans ?_)
  cases hc : checkNames .standard [] g'.nodes with
  | ok => exact absurd hc (checkNames_renamed_ne_ok hg hrenamed hold hlists hne)
  | error e => exact congrArg _ (checkNames_renamed_fails hrenamed hv e hc)

/-- A start node that leads to a state, with an old node under the identifier of the state. -/
def reinsertedGraph : Graph :=
  { (((Graph.empty .empty).insert (.ofNat 0)
      (.ofType "start" (NodeType.special 0 1 .entry) [])).insert
      (.ofNat 1) (emptyState "x")).insert (.ofNat 1) (emptyState "y") with
    links := Arena.empty.insert ⟨0, 1, 2, 1⟩ }

theorem reinsertedGraph_labelled : reinsertedGraph.Labelled :=
  let h := (((Graph.consistent_empty .empty).labelled.insert (.ofNat 0)
    (.ofType "start" (NodeType.special 0 1 .entry) [])).insert (.ofNat 1) (emptyState "x")).insert
      (.ofNat 1) (emptyState "y")
  ⟨h.tidy, h.owned, h.own⟩

/-- It is false that a graph which is compiled is compiled after every change of a name that is
allowed. -/
theorem compile_rename_reinserted :
    (reinsertedGraph.compile .standard).outcome =
        .ok ⟨[], none, some ⟨none, some "y", []⟩, [⟨"y", "noop", [], none⟩]⟩ ∧
      ∃ g', reinsertedGraph.rename (.ofNat 1) "x" = .ok g' ∧
        (g'.compile .standard).outcome = .error (.duplicateStateId "x") := by
  have hcompile : (reinsertedGraph.compile .standard).outcome =
      .ok ⟨[], none, some ⟨none, some "y", []⟩, [⟨"y", "noop", [], none⟩]⟩ := by decide +kernel
  have hold : stateName reinsertedGraph (.ofNat 1) = .ok "y" := by decide +kernel
  have hlists : ListsState reinsertedGraph (.ofNat 1) "x" :=
    ⟨emptyState "x", by decide +kernel, rfl, rfl⟩
  obtain ⟨g', hr⟩ : ∃ g', reinsertedGraph.rename (.ofNat 1) "x" = .ok g' :=
    ⟨_, Graph.rename_eq_ok_iff.2 ⟨by decide +kernel, by decide +kernel, rfl⟩⟩
  exact ⟨hcompile, g', hr,
    compile_rename_fails reinsertedGraph_labelled hcompile hold hr hlists (by decide)⟩

end Compile

end Workflow
