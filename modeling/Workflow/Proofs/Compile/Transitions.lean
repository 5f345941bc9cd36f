import Workflow.Proofs.Compile.Emitted

/-!
# Transitions and edges

Whatever names a form holds, a compiled state has the names that the edges of its node tell. A place
for a name (`Follows`) holds the name of the state that the oldest edge of its port leads to, and
nothing when the port has no edge. `IsStateOf.slot_follows` says this of the slots of a state,
`IsHandlerList.handler_follows` of the entries of its error handlers, and
`compile_transitions_follow_edges` of all states of a compiled document.
-/

namespace Workflow

namespace TransitionRule

variable {r : TransitionRule} {fields fields' : Fields} {p : Port} {slot : TransitionSlot}

/-- The slots of the ports depend on the number of places for names alone. -/
theorem slots_congr (h : (r.names fields).length = (r.names fields').length) :
    r.slots fields = r.slots fields' := by
  rw [slots, slots, portsFor_eq, portsFor_eq, h]

/-- A slot holds the name that stands behind its port. -/
theorem mem_targets_iff_read (h : (p, slot) ∈ r.slots fields) {name : String} :
    (p, name) ∈ r.targets fields ↔ slot.read fields = some name := by
  rw [targets_eq_filterMap_slots, List.mem_filterMap]
  constructor
  · rintro ⟨⟨q, s⟩, hmem, hread⟩
    obtain ⟨other, hother, heq⟩ := Option.map_eq_some_iff.1 hread
    cases heq
    obtain rfl := Option.some.inj ((slot?_of_mem_slots hmem).symm.trans (slot?_of_mem_slots h))
    exact hother
  · intro hread
    exact ⟨(p, slot), h, by simp only [hread, Option.map_some]⟩

theorem SameNames.length_names (h : r.SameNames fields fields') :
    (r.names fields).length = (r.names fields').length := by
  have hentries := congrArg List.length h.entries
  rw [List.length_map, List.length_map] at hentries
  rw [names, names, List.length_append, List.length_append, List.length_map, List.length_map,
    List.length_map, List.length_map, hentries]

theorem length_names_strip (r : TransitionRule) (fields : Fields) :
    (r.names (r.strip fields)).length = (r.names fields).length := by
  rw [names, names, entries_strip, List.length_append, List.length_append, List.length_map,
    List.length_map, List.length_map, List.length_map, length_clearBranches]

end TransitionRule

namespace Compile

open TransitionRule

variable {g : Graph} {id : NodeId} {p : Port} {slot : TransitionSlot}

/-- A place for a name holds the name of the state that the oldest edge of a port leads to, and
nothing when the port has no edge. -/
structure Follows (g : Graph) (id : NodeId) (p : Port) (held : Option String) : Prop where
  connected : ∀ e, (g.outgoing id).find? (·.output = p) = some e →
    ∃ name, stateName g e.target = .ok name ∧ held = some name
  free : (g.outgoing id).find? (·.output = p) = none → held = none

/-- What is held follows the edges when each edge leads to a state and the names are those of the
edges. -/
theorem Follows.of_iff {held : Option String}
    (hstate : ∀ e, (g.outgoing id).find? (·.output = p) = some e →
      ∃ name, stateName g e.target = .ok name)
    (hheld : ∀ name, held = some name ↔ ∃ e, (g.outgoing id).find? (·.output = p) = some e ∧
      stateName g e.target = .ok name) : Follows g id p held where
  connected e he := by
    obtain ⟨name, hname⟩ := hstate e he
    exact ⟨name, hname, (hheld name).2 ⟨e, he, hname⟩⟩
  free hnone := by
    rw [Option.eq_none_iff_forall_ne_some]
    intro name hname
    obtain ⟨e, he, -⟩ := (hheld name).1 hname
    rw [hnone] at he
    cases he

/-- The slots of a compiled state, as the form of its node has them, follow the edges. -/
theorem IsStateOf.slot_follows {s : State} {n : Node} {t : NodeType}
    (h : IsStateOf .standard g id s) (hn : g.node? id = some n)
    (ht : Catalog.standard.get? n.kind = some t)
    (hkeyed : ∀ n, g.node? id = some n → Json.KeyedFields n.form)
    (hslot : (p, slot) ∈ t.transitions.slots n.form) (hne : slot ≠ .error) :
    Follows g id p (slot.read s.fields) := by
  have hkind : Catalog.standard.get? s.kind = some t := by
    obtain ⟨n', -, -, -, -, hn', -, -, -, -, -, -, -, hkind, -⟩ := h
    obtain rfl := Option.some.inj (hn.symm.trans hn')
    rwa [hkind]
  obtain ⟨n', outputs, form, hn', -, ho, hfit, hw, hform⟩ := h.exists_form hkind
  obtain rfl := Option.some.inj (hn.symm.trans hn')
  -- Neither stripping nor writing nor encoding changes the number of places.
  have hsame := SameNames.ofForm (Catalog.apart_of_standard hkind) hform
  have hlength := (hsame.length_names.trans (length_names_writeAll hw)).trans
    (length_names_strip t.transitions n.form)
  have hslot' : (p, slot) ∈ t.transitions.slots s.fields := slots_congr hlength ▸ hslot
  refine .of_iff (fun e he => ?_) fun name => ?_
  · obtain ⟨rest, hmem⟩ := (exists_output_iff ho).1 he
    rcases hfit _ hmem e rest rfl with ⟨herror, -⟩ | ⟨hname, -⟩
    · exact absurd (Option.some.inj ((slot?_of_mem_slots hslot).symm.trans herror)) hne
    · exact hname
  · rw [← mem_targets_iff_read hslot', h.mem_targets_iff hkind hkeyed]

/-- The entries of compiled error handlers, as the form of their node has them, follow the edges of
this node. -/
theorem IsHandlerList.handler_follows {k : NodeId} {owner : String} {hs : List CatchEntry}
    {m : Node} (h : IsHandlerList .standard g k owner hs) (hm : g.node? k = some m)
    (hkind : m.kind = NodeType.catchName) (hkeyed : Json.KeyedFields m.form)
    (hslot : (p, slot) ∈ TransitionRule.handlers.slots m.form) :
    ∃ entry, hs[p.toNat - 1]? = some entry ∧ Follows g k p entry.transition := by
  obtain ⟨outputs, form, ho, hfit, hw, hread⟩ := h.exists_form hm hkind
  obtain ⟨hwf, hnames⟩ := Import.readHandlers_eq_ok hread
  -- There are as many entries as in the form, each with a port of its own.
  have hp : 1 ≤ p.toNat ∧ p.toNat ≤ hs.length := by
    obtain ⟨q, hq, heq⟩ := List.mem_filterMap.1 hslot
    obtain ⟨s, -, heq⟩ := Option.map_eq_some_iff.1 heq
    cases heq
    rw [Port.mem_all_iff, Port.isWithin_iff, toNat_portsFor] at hq
    rw [h.length_eq hm hkind]
    have hentries : handlers.entries m.form = TransitionSlot.itemsOf m.form "catch" := rfl
    rw [hentries] at hq
    simp only [fixed, List.length_nil] at hq
    omega
  obtain ⟨entry, hentry⟩ : ∃ entry, hs[p.toNat - 1]? = some entry :=
    ⟨_, List.getElem?_eq_getElem (by omega)⟩
  refine ⟨entry, hentry, .of_iff (fun e he => ?_) fun name => ?_⟩
  · obtain ⟨rest, hmem⟩ := (exists_output_iff ho).1 he
    exact (hfit _ hmem e rest rfl).1
  · rw [← h.mem_targets_iff hm hkind hkeyed]
    refine Iff.trans ?_ (Import.mem_targets_handlerFields
      fun h hmem => (hwf h hmem).transition_not_mem).symm
    constructor
    · intro hname
      exact ⟨_, entry, hentry, hname, by omega⟩
    · rintro ⟨i, x, hx, hname, hi⟩
      obtain rfl : i = p.toNat - 1 := by omega
      obtain rfl := Option.some.inj (hentry.symm.trans hx)
      exact hname

/-- In a compiled document every slot of a state holds the name that the edges of its node tell, and
so does every entry of its error handlers. Only the slot of the error output holds none. -/
theorem compile_transitions_follow_edges {d : Document}
    (hkeyed : ∀ id n, g.node? id = some n → Json.KeyedFields n.form)
    (h : (g.compile .standard).outcome = .ok d) {s : State} (hs : s ∈ d.states) :
    ∃ id n t, g.node? id = some n ∧ stateName g id = .ok s.id ∧ n.kind = s.kind ∧
      Catalog.standard.get? n.kind = some t ∧
      (∀ p slot, (p, slot) ∈ t.transitions.slots n.form → slot ≠ .error →
        Follows g id p (slot.read s.fields)) ∧
      ∀ k m t', IsCatchOf .standard g id k → g.node? k = some m →
        Catalog.standard.get? m.kind = some t' →
        ∀ p slot, (p, slot) ∈ t'.transitions.slots m.form →
          ∃ entry, (s.handlers.getD [])[p.toNat - 1]? = some entry ∧
            Follows g k p entry.transition := by
  obtain ⟨id, hstate⟩ := exists_isStateOf h hs
  have hnode := hstate
  obtain ⟨n, t, -, -, -, hn, -, -, ht, -, -, -, -, hkind, -⟩ := hnode
  refine ⟨id, n, t, hn, hstate.stateName_eq, hkind.symm, ht, fun p slot hslot hne => ?_,
    fun k m t' hk hm ht' p slot hslot => ?_⟩
  · exact hstate.slot_follows hn ht (hkeyed id) hslot hne
  · obtain ⟨m', hm', hcatch⟩ := hstate.isCatch hk
    obtain rfl := Option.some.inj (hm.symm.trans hm')
    have hname : m.kind = NodeType.catchName := of_decide_eq_true (Bool.and_eq_true_iff.1 hcatch).2
    rw [hname] at ht'
    obtain rfl := Option.some.inj (Import.standard_catchName.symm.trans ht')
    obtain ⟨handlers, hlist, hhandlers⟩ := hstate.exists_handlerList hk
    obtain ⟨entry, hentry, hfollows⟩ := hlist.handler_follows hm hname (hkeyed k m hm) hslot
    -- The list has this entry, so it is not left out.
    have hne : handlers.isEmpty = false := by
      cases handlers with
      | nil => cases hentry
      | cons => rfl
    refine ⟨entry, ?_, hfollows⟩
    rw [hhandlers, Option.filter_some, hne]
    exact hentry

/-- A conditional whose form names a state in every place that there is; one of its conditions is
none. -/
def staleSwitch : Node :=
  { Node.ofType "switch" (NodeType.primitive .conditional)
      [("defaultTransition", .str "old"), ("conditions", .arr [.obj [("transition", .str "old")],
        .obj [("transition", .str "old")], .null])] with
    stateId := some "a", initialized := true, outputs := 5, fanOut := [3] }

/-- An error-catch node with two error handlers whose form names a state in both. -/
def staleCatch : Node :=
  .ofType "error-catch" (NodeType.special 1 2 .handlers)
    [("catch", .arr [.obj [("error", .str "E"), ("transition", .str "old")],
      .obj [("error", .str "F"), ("transition", .str "old")]])]

/-- Two edges leave the first condition of the conditional, and one its error output. -/
def staleGraph : Graph :=
  { (((((Graph.empty .empty).insert (.ofNat 0)
      (.ofType "start" (NodeType.special 0 1 .entry) [])).insert
      (.ofNat 1) staleSwitch).insert (.ofNat 2) (emptyState "b")).insert (.ofNat 3)
      (emptyState "c")).insert (.ofNat 4) staleCatch with
    links := ((((Arena.empty.insert ⟨0, 1, 1, 1⟩).insert ⟨1, 3, 2, 1⟩).insert ⟨1, 3, 3, 1⟩).insert
      ⟨1, 2, 4, 1⟩).insert ⟨4, 1, 3, 1⟩ }

theorem staleGraph_consistent : staleGraph.Consistent :=
  ((((((Graph.consistent_empty .empty).insert (by decide) _).insert (by decide) _).insert
    (by decide) _).insert (by decide) _).insert (by decide) _).congr rfl rfl rfl

/-- The document of `staleGraph`. -/
def freshDocument : Document :=
  ⟨[], none, some ⟨none, some "a", []⟩,
    [⟨"a", "switch", [("conditions", .arr [.obj [("transition", .str "b")], .obj [], .null])],
        some [⟨"E", some "c", []⟩, ⟨"F", none, []⟩]⟩,
      ⟨"b", "noop", [], none⟩, ⟨"c", "noop", [], none⟩]⟩

/-- Of the two edges of the first condition the oldest counts; the other condition has none. -/
theorem compile_staleGraph_transitions :
    (staleGraph.compile .standard).outcome = .ok freshDocument ∧
      Follows staleGraph (.ofNat 1) 3 (some "b") ∧ Follows staleGraph (.ofNat 1) 4 none ∧
      Follows staleGraph (.ofNat 4) 1 (some "c") ∧ Follows staleGraph (.ofNat 4) 2 none := by
  have hcompile : (staleGraph.compile .standard).outcome = .ok freshDocument := by decide +kernel
  have hnodes : ∀ e ∈ staleGraph.nodes, Json.KeyedFields e.2.form ∧
      (stateName staleGraph e.1 = .ok "a" → e = (.ofNat 1, staleSwitch)) := by decide +kernel
  have hmem : ∀ id n, staleGraph.node? id = some n → (id, n) ∈ staleGraph.nodes :=
    fun _ _ hn => staleGraph_consistent.mem_nodes_iff.2 hn
  obtain ⟨id, n, t, hn, hname, -, ht, hslots, hhandlers⟩ :=
    compile_transitions_follow_edges (fun id n hn => (hnodes _ (hmem id n hn)).1) hcompile
      (s := freshDocument.states[0]) (List.getElem_mem _)
  cases (hnodes _ (hmem id n hn)).2 hname
  cases ht
  have hcatch : IsCatchOf .standard staleGraph (.ofNat 1) (.ofNat 4) :=
    ⟨_, _, 2, ⟨.ofNat 1, 2, .ofNat 4, 1⟩, hn, rfl, by decide, by decide +kernel, rfl⟩
  have hentries := hhandlers _ staleCatch _ hcatch (by decide +kernel) rfl
  obtain ⟨first, hfirst, hfollows⟩ := hentries 1 (.branch "catch" 0) (by decide +kernel)
  obtain ⟨second, hsecond, hfollows'⟩ := hentries 2 (.branch "catch" 1) (by decide +kernel)
  cases hfirst
  cases hsecond
  exact ⟨hcompile, hslots 3 (.branch "conditions" 0) (by decide +kernel) nofun,
    hslots 4 (.branch "conditions" 1) (by decide +kernel) nofun, hfollows, hfollows'⟩

end Compile

end Workflow
