import Workflow.Proofs.Compile.Emitted
import Workflow.Proofs.Import.Expanded
import Workflow.Proofs.Import.Success

/-!
# A graph that was compiled and imported

The document of an orderly graph is imported without an error, and no state is left out
(`Emits.toGraph_ok`). Between the nodes of the states of the document the new graph has the edges of
the old one, port by port, and so it has between the error-catch nodes and the states
(`Emits.reproduces`).
-/

namespace Workflow

/-! ### Orderly graphs -/

namespace Graph

/-- Every node has a type, no form repeats a key, and no output has two edges. -/
structure Orderly (g : Graph) : Prop where
  consistent : g.Consistent
  typed : ∀ id n, g.node? id = some n → IsTyped .standard n
  keyed : ∀ id n, g.node? id = some n → Json.KeyedFields n.form
  single : ∀ id, ((g.outgoing id).map Edge.output).Nodup

/-- The edge of an output is the only one. -/
theorem Orderly.find?_eq_some_iff {g : Graph} (h : g.Orderly) {id : NodeId} {p : Port} {e : Edge} :
    (g.outgoing id).find? (·.output = p) = some e ↔ e ∈ g.outgoing id ∧ e.output = p := by
  constructor
  · intro he
    exact ⟨List.mem_of_find?_eq_some he, by simpa using List.find?_some he⟩
  · rintro ⟨he, rfl⟩
    obtain ⟨f, hf⟩ : ∃ f, (g.outgoing id).find? (·.output = e.output) = some f :=
      Option.isSome_iff_exists.1 (List.find?_isSome.2 ⟨e, he, by simp⟩)
    have hout : f.output = e.output := by simpa using List.find?_some hf
    rw [hf, List.inj_on_of_nodup_map (h.single id) (List.mem_of_find?_eq_some hf) he hout]

end Graph

namespace Compile

/-- An output leads to the state with the given name. -/
def Joins (g : Graph) (id : NodeId) (p : Port) (name : String) : Prop :=
  ∃ e ∈ g.outgoing id, e.output = p ∧ stateName g e.target = .ok name

/-- The error output of a node leads to an error-catch node. -/
def Catches (g : Graph) (id k : NodeId) : Prop :=
  IsCatchOf .standard g id k ∧ ∃ n, g.node? k = some n ∧ n.isCatch = true

/-- Both graphs have nodes of states with these names, and the same edges from there to states. An
error-catch node of the first graph counts when the list in its form is not empty; the second graph
has one for it, with the same edges to states. -/
structure Reproduces (g g' : Graph) (names : List String) : Prop where
  node : ∀ name ∈ names, ∃! id, stateName g id = .ok name
  node' : ∀ name ∈ names, ∃! id, stateName g' id = .ok name
  edges : ∀ name ∈ names, ∀ x x', stateName g x = .ok name → stateName g' x' = .ok name →
    ∀ p other, Joins g' x' p other ↔ Joins g x p other
  catches : ∀ name ∈ names, ∀ x x', stateName g x = .ok name → stateName g' x' = .ok name →
    ((∃ k', Catches g' x' k') ↔ ∃ k n, Catches g x k ∧ g.node? k = some n ∧
      TransitionSlot.itemsOf n.form "catch" ≠ [])
  handled : ∀ name ∈ names, ∀ x x', stateName g x = .ok name → stateName g' x' = .ok name →
    ∀ k k', Catches g x k → Catches g' x' k' → ∀ p other, Joins g' k' p other ↔ Joins g k p other

section

variable {g : Graph} {id : NodeId} {p : Port} {name : String}

/-- An output of a wired node leads to the state that is named behind it. -/
theorem Wired.joins_iff {r : TransitionRule} {fields : Fields} {catch? : Option NodeId}
    (h : Wired g id r fields catch?) : Joins g id p name ↔ (p, name) ∈ r.targets fields := by
  constructor
  · rintro ⟨e, he, rfl, hname⟩
    rcases h.sound e he with ⟨-, hcatch⟩ | ⟨other, htarget, hother⟩
    · obtain ⟨⟨m, hm, hmcatch⟩, -⟩ := h.caught _ hcatch
      rw [isCatch_of_stateName hname hm] at hmcatch
      cases hmcatch
    · obtain rfl := Except.ok.inj (hname.symm.trans hother)
      exact htarget
  · intro htarget
    obtain ⟨e, he, rfl⟩ := h.drawn p name htarget
    rcases h.sound e he with ⟨herr, -⟩ | ⟨other, hother, hname⟩
    · exact absurd herr (TransitionRule.ne_error_of_mem_targets htarget)
    · obtain ⟨-, s, hs, hread⟩ := TransitionRule.mem_targets_iff.1 htarget
      obtain ⟨-, s', hs', hread'⟩ := TransitionRule.mem_targets_iff.1 hother
      obtain rfl := Option.some.inj (hs.symm.trans hs')
      obtain rfl := Option.some.inj (hread.symm.trans hread')
      exact ⟨e, he, rfl, hname⟩

theorem kind_of_isCatch {n : Node} (h : n.isCatch = true) : n.kind = NodeType.catchName := by
  simp only [Node.isCatch, Bool.and_eq_true, decide_eq_true_eq] at h
  exact h.2

theorem joins_iff_find? (hg : g.Orderly) : Joins g id p name ↔
    ∃ e, (g.outgoing id).find? (·.output = p) = some e ∧ stateName g e.target = .ok name := by
  simp only [hg.find?_eq_some_iff, Joins, and_assoc]

end

/-! ### The document of an orderly graph -/

/-- In the graph of a document, a state has the error-catch node of its place. -/
theorem catches_iff {settings : Settings} {supply : Nat → NodeId} {d : Document} {g : Graph}
    (h : Import.Drawn settings .standard supply d g) {q : Import.Place}
    (hq : q ∈ Import.places .standard d) {k : NodeId} : Catches g (q.id supply) k ↔
      ∃ hs, q.state.handlers = some hs ∧ q.catchId supply = k := by
  rw [Catches, h.isCatchOf_iff hq]
  refine and_iff_left_of_imp ?_
  rintro ⟨hs, hhs, rfl⟩
  exact ⟨Import.catchNode hs, h.node?_catchId hq hhs, rfl⟩

namespace Emits

open Import

variable {g : Graph} {d : Document} {entry : NodeId} {ids : List NodeId} {settings : Settings}
  {supply : Nat → NodeId}

/-- Every state of the document has a type of states. -/
theorem exists_type (h : Emits .standard g d entry ids) (hg : g.Orderly) {s : State}
    (hs : s ∈ d.states) : ∃ t, Catalog.standard.get? s.kind = some t ∧ t.isPrimitive = true := by
  obtain ⟨x, -, hstate⟩ := h.states.exists_of_mem_right hs
  obtain ⟨n, t, -, -, -, hn, hp, -, ht, -, -, -, -, hkind, -⟩ := hstate
  obtain ⟨t', ht', hfamily, -⟩ := hg.typed x n hn
  obtain rfl := Option.some.inj (ht.symm.trans ht')
  refine ⟨t, hkind ▸ ht, ?_⟩
  exact decide_eq_true (hfamily.symm.trans (of_decide_eq_true hp))

theorem map_state_places (h : Emits .standard g d entry ids) (hg : g.Orderly) :
    (places .standard d).map Place.state = d.states :=
  Import.map_state_places fun _ hs => (h.exists_type hg hs).imp fun _ => And.left

/-- Every place is that of a node that was walked over. -/
theorem exists_state (h : Emits .standard g d entry ids) {q : Place}
    (hq : q ∈ places .standard d) : ∃ x ∈ ids, IsStateOf .standard g x q.state :=
  h.states.exists_of_mem_right (get?_of_mem_layout hq).2

/-- A node that was walked over has a place with its name. -/
theorem exists_place (h : Emits .standard g d entry ids) (hg : g.Orderly) {x : NodeId}
    (hx : x ∈ ids) : ∃ q ∈ places .standard d, q.state.id = nameOf g x := by
  obtain ⟨s, hs, he⟩ := List.mem_map.1 (h.nameOf_mem hx)
  rw [← h.map_state_places hg] at hs
  obtain ⟨q, hq, rfl⟩ := List.mem_map.1 hs
  exact ⟨q, hq, he⟩

/-- A state names the states that its outputs lead to. -/
theorem mem_targets_iff (hg : g.Orderly) {q : Place} (hq : q ∈ places .standard d) {x : NodeId}
    (hx : IsStateOf .standard g x q.state) {p : Port} {name : String} :
    (p, name) ∈ q.type.transitions.targets q.state.fields ↔ Joins g x p name := by
  rw [hx.mem_targets_iff (get?_of_mem_layout hq).1 (hg.keyed x), joins_iff_find? hg]

/-- Error handlers name the states that the outputs of their node lead to. -/
theorem mem_handler_targets_iff (hg : g.Orderly) {x k : NodeId} {s : State}
    (hx : IsStateOf .standard g x s) (hk : IsCatchOf .standard g x k) {hs : List CatchEntry}
    (hhs : IsHandlerList .standard g k s.id hs) {p : Port} {name : String} :
    (p, name) ∈ catchType.transitions.targets (handlerFields hs) ↔ Joins g k p name := by
  obtain ⟨n, hn, hcatch⟩ := hx.isCatch hk
  rw [joins_iff_find? hg]
  exact hhs.mem_targets_iff hn (kind_of_isCatch hcatch) (hg.keyed k n hn)

/-- Where an output leads to there is the node of a state that was walked over. -/
theorem exists_place_of_joins (h : Emits .standard g d entry ids) (hg : g.Orderly) {x k : NodeId}
    (hx : x ∈ ids) {p : Port} {name : String} (hjoins : Joins g k p name)
    (hleads : ∀ e ∈ g.outgoing k, e.output = p → LeadsTo .standard g x e.target) :
    ∃ q ∈ places .standard d, q.state.id = name := by
  obtain ⟨e, he, hp, hname⟩ := hjoins
  rw [← nameOf_of_stateName hname]
  exact h.exists_place hg (h.closed x hx _ (hleads e he hp))

theorem start_wellFormed (h : Emits .standard g d entry ids) (hg : g.Orderly) :
    ∀ s, d.start = some s → s.WellFormed := by
  obtain ⟨start, e, block, hstart, -, rfl, hb, hd⟩ := h.start
  obtain ⟨n, name, t, form, hn, -, ht, hf, hof⟩ := startOf_eq_ok_iff.1 hb
  obtain ⟨⟨id, m⟩, hfind, rfl⟩ := Option.map_eq_some_iff.1 hstart
  have hm := hg.consistent.mem_nodes_iff.1 (List.mem_of_find?_eq_some hfind)
  obtain rfl := Option.some.inj (hn.symm.trans hm)
  have hkind : n.kind = NodeType.startName := by
    have hisStart := List.find?_some hfind
    simp only [Node.isStart, Bool.and_eq_true, decide_eq_true_eq] at hisStart
    exact hisStart.2
  rw [hkind] at ht
  obtain rfl := Option.some.inj (standard_startName.symm.trans ht)
  obtain rfl := Except.ok.inj hf
  intro s hs
  obtain rfl := Option.some.inj (hd.symm.trans hs)
  exact Start.wellFormed_of_ofForm ((hg.keyed _ n hn).erase "state") hof

theorem none_not_mem_edgesOf (h : Emits .standard g d entry ids) (hg : g.Orderly) :
    none ∉ edgesOf settings .standard supply d := by
  refine Import.none_not_mem_edgesOf (fun name hname => ?_) (fun q hq => ?_) fun q hq hs hhs => ?_
  · obtain ⟨block, hblock, hstate⟩ := h.start_state
    rw [entryName?, hblock, Option.bind_some, hstate] at hname
    obtain rfl := Option.some.inj hname
    exact h.exists_place hg h.entry_mem
  · rintro ⟨p, name⟩ htarget
    obtain ⟨x, hx, hstate⟩ := h.exists_state hq
    refine h.exists_place_of_joins hg hx ((mem_targets_iff hg hq hstate).1 htarget)
      fun e he hp => ?_
    obtain ⟨n, t, -, -, -, hn, -, -, ht, -, -, -, -, hkind, -⟩ := hstate
    have ht' := (get?_of_mem_layout hq).1
    rw [hkind] at ht'
    refine .output hn ht' he ?_
    rw [hp]
    exact TransitionRule.slot?_ne_error_of_mem_targets htarget
  · obtain ⟨x, hx, hstate⟩ := h.exists_state hq
    obtain ⟨hkind, hmem⟩ := get?_of_mem_layout hq
    obtain ⟨k, hk, hlist, -⟩ := hstate.handlers_eq_some_iff.1 hhs
    obtain ⟨t, ht, hprimitive⟩ := h.exists_type hg hmem
    obtain rfl := Option.some.inj (hkind.symm.trans ht)
    refine ⟨(Import.primitive_of_standard hkind hprimitive).2, ?_⟩
    rintro ⟨p, name⟩ htarget
    exact h.exists_place_of_joins hg hx ((mem_handler_targets_iff hg hstate hk hlist).1 htarget)
      fun e he _ => .handler hk he

/-- The document of an orderly graph is imported without an error, and no state is left out. -/
theorem toGraph_ok (h : Emits .standard g d entry ids) (hg : g.Orderly)
    (hd : Distinct supply (1 + 2 * d.states.length)) :
    ∃ r, (d.toGraph settings .standard supply).outcome = .ok r ∧ r.skipped = [] ∧
      r.graph.metadata = ⟨d.functions, d.extra⟩ ∧ Drawn settings .standard supply d r.graph := by
  have hcontains : ∀ s ∈ d.states, Catalog.standard.contains s.kind = true := by
    intro s hs
    obtain ⟨t, ht, -⟩ := h.exists_type hg hs
    rw [Catalog.contains, ht]
    rfl
  have hprimitive : ∀ p ∈ places .standard d, p.type.isPrimitive = true := by
    intro p hp
    obtain ⟨hkind, hmem⟩ := get?_of_mem_layout hp
    obtain ⟨t, ht, hprimitive⟩ := h.exists_type hg hmem
    obtain rfl := Option.some.inj (hkind.symm.trans ht)
    exact hprimitive
  have hinputs : ∀ p ∈ places .standard d, (1 : Port).isWithin p.type.inputs = true := by
    intro p hp
    rw [(Import.primitive_of_standard (get?_of_mem_layout hp).1 (hprimitive p hp)).1]
    decide
  have hentry := entryName?_eq (h.start_wellFormed hg)
  obtain ⟨r, hr, hskipped⟩ := Import.toGraph_ok standard_startName standard_catchName hd hentry
    (h.nodup_ids hg.consistent.labelled) (.inr hcontains) hinputs (h.none_not_mem_edgesOf hg)
  obtain ⟨-, hmetadata, es, hes, hb⟩ :=
    toGraph_builds standard_startName standard_catchName hd hentry hr
  refine ⟨r, hr, ?_, hmetadata, h.nodup_ids hg.consistent.labelled, hd, hprimitive, es, hes,
    hb.shows⟩
  rw [hskipped, List.map_eq_nil_iff, List.filter_eq_nil_iff]
  intro s hs
  simp [hcontains s hs]

/-- A state of the document has a place; its node in the old graph was walked over. -/
theorem exists_place_of_mem (h : Emits .standard g d entry ids) (hg : g.Orderly) {name : String}
    (hname : name ∈ d.states.map State.id) : ∃ q ∈ places .standard d, q.state.id = name ∧
      ∃ x ∈ ids, IsStateOf .standard g x q.state := by
  obtain ⟨s, hs, rfl⟩ := List.mem_map.1 hname
  rw [← h.map_state_places hg] at hs
  obtain ⟨q, hq, rfl⟩ := List.mem_map.1 hs
  exact ⟨q, hq, rfl, h.exists_state hq⟩

/-- The nodes with the name of a state, in the old graph and in the one that is drawn from the
document, stand for it. -/
theorem exists_place_of_stateName (h : Emits .standard g d entry ids) (hg : g.Orderly)
    {g' : Graph} (hdrawn : Drawn settings .standard supply d g') {name : String}
    (hname : name ∈ d.states.map State.id) {x x' : NodeId} (hx : stateName g x = .ok name)
    (hx' : stateName g' x' = .ok name) : ∃ q ∈ places .standard d, q.id supply = x' ∧
      q.state.id = name ∧ IsStateOf .standard g x q.state := by
  obtain ⟨q, hq, rfl, y, -, hstate⟩ := h.exists_place_of_mem hg hname
  obtain rfl := eq_of_stateName hg.consistent.labelled h.valid hx hstate.stateName_eq
  exact ⟨q, hq, hdrawn.eq_of_stateName (hdrawn.stateName_id hq) hx', rfl, hstate⟩

/-- A graph that is drawn from the document reproduces the one that was compiled. -/
theorem reproduces (h : Emits .standard g d entry ids) (hg : g.Orderly) {g' : Graph}
    (hdrawn : Drawn settings .standard supply d g') :
    Reproduces g g' (d.states.map State.id) := by
  refine ⟨fun name hname => ?_, fun name hname => ?_, ?_, ?_, ?_⟩
  · obtain ⟨q, -, rfl, x, -, hstate⟩ := h.exists_place_of_mem hg hname
    exact ⟨x, hstate.stateName_eq, fun y hy =>
      eq_of_stateName hg.consistent.labelled h.valid hy hstate.stateName_eq⟩
  · obtain ⟨q, hq, rfl, -⟩ := h.exists_place_of_mem hg hname
    exact ⟨_, hdrawn.stateName_id hq, fun y hy => hdrawn.eq_of_stateName hy (hdrawn.stateName_id hq)⟩
  · intro name hname x x' hx hx' p other
    obtain ⟨q, hq, rfl, -, hstate⟩ := h.exists_place_of_stateName hg hdrawn hname hx hx'
    rw [(hdrawn.wired_node hq).joins_iff, mem_targets_iff hg hq hstate]
  · intro name hname x x' hx hx'
    obtain ⟨q, hq, rfl, -, hstate⟩ := h.exists_place_of_stateName hg hdrawn hname hx hx'
    constructor
    · rintro ⟨k', hk'⟩
      obtain ⟨hs, hhs, -⟩ := (catches_iff hdrawn hq).1 hk'
      obtain ⟨k, hk, hlist, hne⟩ := hstate.handlers_eq_some_iff.1 hhs
      obtain ⟨m, hm, hcatch⟩ := hstate.isCatch hk
      refine ⟨k, m, ⟨hk, m, hm, hcatch⟩, hm, fun hnil => hne ?_⟩
      rw [← List.length_eq_zero_iff, hlist.length_eq hm (kind_of_isCatch hcatch), hnil]
      rfl
    · rintro ⟨k, m, ⟨hk, -, -, -⟩, hm, hitems⟩
      obtain ⟨m', hm', hcatch⟩ := hstate.isCatch hk
      obtain rfl := Option.some.inj (hm.symm.trans hm')
      obtain ⟨hs, hlist, -⟩ := hstate.exists_handlerList hk
      have hne : hs ≠ [] := by
        rintro rfl
        have hlength := hlist.length_eq hm (kind_of_isCatch hcatch)
        exact hitems (List.length_eq_zero_iff.1 hlength.symm)
      have hhs := hstate.handlers_eq_some_iff.2 ⟨k, hk, hlist, hne⟩
      exact ⟨_, (catches_iff hdrawn hq).2 ⟨hs, hhs, rfl⟩⟩
  · intro name hname x x' hx hx' k k' hk hk' p other
    obtain ⟨q, hq, rfl, -, hstate⟩ := h.exists_place_of_stateName hg hdrawn hname hx hx'
    obtain ⟨hs, hhs, rfl⟩ := (catches_iff hdrawn hq).1 hk'
    obtain ⟨k₀, hk₀, hlist, -⟩ := hstate.handlers_eq_some_iff.1 hhs
    obtain rfl := hk.1.unique hk₀
    rw [(hdrawn.wired_catchNode hq hhs).joins_iff, mem_handler_targets_iff hg hstate hk₀ hlist]

end Emits

end Compile

end Workflow
