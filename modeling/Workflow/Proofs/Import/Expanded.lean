import Workflow.Proofs.Compile.Success
import Workflow.Proofs.Document.Restored
import Workflow.Proofs.Import.Wiring
import Workflow.Proofs.NodeType.Restored

/-!
# What the nodes of an imported graph are compiled to

Each node of an imported graph that stands for a state is compiled to this state again, its fields
in normal form and an empty list of error handlers left out (`Drawn.exists_state`). What has to
follow it are the states that it names (`Drawn.leadsTo_iff`).
-/

namespace Workflow

/-- The ids that a state of a given type names, in its transitions and in its error handlers. -/
def State.names (t : NodeType) (s : State) : List String :=
  (t.transitions.targets s.fields).map Prod.snd ++
    (s.handlers.getD []).filterMap CatchEntry.transition

/-- The state can be kept in a graph: every name has a port, and the transforms that are shown as
YAML text are read back from it. -/
structure State.Keeps (t : NodeType) (s : State) : Prop where
  fits : t.transitions.Fits s.fields
  handlers : ∀ hs, s.handlers = some hs → hs.length ≤ PortCount.greatest
  transforms : ∀ v ∈ t.transforms s.fields, Transform.ReadsBack v

namespace Import.Drawn

open Compile TransitionRule

variable {settings : Settings} {c : Catalog} {supply : Nat → NodeId} {d : Document} {g : Graph}
  {p q : Place}

/-- The error-catch node of a state amounts to the error handlers of the state. -/
theorem isHandlerList [HasSpecials c] (h : Drawn settings c supply d g) (hp : p ∈ places c d)
    {hs : List CatchEntry} (hhs : p.state.handlers = some hs)
    (hhandlers : ∀ h ∈ hs, h.WellFormed) (owner : String) :
    IsHandlerList c g (p.catchId supply) owner hs := by
  have hwired := h.wired_catchNode hp hhs
  have hn := h.node?_catchId hp hhs
  have hcount := toNat_portsFor_le catchType.transitions (handlerFields hs) catchType.outputs
  obtain ⟨form, hform, hfields, hread⟩ := handlers_restored hhandlers owner
  have hout := hwired.outputsOf_eq hn hcount
  refine ⟨catchNode hs, catchType, _, form, form, hn, HasSpecials.get?_catch, hout,
    hwired.handlersFit hout, ?_, hfields, hread⟩
  rw [hwired.writtenFor_eq hn HasSpecials.get?_catch hcount]
  exact hform

/-- What is written for a state are its names. -/
theorem writtenFor_id (h : Drawn settings c supply d g) (hp : p ∈ places c d) :
    writtenFor c g (p.id supply) = p.type.transitions.held p.state.fields :=
  (h.wired_node hp).writtenFor_eq (h.node?_id hp) (get?_of_mem_layout hp).1
    (toNat_portsFor_le p.type.transitions p.state.fields p.type.outputs)

/-- A state is compiled to the fields for its form with the names written into it, and to its error
handlers, unless they are an empty list. -/
theorem isStateOf [HasSpecials c] (h : Drawn settings c supply d g) (hp : p ∈ places c d)
    (hhandlers : ∀ hs, p.state.handlers = some hs → ∀ h ∈ hs, h.WellFormed) {form fields : Fields}
    (hform : writeAll (p.type.transitions.strip p.node.form) (writtenFor c g (p.id supply))
      = some form)
    (hfields : p.type.form.ofForm p.state.id form = .ok fields) :
    IsStateOf c g (p.id supply)
      ⟨p.state.id, p.state.kind, fields, p.state.handlers.filter fun hs => !hs.isEmpty⟩ := by
  have hwired := h.wired_node hp
  have hn := h.node?_id hp
  have hcount := toNat_portsFor_le p.type.transitions p.state.fields p.type.outputs
  have hout := hwired.outputsOf_eq hn hcount
  have hlists : ∃ lists, List.Forall₂ (IsHandlerList c g · p.state.id)
      (p.state.handlers.map fun _ => p.catchId supply).toList lists ∧
      lists.getLast? = p.state.handlers := by
    cases hhs : p.state.handlers with
    | none => exact ⟨[], .nil, rfl⟩
    | some hs => exact ⟨[hs], .cons (h.isHandlerList hp hhs (hhandlers hs hhs) _) .nil, rfl⟩
  obtain ⟨lists, hlists, hlast⟩ := hlists
  refine ⟨p.node, p.type, _, form, lists, hn, h.primitive p hp, rfl, (get?_of_mem_layout hp).1, hout,
    hwired.outputsFit hout, hform, ?_, rfl, ?_, by rw [hlast]⟩
  · exact fieldsOfForm_eq_ok_iff.2 hfields
  · rw [hwired.catchNodes_eq hn hcount hout]
    exact hlists

/-- A state is compiled to itself, its fields in normal form and without an empty list of error
handlers. -/
theorem exists_state (h : Drawn settings .standard supply d g) (hw : d.WellFormed)
    (hp : p ∈ places .standard d) (hkeeps : p.state.Keeps p.type) :
    ∃ s, IsStateOf .standard g (p.id supply) s ∧ s.id = p.state.id ∧ s.kind = p.state.kind ∧
      s.handlers = p.state.handlers.filter (fun hs => !hs.isEmpty) ∧
      Json.Alike (.obj s.fields) (.obj (p.type.normal p.state.fields)) := by
  obtain ⟨hkind, hmem⟩ := get?_of_mem_layout hp
  obtain ⟨form, fields, hform, hfields, halike⟩ := NodeType.fields_restored
    (Catalog.apart_of_standard hkind) (Catalog.separate_of_standard hkind)
    (hw.states _ hmem).fields.1 hkeeps.fits hkeeps.transforms p.state.id
  rw [← h.writtenFor_id hp] at hform
  exact ⟨_, h.isStateOf hp (hw.states _ hmem).handlers hform hfields, rfl, rfl, rfl, halike⟩

/-! ### What follows -/

/-- A node that stands for a state is that of a place. -/
theorem exists_place (h : Drawn settings c supply d g) {id : NodeId} {n : Node}
    (hn : g.node? id = some n) (hprimitive : n.isPrimitive = true) :
    ∃ q ∈ places c d, q.id supply = id ∧ n = q.node := by
  obtain ⟨es, -, hshows⟩ := h.shows
  rcases mem_nodesOf (hshows.node?_eq_some_iff.1 hn) with he | ⟨q, hq, he | ⟨hs, -, he⟩⟩
  · cases he
    cases hprimitive
  · cases he
    exact ⟨q, hq, rfl, rfl⟩
  · cases he
    cases hprimitive

theorem exists_place_of_stateName (h : Drawn settings c supply d g) {id : NodeId}
    {name : String} (hname : stateName g id = .ok name) :
    ∃ q ∈ places c d, q.id supply = id ∧ q.state.id = name := by
  obtain ⟨n, hn, hprimitive, hid⟩ := stateName_eq_ok_iff.1 hname
  obtain ⟨q, hq, rfl, rfl⟩ := h.exists_place hn hprimitive
  exact ⟨q, hq, rfl, Option.some.inj hid⟩

/-- The states of places have different ids. -/
theorem eq_of_id_eq (h : Drawn settings c supply d g) (hp : p ∈ places c d)
    (hq : q ∈ places c d) (he : p.state.id = q.state.id) : p = q :=
  eq_of_nodup_ids h.ids hp hq he

theorem isCatchOf_iff (h : Drawn settings c supply d g) (hp : p ∈ places c d)
    {k : NodeId} : IsCatchOf c g (p.id supply) k ↔
      ∃ hs, p.state.handlers = some hs ∧ p.catchId supply = k := by
  obtain ⟨hkind, -⟩ := get?_of_mem_layout hp
  have hwired := h.wired_node hp
  have hn := h.node?_id hp
  have hcount := toNat_portsFor_le p.type.transitions p.state.fields p.type.outputs
  have hout := hwired.outputsOf_eq hn hcount
  rw [← mem_catchNodes_iff hn hkind hout, hwired.catchNodes_eq hn hcount hout, Option.mem_toList,
    Option.map_eq_some_iff]

/-- Only one node stands for the state with a given id. -/
theorem eq_of_stateName (h : Drawn settings c supply d g) {x y : NodeId} {name : String}
    (hx : stateName g x = .ok name) (hy : stateName g y = .ok name) : x = y := by
  obtain ⟨p, hp, rfl, hpname⟩ := h.exists_place_of_stateName hx
  obtain ⟨q, hq, rfl, hqname⟩ := h.exists_place_of_stateName hy
  rw [h.eq_of_id_eq hp hq (hpname.trans hqname.symm)]

theorem mem_names_of_handlers (hw : d.WellFormed) (hp : p ∈ places c d)
    {hs : List CatchEntry} (hhs : p.state.handlers = some hs) {port : Port} {name : String}
    (hname : (port, name) ∈ catchType.transitions.targets (handlerFields hs)) :
    name ∈ p.state.names p.type := by
  obtain ⟨-, hmem⟩ := get?_of_mem_layout hp
  have hplain : ∀ h ∈ hs, "transition" ∉ h.extra.keys := fun h hh =>
    ((hw.states _ hmem).handlers hs hhs h hh).transition_not_mem
  obtain ⟨i, handler, hi, ht, -⟩ := (mem_targets_handlerFields hplain).1 hname
  refine List.mem_append_right _ ?_
  rw [hhs]
  exact List.mem_filterMap.2 ⟨handler, List.mem_of_getElem? hi, ht⟩

/-- Each name of a state is drawn as an edge that leaves the node of the state, or that of its error
handlers. -/
theorem exists_leadsTo (h : Drawn settings c supply d g) (hw : d.WellFormed)
    (hp : p ∈ places c d) (hkeeps : p.state.Keeps p.type) {name : String}
    (hname : name ∈ p.state.names p.type) :
    ∃ x, stateName g x = .ok name ∧ LeadsTo c g (p.id supply) x := by
  obtain ⟨hkind, hmem⟩ := get?_of_mem_layout hp
  rcases List.mem_append.1 hname with hname | hname
  · obtain ⟨⟨port, other⟩, htarget, rfl⟩ := List.mem_map.1 hname
    obtain ⟨e, he, herr, hstate⟩ := (h.wired_node hp).exists_edge htarget
    exact ⟨e.target, hstate, .output (h.node?_id hp) hkind he fun hslot =>
      herr (TransitionRule.slot?_eq_some_error_iff.1 hslot)⟩
  · obtain ⟨handler, hhandler, ht⟩ := List.mem_filterMap.1 hname
    cases hhs : p.state.handlers with
    | none =>
      rw [hhs] at hhandler
      cases hhandler
    | some hs =>
      rw [hhs] at hhandler
      obtain ⟨i, hi⟩ := List.mem_iff_getElem?.1 hhandler
      have hlt : i < hs.length := (List.getElem?_eq_some_iff.1 hi).1
      have hlength := hkeeps.handlers hs hhs
      have hport : (UInt16.ofNat (i + 1)).toNat = i + 1 := by
        rw [PortCount.greatest] at hlength
        rw [UInt16.toNat_ofNat', Nat.mod_eq_of_lt (by omega)]
      have hplain : ∀ h ∈ hs, "transition" ∉ h.extra.keys := fun h hh =>
        ((hw.states _ hmem).handlers hs hhs h hh).transition_not_mem
      obtain ⟨e, he, -, hstate⟩ := (h.wired_catchNode hp hhs).exists_edge
        ((mem_targets_handlerFields hplain).2 ⟨i, handler, hi, ht, hport⟩)
      exact ⟨e.target, hstate, .handler ((h.isCatchOf_iff hp).2 ⟨hs, hhs, rfl⟩) he⟩

/-- What has to follow a state is named by one of its targets, or by one of its error handlers. -/
theorem named_of_leadsTo (h : Drawn settings c supply d g) (hp : p ∈ places c d)
    {x : NodeId} (hleads : LeadsTo c g (p.id supply) x) : ∃ name, stateName g x = .ok name ∧
      ((∃ port, (port, name) ∈ p.type.transitions.targets p.state.fields) ∨
        ∃ hs port, p.state.handlers = some hs ∧
          (port, name) ∈ catchType.transitions.targets (handlerFields hs)) := by
  cases hleads with
  | @output n t e hn ht he herr =>
    cases (h.node?_id hp).symm.trans hn
    obtain rfl := Option.some.inj ((get?_of_mem_layout hp).1.symm.trans ht)
    rcases (h.wired_node hp).sound e he with ⟨herr', -⟩ | ⟨name, hname, hstate⟩
    · exact absurd (TransitionRule.slot?_eq_some_error_iff.2 herr') herr
    · exact ⟨name, hstate, .inl ⟨e.output, hname⟩⟩
  | @handler k e hk he =>
    obtain ⟨hs, hhs, rfl⟩ := (h.isCatchOf_iff hp).1 hk
    rcases (h.wired_catchNode hp hhs).sound e he with ⟨-, hcatch⟩ | ⟨name, hname, hstate⟩
    · cases hcatch
    · exact ⟨name, hstate, .inr ⟨hs, e.output, hhs, hname⟩⟩

/-- What has to follow a state stands for a state. -/
theorem exists_place_of_leadsTo (h : Drawn settings c supply d g)
    (hp : p ∈ places c d) {x : NodeId} (hleads : LeadsTo c g (p.id supply) x) :
    ∃ q ∈ places c d, q.id supply = x := by
  obtain ⟨name, hname, -⟩ := h.named_of_leadsTo hp hleads
  obtain ⟨q, hq, rfl, -⟩ := h.exists_place_of_stateName hname
  exact ⟨q, hq, rfl⟩

/-- What has to follow a state is one of the states that it names. -/
theorem mem_names_of_leadsTo (h : Drawn settings c supply d g) (hw : d.WellFormed)
    (hp : p ∈ places c d) {x : NodeId} (hleads : LeadsTo c g (p.id supply) x) :
    ∃ name ∈ p.state.names p.type, stateName g x = .ok name := by
  obtain ⟨name, hstate, ⟨port, hname⟩ | ⟨hs, port, hhs, hname⟩⟩ := h.named_of_leadsTo hp hleads
  · exact ⟨name, List.mem_append_left _ (List.mem_map_of_mem hname), hstate⟩
  · exact ⟨name, mem_names_of_handlers hw hp hhs hname, hstate⟩

/-- A compilation goes from a state to the states that it names. -/
theorem leadsTo_iff (h : Drawn settings c supply d g) (hw : d.WellFormed)
    (hp : p ∈ places c d) (hkeeps : p.state.Keeps p.type) {x : NodeId} :
    LeadsTo c g (p.id supply) x ↔
      ∃ name ∈ p.state.names p.type, stateName g x = .ok name := by
  refine ⟨h.mem_names_of_leadsTo hw hp, ?_⟩
  rintro ⟨name, hname, hstate⟩
  obtain ⟨y, hy, hleads⟩ := h.exists_leadsTo hw hp hkeeps hname
  exact h.eq_of_stateName hstate hy ▸ hleads

end Import.Drawn

end Workflow
