import Workflow.Proofs.Compile.States
import Workflow.Proofs.NodeType.Names

/-!
# Nodes whose edges are the names of fields

`Wired` says that the edges that leave a node are drawn from names: one edge for each name in some
fields, to the state with this name, and one edge from the error output if there is an error-catch
node. What is written for such a node are the names of the fields (`Wired.writtenFor_eq`), and its
only error-catch node is that one (`Wired.catchNodes_eq`).
-/

namespace Workflow

namespace TransitionRule

variable {r : TransitionRule} {fields : Fields}

/-- A name stands behind a port when the slot of the port holds it. -/
theorem mem_targets_iff {p : Port} {name : String} :
    (p, name) ∈ r.targets fields ↔ p.isWithin (r.portsFor fields) = true ∧
      ∃ s, r.slot? p = some s ∧ s.read fields = some name := by
  rw [targets_eq_filterMap_slots, slots]
  simp only [List.mem_filterMap, Option.map_eq_some_iff, Prod.exists, Prod.mk.injEq,
    Port.mem_all_iff]
  constructor
  · rintro ⟨_, s, ⟨q, hq, _, hs, rfl, rfl⟩, _, hread, rfl, rfl⟩
    exact ⟨hq, _, hs, hread⟩
  · rintro ⟨hp, s, hs, hread⟩
    exact ⟨p, s, ⟨p, hp, s, hs, rfl, rfl⟩, name, hread, rfl, rfl⟩

/-- No name stands behind the error output. -/
theorem ne_error_of_mem_targets {p : Port} {name : String} (h : (p, name) ∈ r.targets fields) :
    r.errorPort? ≠ some p := by
  intro he
  obtain ⟨-, s, hs, hread⟩ := mem_targets_iff.1 h
  rw [slot?_eq_some_error_iff.2 he] at hs
  obtain rfl := Option.some.inj hs
  cases hread

theorem slot?_ne_error_of_mem_targets {p : Port} {name : String}
    (h : (p, name) ∈ r.targets fields) : r.slot? p ≠ some .error := fun hs =>
  ne_error_of_mem_targets h (slot?_eq_some_error_iff.1 hs)

theorem errorPort_isWithin {p : Port} (h : r.errorPort? = some p) (fields : Fields) :
    p.isWithin (r.portsFor fields) = true := by
  rw [Port.isWithin_iff, toNat_portsFor_eq]
  cases r <;> cases h <;> exact ⟨by decide, Nat.le_add_right _ _⟩

/-- The name behind a port with its slot. -/
def heldBy (r : TransitionRule) (fields : Fields) (p : Port) : Option (TransitionSlot × String) :=
  (r.slot? p).bind fun s => (s.read fields).map (s, ·)

theorem heldBy_eq_some_iff {p : Port} {x : TransitionSlot × String} :
    r.heldBy fields p = some x ↔ r.slot? p = some x.1 ∧ x.1.read fields = some x.2 := by
  obtain ⟨s, name⟩ := x
  simp only [heldBy, Option.bind_eq_some_iff, Option.map_eq_some_iff, Prod.mk.injEq]
  constructor
  · rintro ⟨_, hs, _, hread, rfl, rfl⟩
    exact ⟨hs, hread⟩
  · rintro ⟨hs, hread⟩
    exact ⟨s, hs, name, hread, rfl, rfl⟩

/-- The ports of the fields are all that hold names. -/
theorem isWithin_of_heldBy {p : Port} {x : TransitionSlot × String}
    (h : r.heldBy fields p = some x) : p.isWithin (r.portsFor fields) = true := by
  obtain ⟨hs, hread⟩ := heldBy_eq_some_iff.1 h
  have hlt := p.toNat_lt
  rw [slot?] at hs
  cases hp : p.toNat with
  | zero =>
    rw [hp] at hs
    cases hs
  | succ i =>
    rw [hp] at hs
    by_contra hnot
    have hlength : (r.names fields).length ≤ i := by
      rw [Port.isWithin_iff, toNat_portsFor, PortCount.greatest] at hnot
      rw [names, List.length_append, List.length_map, List.length_map]
      omega
    have hnone := read_slotAt? r fields i
    rw [show r.slotAt? i = some x.1 from hs, Option.bind_some, hread,
      List.getElem?_eq_none hlength] at hnone
    cases hnone

/-- The names of the fields, port by port; ports that hold none add nothing. -/
theorem held_eq {count : PortCount}
    (hcount : (r.portsFor fields).toNat ≤ count.toNat) :
    r.held fields = (Port.all count).filterMap (r.heldBy fields) := by
  obtain ⟨m, hm⟩ := Nat.exists_eq_add_of_le hcount
  have hall : Port.all count = Port.all (r.portsFor fields) ++
      (List.range m).map fun i => UInt16.ofNat ((r.portsFor fields).toNat + i + 1) := by
    rw [Port.all, Port.all, hm, List.range_add, List.map_append, List.map_map]
    rfl
  have hrest : ((List.range m).map fun i =>
      UInt16.ofNat ((r.portsFor fields).toNat + i + 1)).filterMap (r.heldBy fields) = [] := by
    rw [List.filterMap_eq_nil_iff]
    intro p hp
    obtain ⟨i, hi, rfl⟩ := List.mem_map.1 hp
    rw [List.mem_range] at hi
    have hlt := count.toNat_lt
    refine Option.eq_none_iff_forall_ne_some.2 fun x hx => ?_
    have hwithin := isWithin_of_heldBy hx
    rw [Port.isWithin_iff, UInt16.toNat_ofNat', Nat.mod_eq_of_lt (by omega)] at hwithin
    omega
  rw [hall, List.filterMap_append, hrest, List.append_nil, held, slots, List.map_filterMap,
    List.filterMap_filterMap]
  congr 1
  funext p
  rw [heldBy]
  cases r.slot? p <;> rfl

end TransitionRule

namespace Compile

open TransitionRule

theorem mem_outgoing_of_outputsOf {g : Graph} {id : NodeId} {outputs : List (Port × List Edge)}
    (ho : g.outputsOf id = .ok outputs) {output : Port × List Edge} (hmem : output ∈ outputs)
    {e : Edge} {es : List Edge} (hes : output.2 = e :: es) :
    e ∈ g.outgoing id ∧ e.output = output.1 := by
  obtain ⟨p, es'⟩ := output
  have hfilter := Graph.mem_outputsOf ho hmem
  have he : e ∈ (g.outgoing id).filter (·.output = p) := by
    rw [← hfilter, show es' = e :: es from hes]
    exact List.mem_cons_self
  exact ⟨(List.mem_filter.1 he).1, of_decide_eq_true (List.mem_filter.1 he).2⟩

/-- The edges that leave a node are drawn from the names in `fields`, and from the error output to
the error-catch node if there is one. -/
structure Wired (g : Graph) (id : NodeId) (r : TransitionRule) (fields : Fields)
    (catch? : Option NodeId) : Prop where
  sound : ∀ e ∈ g.outgoing id, r.errorPort? = some e.output ∧ catch? = some e.target ∨
    ∃ name, (e.output, name) ∈ r.targets fields ∧ stateName g e.target = .ok name
  drawn : ∀ p name, (p, name) ∈ r.targets fields → ∃ e ∈ g.outgoing id, e.output = p
  caught : ∀ k, catch? = some k → (∃ m, g.node? k = some m ∧ m.isCatch = true) ∧
    ∃ e ∈ g.outgoing id, r.errorPort? = some e.output

namespace Wired

variable {c : Catalog} {g : Graph} {id : NodeId} {n : Node} {t : NodeType} {r : TransitionRule}
  {fields : Fields} {catch? : Option NodeId} {outputs : List (Port × List Edge)}

/-- Every port with an edge is among those that the fields need. -/
theorem isWithin (h : Wired g id r fields catch?) {e : Edge} (he : e ∈ g.outgoing id) :
    e.output.isWithin (r.portsFor fields) = true := by
  rcases h.sound e he with ⟨herr, -⟩ | ⟨name, hmem, -⟩
  · exact errorPort_isWithin herr fields
  · exact (mem_targets_iff.1 hmem).1

theorem outputsOf_eq (h : Wired g id r fields catch?) (hn : g.node? id = some n)
    (hcount : (r.portsFor fields).toNat ≤ n.outputs.toNat) :
    g.outputsOf id = .ok ((Port.all n.outputs).map fun p =>
      (p, (g.outgoing id).filter (·.output = p))) := by
  rw [Graph.outputsOf_eq hn, Graph.byPort_eq_map, Graph.listedPorts_eq fun e he => ?_]
  have := (Port.isWithin_iff _ _).1 (h.isWithin he)
  exact (Port.isWithin_iff _ _).2 ⟨this.1, by omega⟩

/-- Behind an output other than the error output stands the name that the fields hold for it. -/
theorem heldBy_of_edge (h : Wired g id r fields catch?) {e : Edge} (he : e ∈ g.outgoing id)
    (herr : r.errorPort? ≠ some e.output) :
    ∃ s, r.slot? e.output = some s ∧ s ≠ .error ∧ stateName g e.target = .ok (nameOf g e.target) ∧
      r.heldBy fields e.output = some (s, nameOf g e.target) := by
  rcases h.sound e he with ⟨herr', -⟩ | ⟨name, hmem, hname⟩
  · exact absurd herr' herr
  · obtain ⟨-, s, hs, hread⟩ := mem_targets_iff.1 hmem
    have hnameOf := nameOf_of_stateName hname
    refine ⟨s, hs, ?_, hnameOf ▸ hname, heldBy_eq_some_iff.2 ⟨hs, hnameOf ▸ hread⟩⟩
    rintro rfl
    cases hread

/-- Every name in the fields is that of a state that an edge leads to. -/
theorem exists_edge (h : Wired g id r fields catch?) {p : Port} {name : String}
    (hmem : (p, name) ∈ r.targets fields) : ∃ e ∈ g.outgoing id, r.errorPort? ≠ some e.output ∧
      stateName g e.target = .ok name := by
  obtain ⟨e, he, rfl⟩ := h.drawn p name hmem
  have herr := ne_error_of_mem_targets hmem
  obtain ⟨s, hs, -, hstate, hheld⟩ := h.heldBy_of_edge he herr
  obtain ⟨-, s', hs', hread'⟩ := mem_targets_iff.1 hmem
  obtain rfl := Option.some.inj (hs.symm.trans hs')
  obtain ⟨-, hread⟩ := heldBy_eq_some_iff.1 hheld
  have hname : nameOf g e.target = name := Option.some.inj (hread.symm.trans hread')
  exact ⟨e, he, herr, hname ▸ hstate⟩

/-- What is written for a node are the names in the fields. -/
theorem writtenFor_eq (h : Wired g id t.transitions fields catch?) (hn : g.node? id = some n)
    (ht : c.get? n.kind = some t)
    (hcount : (t.transitions.portsFor fields).toNat ≤ n.outputs.toNat) :
    writtenFor c g id = t.transitions.held fields := by
  rw [Compile.writtenFor_eq hn ht (h.outputsOf_eq hn hcount), held_eq hcount, written,
    List.filterMap_map]
  refine List.filterMap_congr fun p _ => ?_
  show writtenBehind g t (p, (g.outgoing id).filter (·.output = p))
    = t.transitions.heldBy fields p
  unfold writtenBehind
  rw [NodeType.slot?_eq]
  cases hes : (g.outgoing id).filter (·.output = p) with
  | nil =>
    -- A name behind an unconnected output would have been drawn.
    refine (Option.eq_none_iff_forall_ne_some.2 fun x hx => ?_).symm
    obtain ⟨hs, hread⟩ := heldBy_eq_some_iff.1 hx
    obtain ⟨e, he, hep⟩ := h.drawn p x.2
      (mem_targets_iff.2 ⟨isWithin_of_heldBy hx, x.1, hs, hread⟩)
    have hmem : e ∈ (g.outgoing id).filter (·.output = p) :=
      List.mem_filter.2 ⟨he, by simpa using hep⟩
    rw [hes] at hmem
    cases hmem
  | cons e rest =>
    have hmem : e ∈ (g.outgoing id).filter (·.output = p) := hes ▸ List.mem_cons_self
    obtain ⟨he, hp⟩ := List.mem_filter.1 hmem
    obtain rfl := of_decide_eq_true hp
    by_cases herr : t.transitions.errorPort? = some e.output
    · simp only [slot?_eq_some_error_iff.2 herr, if_true, heldBy, Option.bind_some]
      rfl
    · obtain ⟨s, hs, hne, -, hheld⟩ := h.heldBy_of_edge he herr
      simp only [hs, if_neg hne, hheld]

/-- The outputs of a state lead to where they may lead. -/
theorem outputsFit (h : Wired g id t.transitions fields catch?)
    (ho : g.outputsOf id = .ok outputs) : OutputsFit g t outputs := by
  intro output hmem e es hes
  obtain ⟨he, hp⟩ := mem_outgoing_of_outputsOf ho hmem hes
  rw [← hp]
  rcases h.sound e he with ⟨herr, hcatch⟩ | ⟨name, hname, -⟩
  · exact .inl ⟨slot?_eq_some_error_iff.2 herr, (h.caught _ hcatch).1⟩
  · obtain ⟨s, hs, hne, hstate, -⟩ := h.heldBy_of_edge he (ne_error_of_mem_targets hname)
    exact .inr ⟨⟨_, hstate⟩, s, hs, hne⟩

/-- The outputs of an error-catch node lead to states. -/
theorem handlersFit (h : Wired g id t.transitions fields none) (ho : g.outputsOf id = .ok outputs) :
    HandlersFit g t outputs := by
  intro output hmem e es hes
  obtain ⟨he, hp⟩ := mem_outgoing_of_outputsOf ho hmem hes
  rw [← hp]
  rcases h.sound e he with ⟨-, hcatch⟩ | ⟨name, hname, -⟩
  · cases hcatch
  · obtain ⟨s, hs, hne, hstate, -⟩ := h.heldBy_of_edge he (ne_error_of_mem_targets hname)
    exact ⟨⟨_, hstate⟩, s, hs, hne⟩

/-- The error-catch node of a state is the one that its error output leads to. -/
theorem catchNodes_eq (h : Wired g id t.transitions fields catch?) (hn : g.node? id = some n)
    (hcount : (t.transitions.portsFor fields).toNat ≤ n.outputs.toNat)
    (ho : g.outputsOf id = .ok outputs) :
    catchNodes t outputs = catch?.toList := by
  obtain rfl := Except.ok.inj ((h.outputsOf_eq hn hcount).symm.trans ho)
  rw [catchNodes, List.filterMap_map]
  show (Port.all n.outputs).filterMap (fun p => if t.transitions.slot? p = some .error then
    ((g.outgoing id).filter (·.output = p)).head?.map Edge.target else none) = _
  have hbehind : ∀ p e, t.transitions.slot? p = some .error →
      ((g.outgoing id).filter (·.output = p)).head? = some e → catch? = some e.target := by
    intro p e hs he
    obtain ⟨hmem, hp⟩ := List.mem_filter.1 (List.mem_of_mem_head? he)
    rw [← of_decide_eq_true hp, slot?_eq_some_error_iff] at hs
    rcases h.sound e hmem with ⟨-, hcatch⟩ | ⟨name, hname, -⟩
    · exact hcatch
    · exact absurd hs (ne_error_of_mem_targets hname)
  cases hcatch : catch? with
  | none =>
    rw [Option.toList_none, List.filterMap_eq_nil_iff]
    intro p _
    split
    next hs =>
      refine Option.map_eq_none_iff.2 (Option.eq_none_iff_forall_ne_some.2 fun e he => ?_)
      rw [hcatch] at hbehind
      cases hbehind p e hs he
    next => rfl
  | some k =>
    obtain ⟨-, e, he, herr⟩ := h.caught k hcatch
    have hwithin : e.output.isWithin n.outputs = true := by
      have := (Port.isWithin_iff _ _).1 (h.isWithin he)
      exact (Port.isWithin_iff _ _).2 ⟨this.1, by omega⟩
    have hnodup : (Port.all n.outputs).Nodup :=
      (Port.pairwise_all n.outputs).imp fun hlt => UInt16.ne_of_lt hlt
    rw [List.filterMap_eq_toList hnodup ((Port.mem_all_iff _ _).2 hwithin) fun p _ hne =>
      if_neg fun hs => hne (Option.some.inj ((slot?_eq_some_error_iff.1 hs).symm.trans herr)),
      if_pos (slot?_eq_some_error_iff.2 herr)]
    cases hhead : ((g.outgoing id).filter (·.output = e.output)).head? with
    | none =>
      have hnil := List.head?_eq_none_iff.1 hhead
      have hmem : e ∈ (g.outgoing id).filter (·.output = e.output) :=
        List.mem_filter.2 ⟨he, by simp⟩
      rw [hnil] at hmem
      cases hmem
    | some e' =>
      have htarget := hbehind _ e' (slot?_eq_some_error_iff.2 herr) hhead
      rw [hcatch] at htarget
      rw [Option.map_some, ← Option.some.inj htarget]

end Wired

end Compile

end Workflow
