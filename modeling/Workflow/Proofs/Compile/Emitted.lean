import Workflow.Proofs.Compile.States
import Workflow.Proofs.Import.Described
import Workflow.Proofs.Document.Restored
import Workflow.Proofs.NodeType.Written

/-!
# The names in a compiled document

A form never adds a name of its own to a document: the names in a compiled state, and those in its
error handlers, are the names of the states that the edges of its nodes lead to, port by port
(`IsStateOf.mem_targets_iff`, `IsHandlerList.mem_targets_iff`).
-/

namespace Workflow.Compile

open TransitionRule

variable {g : Graph} {id : NodeId} {outputs : List (Port × List Edge)} {p : Port} {name : String}

/-- The oldest edge of an output is the first one that is listed for its port. -/
theorem exists_output_iff (ho : g.outputsOf id = .ok outputs) {e : Edge} :
    (g.outgoing id).find? (·.output = p) = some e ↔ ∃ rest, (p, e :: rest) ∈ outputs := by
  rw [← List.head?_filter, List.head?_eq_some_iff]
  constructor
  · rintro ⟨rest, hrest⟩
    have hmem : e ∈ (g.outgoing id).filter (·.output = p) := by
      rw [hrest]
      exact List.mem_cons_self
    obtain ⟨he, hp⟩ := List.mem_filter.1 hmem
    obtain rfl := of_decide_eq_true hp
    exact ⟨rest, hrest ▸ Graph.exists_mem_outputsOf ho he⟩
  · rintro ⟨rest, hmem⟩
    exact ⟨rest, (Graph.mem_outputsOf ho hmem).symm⟩

theorem nameBehind_eq_some_iff {t : NodeType} (ho : g.outputsOf id = .ok outputs) :
    nameBehind g t outputs p = some name ↔ ∃ e s, (g.outgoing id).find? (·.output = p) = some e ∧
      t.transitions.slot? p = some s ∧ s ≠ .error ∧ nameOf g e.target = name := by
  unfold nameBehind
  constructor
  · intro h
    obtain ⟨⟨q, es⟩, hfind, hname⟩ := Option.bind_eq_some_iff.1 h
    obtain rfl : q = p := by simpa using List.find?_some hfind
    obtain ⟨⟨s, other⟩, hbehind, rfl⟩ := Option.map_eq_some_iff.1 hname
    obtain ⟨e, he, hs, hne, rfl⟩ := writtenBehind_eq_some_iff.1 hbehind
    obtain ⟨rest, rfl⟩ := List.head?_eq_some_iff.1 he
    exact ⟨e, s, (exists_output_iff ho).2 ⟨rest, List.mem_of_find?_eq_some hfind⟩, hs, hne, rfl⟩
  · rintro ⟨e, s, he, hs, hne, rfl⟩
    obtain ⟨rest, hmem⟩ := (exists_output_iff ho).1 he
    obtain ⟨⟨q, es⟩, hfind⟩ : ∃ output, outputs.find? (·.1 = p) = some output :=
      Option.isSome_iff_exists.1 (List.find?_isSome.2 ⟨_, hmem, by simp⟩)
    obtain rfl : q = p := by simpa using List.find?_some hfind
    have hes := Graph.mem_outputsOf ho (List.mem_of_find?_eq_some hfind)
    rw [← Graph.mem_outputsOf ho hmem] at hes
    have hbehind : writtenBehind g t (q, es) = some (s, nameOf g e.target) :=
      writtenBehind_eq_some_iff.2 ⟨e, by rw [hes]; rfl, hs, hne, rfl⟩
    rw [hfind, Option.bind_some, hbehind]
    rfl

theorem nodup_ports (ho : g.outputsOf id = .ok outputs) : (outputs.map Prod.fst).Nodup := by
  obtain ⟨n, -, rfl⟩ := Graph.node?_of_outputsOf ho
  rw [Graph.byPort_eq_map, List.map_map]
  show ((Graph.listedPorts _ _ _).map fun p => p).Nodup
  rw [List.map_id']
  exact (Graph.pairwise_listedPorts _ _ _).imp UInt16.ne_of_lt

/-- What was written for the outputs of a node into fields without names. -/
theorem mem_targets_written {t : NodeType} (ho : g.outputsOf id = .ok outputs)
    {fields form : Fields} (hkeyed : Json.KeyedFields fields)
    (hw : writeAll (t.transitions.strip fields) (written g t outputs) = some form) :
    (p, name) ∈ t.transitions.targets form ↔ ∃ e s, (g.outgoing id).find? (·.output = p) = some e ∧
      t.transitions.slot? p = some s ∧ s ≠ .error ∧ nameOf g e.target = name := by
  rw [mem_targets_writeAll (nodup_ports ho) hw, targets_strip hkeyed, nameBehind_eq_some_iff ho]
  simp

/-- A compiled state stands for a node. -/
theorem exists_isStateOf {c : Catalog} {d : Document} (h : (g.compile c).outcome = .ok d) {s : State}
    (hs : s ∈ d.states) : ∃ id, IsStateOf c g id s := by
  obtain ⟨start, e, block, w, -, -, -, -, hw, -, rfl⟩ := compile_eq_ok_iff.1 (Traced.eq_of_outcome h)
  obtain ⟨ids, hgrows, -⟩ := statesOf_grows hw
  obtain ⟨id, -, hstate⟩ := (forall₂_isStateOf hgrows).exists_of_mem_right hs
  exact ⟨id, hstate⟩

theorem IsStateOf.exists_form {s : State} {t : NodeType} (h : IsStateOf .standard g id s)
    (ht : Catalog.standard.get? s.kind = some t) : ∃ n outputs form, g.node? id = some n ∧
      n.kind = s.kind ∧ g.outputsOf id = .ok outputs ∧ OutputsFit g t outputs ∧
      writeAll (t.transitions.strip n.form) (written g t outputs) = some form ∧
      t.form.ofForm s.id form = .ok s.fields := by
  obtain ⟨n, t', outputs, form, -, hn, -, -, ht', ho, hfit, hw, hf, hkind, -⟩ := h
  obtain rfl := Option.some.inj ((hkind ▸ ht).symm.trans ht')
  rw [writtenFor_eq hn ht' ho] at hw
  exact ⟨n, outputs, form, hn, hkind.symm, ho, hfit, hw, fieldsOfForm_eq_ok_iff.1 hf⟩

/-- A node that stands for a state is not an error-catch node. -/
theorem isCatch_of_stateName {n : Node} (hname : stateName g id = .ok name)
    (hn : g.node? id = some n) : n.isCatch = false := by
  obtain ⟨n', hn', hp, -⟩ := stateName_eq_ok_iff.1 hname
  obtain rfl := Option.some.inj (hn.symm.trans hn')
  rw [Node.isCatch, show n.family = .primitive from of_decide_eq_true hp]
  rfl

/-- The names in a compiled state are those of the states that its outputs lead to. -/
theorem IsStateOf.mem_targets_iff {s : State} {t : NodeType} (h : IsStateOf .standard g id s)
    (ht : Catalog.standard.get? s.kind = some t)
    (hkeyed : ∀ n, g.node? id = some n → Json.KeyedFields n.form) :
    (p, name) ∈ t.transitions.targets s.fields ↔
      ∃ e, (g.outgoing id).find? (·.output = p) = some e ∧ stateName g e.target = .ok name := by
  obtain ⟨n, outputs, form, hn, -, ho, hfit, hw, hform⟩ := h.exists_form ht
  rw [(SameNames.ofForm (Catalog.apart_of_standard ht) hform).targets_eq,
    mem_targets_written ho (hkeyed n hn) hw]
  constructor
  · rintro ⟨e, s', he, hs, hne, rfl⟩
    refine ⟨e, he, ?_⟩
    obtain ⟨rest, hmem⟩ := (exists_output_iff ho).1 he
    rcases hfit _ hmem e rest rfl with ⟨hslot, -⟩ | ⟨⟨name, hname⟩, -⟩
    · exact absurd (Option.some.inj (hs.symm.trans hslot)) hne
    · rw [nameOf_of_stateName hname, hname]
  · rintro ⟨e, he, hname⟩
    obtain ⟨rest, hmem⟩ := (exists_output_iff ho).1 he
    rcases hfit _ hmem e rest rfl with ⟨-, target, htarget, hcatch⟩ | ⟨-, s', hs, hne⟩
    · rw [isCatch_of_stateName hname htarget] at hcatch
      cases hcatch
    · exact ⟨e, s', he, hs, hne, nameOf_of_stateName hname⟩

/-- What the error handlers of an error-catch node were read from. -/
theorem IsHandlerList.exists_form {owner : String} {hs : List CatchEntry} {n : Node}
    (h : IsHandlerList .standard g id owner hs) (hn : g.node? id = some n)
    (hkind : n.kind = NodeType.catchName) : ∃ outputs form, g.outputsOf id = .ok outputs ∧
      HandlersFit g Import.catchType outputs ∧
      writeAll (TransitionRule.handlers.strip n.form) (written g Import.catchType outputs)
        = some form ∧
      readHandlers form = .ok hs := by
  obtain ⟨n', t, outputs, form, fields, hn', ht, ho, hfit, hw, hf, hread⟩ := h
  obtain rfl := Option.some.inj (hn.symm.trans hn')
  rw [writtenFor_eq hn ht ho] at hw
  rw [hkind] at ht
  obtain rfl := Option.some.inj (Import.standard_catchName.symm.trans ht)
  cases hf
  exact ⟨outputs, form, ho, hfit, hw, hread⟩

/-- The names in compiled error handlers are those of the states that the outputs of their node lead
to. -/
theorem IsHandlerList.mem_targets_iff {owner : String} {hs : List CatchEntry} {n : Node}
    (h : IsHandlerList .standard g id owner hs) (hn : g.node? id = some n)
    (hkind : n.kind = NodeType.catchName) (hkeyed : Json.KeyedFields n.form) :
    (p, name) ∈ TransitionRule.handlers.targets (Import.handlerFields hs) ↔
      ∃ e, (g.outgoing id).find? (·.output = p) = some e ∧ stateName g e.target = .ok name := by
  obtain ⟨outputs, form, ho, hfit, hw, hread⟩ := h.exists_form hn hkind
  obtain ⟨hwf, hnames⟩ := Import.readHandlers_eq_ok hread
  have htargets : (p, name) ∈ TransitionRule.handlers.targets (Import.handlerFields hs) ↔
      (p, name) ∈ TransitionRule.handlers.targets form := by
    rw [mem_targets_iff_names, mem_targets_iff_names,
      Import.names_handlerFields fun h hmem => (hwf h hmem).transition_not_mem, hnames]
  refine htargets.trans ((mem_targets_written (t := Import.catchType) ho hkeyed hw).trans ?_)
  constructor
  · rintro ⟨e, s, he, hs, hne, rfl⟩
    obtain ⟨rest, hmem⟩ := (exists_output_iff ho).1 he
    obtain ⟨⟨name, hname⟩, -⟩ := hfit _ hmem e rest rfl
    exact ⟨e, he, by rw [nameOf_of_stateName hname, hname]⟩
  · rintro ⟨e, he, hname⟩
    obtain ⟨rest, hmem⟩ := (exists_output_iff ho).1 he
    obtain ⟨-, s, hs, hne⟩ := hfit _ hmem e rest rfl
    exact ⟨e, s, he, hs, hne, nameOf_of_stateName hname⟩

/-- There is one error handler for each entry of the list in the form. -/
theorem IsHandlerList.length_eq {owner : String} {hs : List CatchEntry} {n : Node}
    (h : IsHandlerList .standard g id owner hs) (hn : g.node? id = some n)
    (hkind : n.kind = NodeType.catchName) :
    hs.length = (TransitionSlot.itemsOf n.form "catch").length := by
  obtain ⟨outputs, form, -, -, hw, hread⟩ := h.exists_form hn hkind
  obtain ⟨-, hnames⟩ := Import.readHandlers_eq_ok hread
  have hlength := (congrArg List.length hnames).trans
    (length_names_writeAll (t := Import.catchType) hw)
  rw [List.length_map] at hlength
  show _ = (TransitionRule.handlers.entries n.form).length
  rw [hlength, names, List.length_append, List.length_map, List.length_map]
  show _ + (TransitionRule.handlers.entries (TransitionRule.handlers.strip n.form)).length = _
  rw [entries_strip, length_clearBranches]
  exact Nat.zero_add _

/-! ### Error-catch nodes -/

/-- The error output of a node leads to one error-catch node at most. -/
theorem IsCatchOf.unique {c : Catalog} {k k' : NodeId} (h : IsCatchOf c g id k)
    (h' : IsCatchOf c g id k') : k = k' := by
  obtain ⟨n, t, q, e, hn, ht, hq, he, rfl⟩ := h
  obtain ⟨n', t', q', e', hn', ht', hq', he', rfl⟩ := h'
  cases hn.symm.trans hn'
  cases ht.symm.trans ht'
  cases (TransitionRule.slot?_eq_some_error_iff.1 hq).symm.trans
    (TransitionRule.slot?_eq_some_error_iff.1 hq')
  cases he.symm.trans he'
  rfl

theorem IsHandlerList.unique {c : Catalog} {k : NodeId} {owner : String} {hs hs' : List CatchEntry}
    (h : IsHandlerList c g k owner hs) (h' : IsHandlerList c g k owner hs') : hs = hs' := by
  have heq := handlersOf_eq_ok_iff.2 ⟨rfl, h⟩
  rw [handlersOf_eq_ok_iff.2 ⟨rfl, h'⟩] at heq
  exact (Except.ok.inj (Traced.mk.inj heq).2).symm

/-- What the error output of a state leads to is an error-catch node. -/
theorem IsStateOf.isCatch {c : Catalog} {s : State} (h : IsStateOf c g id s) {k : NodeId}
    (hk : IsCatchOf c g id k) : ∃ m, g.node? k = some m ∧ m.isCatch = true := by
  obtain ⟨n, t, outputs, -, -, hn, -, -, ht, ho, hfit, -⟩ := h
  obtain ⟨n', t', q, e, hn', ht', hq, he, rfl⟩ := hk
  cases hn.symm.trans hn'
  cases ht.symm.trans ht'
  obtain ⟨rest, hmem⟩ := (exists_output_iff ho).1 he
  rcases hfit _ hmem e rest rfl with ⟨-, hcatch⟩ | ⟨-, s', hs', hne⟩
  · exact hcatch
  · exact absurd (Option.some.inj (hs'.symm.trans hq)) hne

/-- Behind the error output of a state stand its error handlers; an empty list counts as none. -/
theorem IsStateOf.exists_handlerList {c : Catalog} {s : State} (h : IsStateOf c g id s) {k : NodeId}
    (hk : IsCatchOf c g id k) : ∃ hs, IsHandlerList c g k s.id hs ∧
      s.handlers = (some hs).filter fun hs => !hs.isEmpty := by
  obtain ⟨n, t, outputs, form, lists, hn, -, -, ht, ho, -, -, -, -, hlists, hhandlers⟩ := h
  have hmem := (mem_catchNodes_iff hn ht ho).2 hk
  obtain ⟨hs, hlast⟩ : ∃ hs, lists.getLast? = some hs := by
    obtain ⟨hs, hmem, -⟩ := hlists.exists_of_mem_left hmem
    exact ⟨_, List.getLast?_eq_some_getLast (List.ne_nil_of_mem hmem)⟩
  obtain ⟨k', hk', hlist⟩ := hlists.exists_of_mem_right (List.mem_of_getLast? hlast)
  obtain rfl := hk.unique ((mem_catchNodes_iff hn ht ho).1 hk')
  exact ⟨hs, hlist, by rw [hhandlers, hlast]⟩

/-- The error handlers of a compiled state are those of its error-catch node. -/
theorem IsStateOf.handlers_eq_some_iff {c : Catalog} {s : State} (h : IsStateOf c g id s)
    {hs : List CatchEntry} :
    s.handlers = some hs ↔ ∃ k, IsCatchOf c g id k ∧ IsHandlerList c g k s.id hs ∧ hs ≠ [] := by
  constructor
  · intro hhs
    have hstate := h
    obtain ⟨n, t, outputs, form, lists, hn, -, -, ht, ho, -, -, -, -, hlists, hhandlers⟩ := hstate
    obtain ⟨hlast, hne⟩ := Option.filter_eq_some_iff.1 (hhandlers.symm.trans hhs)
    obtain ⟨k, hk, hlist⟩ := hlists.exists_of_mem_right (List.mem_of_getLast? hlast)
    exact ⟨k, (mem_catchNodes_iff hn ht ho).1 hk, hlist, by simpa using hne⟩
  · rintro ⟨k, hk, hlist, hne⟩
    obtain ⟨hs', hlist', hhandlers⟩ := h.exists_handlerList hk
    obtain rfl := hlist.unique hlist'
    rw [hhandlers]
    exact Option.filter_eq_some_iff.2 ⟨rfl, by simpa using hne⟩

/-- The error handlers of a compiled state have different keys. -/
theorem IsStateOf.handlers_wellFormed {c : Catalog} {s : State} (h : IsStateOf c g id s)
    {hs : List CatchEntry} (hhs : s.handlers = some hs) : ∀ h ∈ hs, h.WellFormed := by
  obtain ⟨k, -, ⟨n, t, outputs, form, fields, -, -, -, -, -, -, hread⟩, -⟩ :=
    h.handlers_eq_some_iff.1 hhs
  exact (Import.readHandlers_eq_ok hread).1

end Workflow.Compile
