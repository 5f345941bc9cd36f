import Workflow.Proofs.Compile.Expansion
import Workflow.Proofs.Graph.Holds
import Workflow.Proofs.Walk

/-!
# How a compilation may fail

A compilation checks the nodes and then asks in three places where an edge leads: the entry edge has
to lead to a state, the error output of a state to an error-catch node, and every other output of a
state and every output of an error-catch node to a state. In a `Guided` graph every edge does. What
comes up behind the checks blames an edge only if the graph is not guided, because every node that is
asked for a name is a state then, and it is never about two states of one id, which only the checks
look for (`MayArise`). The bound holds for each part of the compilation, also for what follows when
one of the states cannot be expanded (`Walk.visit_fails`). So a compilation fails with an error of
the checks or with one that may arise (`compile_mayArise`), and never blames an edge of a guided
graph (`compile_fails`).
-/

namespace Workflow

/-- The error finds fault with the edges: every fault of a definition does, but for a fault of the
form of the start node. -/
def Error.BlamesEdge : Error → Prop
  | .invalidDefinition (.start _) => False
  | .invalidDefinition _ => True
  | _ => False

/-- The error is not that two states have the same id. -/
def Error.NoClash (e : Error) : Prop := ∀ name, e ≠ .duplicateStateId name

/-- A node of the graph stands for a state. -/
def Graph.IsState (g : Graph) (id : NodeId) : Prop :=
  ∃ n, g.node? id = some n ∧ n.isPrimitive = true

variable {T : Type} [NodeSpec T]

/-- Every edge leads to where the compilation expects it to lead. -/
structure Graph.Guided (c : Catalog T) (g : Graph) : Prop where
  /-- The error output of a state leads to error-catch nodes, and its other outputs to states. -/
  ofState : ∀ id n t, g.node? id = some n → n.isPrimitive = true → c.get? n.kind = some t →
    ∀ e ∈ g.outgoing id,
      if NodeSpec.slot? t e.output = some .error then
        ∃ target, g.node? e.target = some target ∧ target.isCatch = true
      else g.IsState e.target
  /-- A node that is no state leads to states. -/
  ofSpecial : ∀ id n, g.node? id = some n → n.isPrimitive = false →
    ∀ e ∈ g.outgoing id, g.IsState e.target

namespace Node

variable {n : Node}

/-- An error-catch node is no state. -/
theorem isPrimitive_of_isCatch (h : n.isCatch = true) : n.isPrimitive = false := by
  simp only [isCatch, Bool.and_eq_true, decide_eq_true_eq] at h
  simp [isPrimitive, h.1]

/-- A start node is no state. -/
theorem isPrimitive_of_isStart (h : n.isStart = true) : n.isPrimitive = false := by
  simp only [isStart, Bool.and_eq_true, decide_eq_true_eq] at h
  simp [isPrimitive, h.1]

end Node

namespace Compile

open Except Traced

variable {c : Catalog T} {g : Graph}

/-- The error blames no edge. -/
abbrev Blameless (e : Error) : Prop := ¬e.BlamesEdge

/-- An error that may come up behind the checks of the nodes. -/
structure MayArise (c : Catalog T) (g : Graph) (e : Error) : Prop where
  /-- Only the checks look for states of one id. -/
  noClash : e.NoClash
  /-- An edge is to blame only if one leads where it may not. -/
  blameless : g.Guided c → Blameless e

/-- A node that may be asked for its name: in a guided graph it stands for a state. -/
def MayFollow (c : Catalog T) (g : Graph) (id : NodeId) : Prop := g.Guided c → g.IsState id

/-! ### Look-ups and forms -/

theorem node_fails (id : NodeId) : (g.node id).Fails (MayArise c g) := by
  unfold Graph.node
  cases g.node? id with
  | some n => exact fails_ok n
  | none => exact fails_error ⟨nofun, fun _ => not_false⟩

omit [NodeSpec T] in
theorem lookup_fails {P : Error → Prop} {kind : String} (h : P (.unregisteredType kind)) :
    (c.lookup kind).Fails P := by
  unfold Catalog.lookup
  cases c.get? kind with
  | some t => exact fails_ok t
  | none => exact fails_error h

theorem outputsOf_fails (id : NodeId) : (g.outputsOf id).Fails (MayArise c g) :=
  (node_fails id).bind fun _ _ => fails_pure _

theorem fieldsOfForm_fails (t : T) (id : String) (form : Fields) :
    (fieldsOfForm t id form).Fails (MayArise c g) := by
  unfold fieldsOfForm
  cases NodeSpec.ofForm t id form with
  | ok fields => exact fails_ok fields
  | error e => exact fails_error ⟨nofun, fun _ => not_false⟩

theorem readHandlers_fails (form : Fields) : (readHandlers form).Fails (MayArise c g) := by
  unfold readHandlers
  split
  · exact fails_ok []
  · exact fails_ok []
  · split
    · exact fails_ok _
    · exact fails_error ⟨nofun, fun _ => not_false⟩

/-- A state may be without an id, but it is a state. -/
theorem stateName_fails {id : NodeId} (h : MayFollow c g id) :
    (stateName g id).Fails (MayArise c g) := by
  refine (node_fails id).bind fun n hn => ?_
  rw [Graph.node_eq_ok_iff] at hn
  dsimp only
  cases hp : n.isPrimitive with
  | false =>
    refine fails_error ⟨nofun, fun hguided => ?_⟩
    obtain ⟨n', hn', hp'⟩ := h hguided
    cases hn.symm.trans hn'
    rw [hp] at hp'
    cases hp'
  | true =>
    cases n.stateId with
    | some name => exact fails_pure name
    | none => exact fails_error ⟨nofun, fun _ => not_false⟩

/-! ### Outputs -/

/-- Where the edges behind an output lead. -/
theorem forall_mem_output {id : NodeId} {outputs : List (Port × List Edge)} {P : Edge → Prop}
    (ho : g.outputsOf id = .ok outputs) (hP : ∀ e ∈ g.outgoing id, P e) {p : Port} {es : List Edge}
    (hmem : (p, es) ∈ outputs) : ∀ e ∈ es, P e ∧ e.output = p := by
  intro e he
  rw [Graph.mem_outputsOf ho hmem] at he
  obtain ⟨he, hp⟩ := List.mem_filter.1 he
  exact ⟨hP e he, of_decide_eq_true hp⟩

/-- The marks are the targets of the edges. -/
theorem note_targets_within {es : List Edge} (h : ∀ e ∈ es, MayFollow c g e.target) :
    (note (es.map Edge.target) : Traced NodeId Error Unit).Within (MayFollow c g) (MayArise c g) :=
  within_note fun id hid => by
    obtain ⟨e, he, rfl⟩ := List.mem_map.1 hid
    exact h e he

theorem connectHandler_within (t : T) (owner : String) (form : Fields) {p : Port}
    {es : List Edge} (hes : ∀ e ∈ es, MayFollow c g e.target) :
    (connectHandler g t owner form (p, es)).Within (MayFollow c g) (MayArise c g) := by
  cases es with
  | nil => exact within_pure form
  | cons e es =>
    refine within_liftM_bind (stateName_fails (hes e List.mem_cons_self)) fun name _ => ?_
    dsimp only
    split
    · exact within_fail ⟨nofun, fun _ => not_false⟩
    · exact (note_targets_within hes).bind fun _ _ => within_pure _

/-- An error-catch node amounts to error handlers or fails, and no edge of it that leads to a state is
to blame. -/
theorem handlersOf_within {id : NodeId} (owner : String)
    (hid : ∀ e ∈ g.outgoing id, MayFollow c g e.target) :
    (handlersOf c g id owner).Within (MayFollow c g) (MayArise c g) := by
  refine within_liftM_bind (node_fails id) fun n _ => ?_
  refine within_liftM_bind (lookup_fails ⟨nofun, fun _ => not_false⟩) fun t _ => ?_
  refine within_liftM_bind (outputsOf_fails id) fun outputs ho => ?_
  have hfold : ∀ form, (outputs.foldlM (connectHandler g t owner) form).Within
      (MayFollow c g) (MayArise c g) :=
    within_foldlM fun form output hmem =>
      connectHandler_within t owner form fun e he => (forall_mem_output ho hid hmem e he).1
  refine (hfold _).bind fun form _ => ?_
  refine within_liftM_bind (fieldsOfForm_fails t owner form) fun fields _ => ?_
  exact within_liftM (readHandlers_fails fields)

theorem connectOutput_within {id : NodeId} {n : Node} {t : T} (hn : g.node? id = some n)
    (hp : n.isPrimitive = true) (ht : c.get? n.kind = some t) {outputs : List (Port × List Edge)}
    (ho : g.outputsOf id = .ok outputs) (name : String) (acc : Fields × Option (List CatchEntry))
    {output : Port × List Edge} (hmem : output ∈ outputs) :
    (connectOutput c g t name acc output).Within (MayFollow c g) (MayArise c g) := by
  obtain ⟨p, es⟩ := output
  have hes := fun hguided : g.Guided c =>
    forall_mem_output ho (hguided.ofState id n t hn hp ht) hmem
  cases es with
  | nil => exact within_pure acc
  | cons e es =>
    refine within_liftM_bind (node_fails e.target) fun target htarget => ?_
    rw [Graph.node_eq_ok_iff] at htarget
    dsimp only
    split
    next => exact within_fail ⟨nofun, fun _ => not_false⟩
    next hslot =>
      split
      next hcatch =>
        have hspecial := Node.isPrimitive_of_isCatch hcatch
        exact (handlersOf_within name fun f hf hguided =>
          hguided.ofSpecial _ _ htarget hspecial f hf).bind fun hs _ => within_pure (acc.1, some hs)
      next hcatch =>
        -- In a guided graph the error output leads to an error-catch node.
        refine within_fail ⟨nofun, fun hguided => ?_⟩
        obtain ⟨hlead, rfl⟩ := hes hguided e List.mem_cons_self
        rw [if_pos hslot] at hlead
        obtain ⟨target', htarget', hcatch'⟩ := hlead
        cases htarget.symm.trans htarget'
        exact absurd hcatch' hcatch
    next slot hne hslot =>
      have hstates : ∀ f ∈ e :: es, MayFollow c g f.target := by
        intro f hf hguided
        obtain ⟨hlead, hport⟩ := hes hguided f hf
        rwa [hport, if_neg fun herror => hne (Option.some.inj (hslot.symm.trans herror))] at hlead
      split
      next =>
        refine within_liftM_bind (stateName_fails (hstates e List.mem_cons_self)) fun next _ => ?_
        split
        · exact within_fail ⟨nofun, fun _ => not_false⟩
        · exact (note_targets_within hstates).bind fun _ _ => within_pure _
      next hnot =>
        refine within_fail ⟨nofun, fun hguided => ?_⟩
        obtain ⟨target', htarget', hp'⟩ := hstates e List.mem_cons_self hguided
        cases htarget.symm.trans htarget'
        exact absurd hp' hnot

/-! ### States -/

/-- In a guided graph a state leads to states, and what it amounts to fails for no edge. -/
theorem expand_within {id : NodeId} (hid : MayFollow c g id) :
    (expand c g id).Within (MayFollow c g) (MayArise c g) := by
  refine within_liftM_bind (node_fails id) fun n hn => ?_
  refine within_liftM_bind (stateName_fails hid) fun name hname => ?_
  refine within_liftM_bind (lookup_fails ⟨nofun, fun _ => not_false⟩) fun t ht => ?_
  refine within_liftM_bind (outputsOf_fails id) fun outputs ho => ?_
  rw [Graph.node_eq_ok_iff] at hn
  rw [Catalog.lookup_eq_ok_iff] at ht
  obtain ⟨n', hn', hp, -⟩ := stateName_eq_ok_iff.1 hname
  cases hn.symm.trans hn'
  refine (within_foldlM (fun acc output hmem =>
    connectOutput_within hn hp ht ho name acc hmem) _).bind fun _ _ => ?_
  exact within_liftM_bind (fieldsOfForm_fails t name _) fun _ _ => within_pure _

theorem statesOf_fails (hg : g.Consistent) {entry : NodeId} (hentry : MayFollow c g entry) :
    (statesOf c g entry).Fails (MayArise c g) := by
  have hexhausted : MayArise c g .unfinished := ⟨nofun, fun _ => not_false⟩
  have hvisit : ∀ w id, MayFollow c g id → (visit c g w id).Fails (MayArise c g) := fun w _ hid =>
    Walk.visit_fails (fun _ => expand_within) hexhausted _ w hid
  refine (hvisit .start entry hentry).bind fun w _ => fails_foldlM (fun w e he => ?_) _
  unfold visitRoot
  split
  next hroot =>
    simp only [Bool.and_eq_true] at hroot
    exact hvisit w e.1 fun _ => ⟨e.2, hg.mem_nodes_iff.1 he, hroot.1.1⟩
  next => exact fails_ok w

/-! ### Documents -/

theorem startOf_fails {start entry : NodeId} (hentry : MayFollow c g entry) :
    (startOf c g start entry).Fails (MayArise c g) := by
  refine (node_fails start).bind fun n _ => ?_
  refine (stateName_fails hentry).bind fun name _ => ?_
  refine (lookup_fails ⟨nofun, fun _ => not_false⟩).bind fun t _ => ?_
  refine (fieldsOfForm_fails t NodeType.startName _).bind fun form _ => ?_
  split
  · exact fails_pure _
  · exact fails_error ⟨nofun, fun _ => not_false⟩

/-- The entry edge leaves a start node, which is no state. -/
theorem mayFollow_entry {edges : List Edge} (hg : g.Holds edges) {start : NodeId} {edge : Edge}
    (hstart : g.startNode? = some start) (hedge : g.edgeOn? start 1 = some edge) :
    MayFollow c g edge.target := by
  intro hguided
  obtain ⟨⟨id, n⟩, hfind, rfl⟩ := Option.map_eq_some_iff.1 hstart
  have hn := hg.consistent.mem_nodes_iff.1 (List.mem_of_find?_eq_some hfind)
  have hspecial : n.isPrimitive = false :=
    Node.isPrimitive_of_isStart (by simpa using List.find?_some hfind)
  rw [hg.edgeOn?_eq_head?] at hedge
  exact hguided.ofSpecial id n hn hspecial edge (List.mem_of_mem_filter (List.mem_of_head? hedge))

/-- A compilation fails as its checks do, or with an error that may come up behind them. -/
theorem compile_mayArise {edges : List Edge} (hg : g.Holds edges) :
    (g.compile c).outcome.Fails fun e => validate c g = .error e ∨ MayArise c g e := by
  refine Within.fails (M := fun _ => True) (within_liftM_bind (fun _ => .inl) fun _ _ => ?_)
  split
  next start hstart =>
    split
    next edge hedge =>
      have hentry := mayFollow_entry (c := c) hg hstart hedge
      refine within_liftM_bind ((startOf_fails hentry).mono fun _ => .inr) fun block _ => ?_
      refine within_liftM_bind ((statesOf_fails hg.consistent hentry).mono fun _ => .inr) fun w _ => ?_
      exact (within_note fun _ _ => trivial).bind fun _ _ => within_pure _
    next => exact within_fail (.inr ⟨nofun, fun _ => not_false⟩)
  next => exact within_fail (.inr ⟨nofun, fun _ => not_false⟩)

/-! ### The checks -/

omit [NodeSpec T] in
theorem checkNames_fails (seen : List String) (nodes : List (NodeId × Node)) :
    (checkNames c seen nodes).Fails Blameless := by
  induction nodes generalizing seen with
  | nil => exact fails_ok ()
  | cons e rest ih =>
    refine (lookup_fails not_false).bind fun _ _ => ?_
    split
    · exact ih seen
    · split
      · exact fails_error not_false
      · split
        · exact fails_error not_false
        · exact ih _

omit [NodeSpec T] in
theorem validate_fails : (validate c g).Fails Blameless := by
  unfold validate
  split
  · exact checkNames_fails [] g.nodes
  · exact fails_error not_false

/-- A compilation never blames an edge of a graph whose edges all lead where they may. -/
theorem compile_fails {edges : List Edge} (h : g.Guided c) (hg : g.Holds edges) :
    (g.compile c).outcome.Fails Blameless :=
  (compile_mayArise hg).mono fun e he => he.elim (validate_fails e) fun harise => harise.blameless h

end Compile

end Workflow
