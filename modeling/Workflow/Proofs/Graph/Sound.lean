import Workflow.Proofs.Graph.Holds

/-!
# Edges in their ports

`Graph.Sound` says that every edge joins an output and an input of two nodes, and that an output
which takes one edge has at most one. Every change keeps it: `Sound.insert`, `Sound.modify`,
`Sound.addEdge`, `Sound.eraseEdge`, `Sound.erase`, `Sound.resizeOutputs`. So the edges of a node are
all behind its ports (`Sound.outputsOf_eq`, `Sound.inputsOf_eq`).
-/

namespace Workflow.Graph

/-- The edges join outputs and inputs, and an output that takes one edge has at most one. -/
structure Sound (g : Graph) (edges : List Edge) : Prop extends g.Holds edges where
  inRange : ∀ e ∈ edges, ∃ source target,
    g.node? e.source = some source ∧ g.node? e.target = some target ∧
      e.output.isWithin source.outputs = true ∧ e.input.isWithin target.inputs = true
  single : ∀ id n p, g.node? id = some n → n.allowsFanOut p = false →
    (edges.filter fun e => e.source = id && e.output = p).length ≤ 1

theorem sound_empty (metadata : Metadata) : (empty metadata).Sound [] where
  toHolds := holds_empty metadata
  inRange := nofun
  single _ _ _ _ _ := Nat.zero_le 1

namespace Sound

variable {g g' : Graph} {edges edges' : List Edge}

/-- A graph with fewer edges is sound when each of its nodes is one that no edge touches, or has the
ports that its edges need. -/
theorem of_nodes (h : g.Sound edges) (hg' : g'.Holds edges') (hsub : edges'.Sublist edges)
    (hnodes : ∀ id m, g'.node? id = some m →
      (∀ e ∈ edges', e.source ≠ id ∧ e.target ≠ id) ∨
      ∃ n, g.node? id = some n ∧ m.inputs = n.inputs ∧ m.fanOut = n.fanOut ∧
        ∀ e ∈ edges', e.source = id → e.output.isWithin n.outputs = true →
          e.output.isWithin m.outputs = true) : g'.Sound edges' where
  toHolds := hg'
  inRange e he := by
    obtain ⟨source, target, hs, ht, ho, hi⟩ := h.inRange e (hsub.subset he)
    obtain ⟨source', target', hs', ht'⟩ := hg'.exists_ends he
    refine ⟨source', target', hs', ht', ?_, ?_⟩
    · rcases hnodes _ _ hs' with hfree | ⟨n, hn, -, -, hout⟩
      · exact absurd rfl (hfree e he).1
      · cases hs.symm.trans hn
        exact hout e he rfl ho
    · rcases hnodes _ _ ht' with hfree | ⟨n, hn, hin, -, -⟩
      · exact absurd rfl (hfree e he).2
      · cases ht.symm.trans hn
        rwa [hin]
  single id m p hm hp := by
    rcases hnodes _ _ hm with hfree | ⟨n, hn, -, hfan, -⟩
    · have hnone : (edges'.filter fun e => e.source = id && e.output = p) = [] := by
        rw [List.filter_eq_nil_iff]
        intro e he
        simp [(hfree e he).1]
      rw [hnone]
      exact Nat.zero_le 1
    · have hsingle := h.single id n p hn (by rwa [Node.allowsFanOut, ← hfan])
      exact Nat.le_trans (hsub.filter _).length_le hsingle

theorem insert (h : g.Sound edges) {id : NodeId} (hid : g.contains id = false) (n : Node) :
    (g.insert id n).Sound edges := by
  refine h.of_nodes (h.toHolds.insert hid n) (.refl _) fun other m hm => ?_
  rw [h.consistent.node?_insert] at hm
  split at hm
  next heq => exact .inl fun e he => heq ▸ h.toHolds.ne_of_not_contains hid he
  next => exact .inr ⟨m, hm, rfl, rfl, fun _ _ _ ho => ho⟩

theorem modify (h : g.Sound edges) (id : NodeId) {f : Node → Node}
    (hf : ∀ n, (f n).inputs = n.inputs ∧ (f n).outputs = n.outputs ∧ (f n).fanOut = n.fanOut) :
    (g.modify id f).Sound edges := by
  refine h.of_nodes (h.toHolds.modify id f) (.refl _) fun other m hm => .inr ?_
  rw [h.consistent.node?_modify] at hm
  split at hm
  next =>
    obtain ⟨n, hn, rfl⟩ := Option.map_eq_some_iff.1 hm
    obtain ⟨hin, hout, hfan⟩ := hf n
    exact ⟨n, hn, hin, hfan, fun _ _ _ ho => by rwa [hout]⟩
  next => exact ⟨m, hm, rfl, rfl, fun _ _ _ ho => ho⟩

theorem addEdge (h : g.Sound edges) {e : Edge} (he : g.addEdge e = .ok g') :
    g'.Sound (edges ++ [e]) := by
  obtain ⟨i, j, source, target, -, -, hs, ht, ho, hi, hfree, -⟩ := addEdge_eq_ok_iff.1 he
  have hnode := node?_addEdge he
  refine ⟨h.toHolds.addEdge he, fun f hf => ?_, fun id n p hn hp => ?_⟩
  · rw [hnode, hnode]
    rcases List.mem_append.1 hf with hf | hf
    · exact h.inRange f hf
    · rw [List.mem_singleton.1 hf]
      exact ⟨source, target, hs, ht, ho, hi⟩
  · rw [hnode] at hn
    have hsingle := h.single id n p hn hp
    by_cases hon : e.source = id ∧ e.output = p
    · -- The output of the new edge takes one edge, so it had none.
      obtain ⟨rfl, rfl⟩ := hon
      cases hs.symm.trans hn
      rw [hp, h.edgeOn?_eq] at hfree
      have hnone := List.find?_eq_none.1 (hfree.resolve_left nofun)
      rw [List.filter_append, List.filter_eq_nil_iff.2 hnone, List.nil_append]
      exact List.length_filter_le _ [e]
    · rw [List.filter_append, List.filter_cons_of_neg (by simpa using hon), List.filter_nil,
        List.append_nil]
      exact hsingle

theorem eraseEdge (h : g.Sound edges) (e : Edge) :
    ((g.eraseEdge? e).getD g).Sound (withoutNewest e edges) := by
  refine h.of_nodes (h.toHolds.eraseEdge e) (withoutNewest_sublist e edges) fun id m hm => .inr ?_
  rw [node?_eraseEdge] at hm
  exact ⟨m, hm, rfl, rfl, fun _ _ _ ho => ho⟩

theorem erase (h : g.Sound edges) (id : NodeId) :
    (g.erase id).Sound (edges.filter fun e => e.source ≠ id && e.target ≠ id) := by
  refine h.of_nodes (h.toHolds.erase id) List.filter_sublist fun other m hm => .inr ?_
  rw [h.consistent.node?_erase] at hm
  split at hm
  next => cases hm
  next => exact ⟨m, hm, rfl, rfl, fun _ _ _ ho => ho⟩

theorem resizeOutputs (h : g.Sound edges) {id : NodeId} (hid : g.contains id = true)
    (count : PortCount) :
    (g.resizeOutputs id count).1.Sound
      (edges.filter fun e => !(decide (e.source = id) && !e.output.isWithin count)) := by
  refine h.of_nodes (h.toHolds.resizeOutputs hid count) List.filter_sublist
    fun other m hm => .inr ?_
  rw [h.node?_resizeOutputs hid] at hm
  split at hm
  next hother =>
    obtain ⟨n, hn, rfl⟩ := Option.map_eq_some_iff.1 hm
    -- What is left on the node leaves an output that the node keeps.
    refine ⟨n, hn, rfl, rfl, fun e he hsource _ => ?_⟩
    have hkept := (List.mem_filter.1 he).2
    simpa [hsource, hother] using hkept
  next => exact ⟨m, hm, rfl, rfl, fun _ _ _ ho => ho⟩

/-- The outputs of a node in a sound graph are its ports, each with its edges by age. -/
theorem outputsOf_eq (h : g.Sound edges) {id : NodeId} {n : Node} (hn : g.node? id = some n) :
    g.outputsOf id =
      .ok ((Port.all n.outputs).map fun p => (p, (g.outgoing id).filter (·.output = p))) := by
  have hwithin : ∀ e ∈ g.outgoing id, e.output.isWithin n.outputs = true := by
    intro e he
    rw [h.outgoing_eq] at he
    obtain ⟨hmem, hid⟩ := List.mem_filter.1 he
    obtain ⟨source, -, hs, -, ho, -⟩ := h.inRange e hmem
    rw [of_decide_eq_true hid, hn] at hs
    rwa [Option.some.inj hs]
  rw [Graph.outputsOf_eq hn, byPort_eq_map]
  exact congrArg _ (congrArg _ (listedPorts_eq hwithin))

/-- The inputs of a node in a sound graph are its ports, each with its edges by age. -/
theorem inputsOf_eq (h : g.Sound edges) {id : NodeId} {n : Node} (hn : g.node? id = some n) :
    g.inputsOf id =
      .ok ((Port.all n.inputs).map fun p => (p, (g.incoming id).filter (·.input = p))) := by
  have hwithin : ∀ e ∈ g.incoming id, e.input.isWithin n.inputs = true := by
    intro e he
    rw [h.incoming_eq] at he
    obtain ⟨hmem, hid⟩ := List.mem_filter.1 he
    obtain ⟨-, target, -, ht, -, hi⟩ := h.inRange e hmem
    rw [of_decide_eq_true hid, hn] at ht
    rwa [Option.some.inj ht]
  rw [Graph.inputsOf, node_eq_ok_iff.2 hn]
  exact congrArg _ (congrArg _ (listedPorts_eq hwithin))

end Sound

end Workflow.Graph
