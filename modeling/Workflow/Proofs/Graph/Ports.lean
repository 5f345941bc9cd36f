import Workflow.Graph.Basic

/-!
# Looking up nodes, types and outputs

When the partial look-ups of a graph and a catalog succeed, and which edges `outputsOf` puts under a
port: those that leave it, oldest first. Every port is listed once, in order.
-/

namespace Workflow

theorem Catalog.lookup_eq_ok_iff {T : Type} {c : Catalog T} {name : String} {t : T} :
    c.lookup name = .ok t ↔ c.get? name = some t := by
  unfold Catalog.lookup
  cases c.get? name <;> simp

theorem Port.pairwise_all (count : PortCount) : (Port.all count).Pairwise (· < ·) := by
  have hc := count.toNat_lt
  refine List.pairwise_map.2 (List.Pairwise.imp_of_mem ?_ List.pairwise_lt_range)
  intro i j hi hj hij
  rw [List.mem_range] at hi hj
  rw [UInt16.lt_iff_toNat_lt, UInt16.toNat_ofNat', UInt16.toNat_ofNat',
    Nat.mod_eq_of_lt (by omega), Nat.mod_eq_of_lt (by omega)]
  omega

namespace Graph

theorem node_eq_ok_iff {g : Graph} {id : NodeId} {n : Node} :
    g.node id = .ok n ↔ g.node? id = some n := by
  unfold node
  cases g.node? id <;> simp

theorem mem_insertPort {p q : Port} {ports : List Port} :
    q ∈ insertPort p ports ↔ q = p ∨ q ∈ ports := by
  induction ports with
  | nil => simp [insertPort]
  | cons r rest ih =>
    rw [insertPort]
    split
    · simp
    · split
      next h => simp [h]
      next => rw [List.mem_cons, ih, List.mem_cons, or_left_comm]

theorem pairwise_insertPort {p : Port} {ports : List Port} (h : ports.Pairwise (· < ·)) :
    (insertPort p ports).Pairwise (· < ·) := by
  induction ports with
  | nil => simp [insertPort]
  | cons r rest ih =>
    obtain ⟨hr, hrest⟩ := List.pairwise_cons.1 h
    rw [insertPort]
    split
    next hp =>
      refine List.pairwise_cons.2 ⟨?_, h⟩
      intro q hq
      rcases List.mem_cons.1 hq with rfl | hq
      · exact hp
      · exact UInt16.lt_trans hp (hr q hq)
    next hp =>
      split
      next => exact h
      next hne =>
        refine List.pairwise_cons.2 ⟨?_, ih hrest⟩
        intro q hq
        rcases mem_insertPort.1 hq with rfl | hq
        · exact UInt16.lt_of_le_of_ne (UInt16.not_lt.1 hp) (Ne.symm hne)
        · exact hr q hq

/-- The ports that edges are listed by. -/
def listedPorts (count : PortCount) (portOf : Edge → Port) (es : List Edge) : List Port :=
  es.foldl (fun ps e => insertPort (portOf e) ps) (Port.all count)

theorem byPort_eq_map (count : PortCount) (portOf : Edge → Port) (es : List Edge) :
    byPort count portOf es =
      (listedPorts count portOf es).map fun p => (p, es.filter (portOf · = p)) := rfl

theorem mem_foldl_insertPort {portOf : Edge → Port} {es : List Edge} {ports : List Port} {p : Port} :
    p ∈ es.foldl (fun ps e => insertPort (portOf e) ps) ports ↔
      p ∈ ports ∨ ∃ e ∈ es, portOf e = p := by
  induction es generalizing ports with
  | nil => simp
  | cons e es ih =>
    rw [List.foldl_cons, ih, mem_insertPort]
    simp only [List.mem_cons, exists_eq_or_imp, eq_comm (a := portOf e), or_assoc, or_left_comm]

theorem mem_listedPorts {count : PortCount} {portOf : Edge → Port} {es : List Edge} {p : Port} :
    p ∈ listedPorts count portOf es ↔ p.isWithin count = true ∨ ∃ e ∈ es, portOf e = p := by
  rw [listedPorts, mem_foldl_insertPort, Port.mem_all_iff]

theorem pairwise_listedPorts (count : PortCount) (portOf : Edge → Port) (es : List Edge) :
    (listedPorts count portOf es).Pairwise (· < ·) := by
  unfold listedPorts
  generalize hp : Port.all count = ports
  have h : ports.Pairwise (· < ·) := hp ▸ Port.pairwise_all count
  clear hp
  induction es generalizing ports with
  | nil => exact h
  | cons e es ih => exact ih _ (pairwise_insertPort h)

/-- Edges in the ports of a node are listed by these ports. -/
theorem listedPorts_eq {count : PortCount} {portOf : Edge → Port} {es : List Edge}
    (h : ∀ e ∈ es, (portOf e).isWithin count = true) :
    listedPorts count portOf es = Port.all count := by
  have hinsert : ∀ (ports : List Port) (p : Port), ports.Pairwise (· < ·) → p ∈ ports →
      insertPort p ports = ports := by
    intro ports p hsorted hp
    induction ports with
    | nil => cases hp
    | cons q rest ih =>
      obtain ⟨hq, hrest⟩ := List.pairwise_cons.1 hsorted
      rw [insertPort]
      rcases List.mem_cons.1 hp with rfl | hp
      · rw [if_neg (UInt16.lt_irrefl p), if_pos rfl]
      · have hlt := hq p hp
        rw [if_neg fun h => UInt16.lt_irrefl p (UInt16.lt_trans h hlt),
          if_neg fun h => UInt16.lt_irrefl p (by rwa [← h] at hlt), ih hrest hp]
  unfold listedPorts
  induction es with
  | nil => rfl
  | cons e rest ih =>
    have hmem : portOf e ∈ Port.all count := (Port.mem_all_iff _ _).2 (h e List.mem_cons_self)
    rw [List.foldl_cons, hinsert _ _ (Port.pairwise_all count) hmem]
    exact ih fun e he => h e (List.mem_cons_of_mem _ he)

/-- The outputs of a node: each listed port with the edges that leave it. -/
theorem outputsOf_eq {g : Graph} {id : NodeId} {n : Node} (h : g.node? id = some n) :
    g.outputsOf id = .ok (byPort n.outputs Edge.output (g.outgoing id)) := by
  rw [outputsOf, node_eq_ok_iff.2 h]
  rfl

theorem node?_of_outputsOf {g : Graph} {id : NodeId} {outputs : List (Port × List Edge)}
    (h : g.outputsOf id = .ok outputs) :
    ∃ n, g.node? id = some n ∧ outputs = byPort n.outputs Edge.output (g.outgoing id) := by
  cases hn : g.node? id with
  | none =>
    have : g.node id = .error (.nodeNotFound id) := by rw [node, hn]
    simp [outputsOf, this, bind, Except.bind] at h
  | some n =>
    rw [outputsOf_eq hn] at h
    exact ⟨n, rfl, (Except.ok.inj h).symm⟩

theorem mem_outputsOf {g : Graph} {id : NodeId} {outputs : List (Port × List Edge)}
    (h : g.outputsOf id = .ok outputs) {p : Port} {es : List Edge} (hmem : (p, es) ∈ outputs) :
    es = (g.outgoing id).filter (·.output = p) := by
  obtain ⟨n, -, rfl⟩ := node?_of_outputsOf h
  rw [byPort_eq_map, List.mem_map] at hmem
  obtain ⟨q, -, hq⟩ := hmem
  cases hq
  rfl

theorem exists_mem_outputsOf {g : Graph} {id : NodeId} {outputs : List (Port × List Edge)}
    (h : g.outputsOf id = .ok outputs) {e : Edge} (he : e ∈ g.outgoing id) :
    (e.output, (g.outgoing id).filter (·.output = e.output)) ∈ outputs := by
  obtain ⟨n, -, rfl⟩ := node?_of_outputsOf h
  rw [byPort_eq_map]
  exact List.mem_map_of_mem (mem_listedPorts.2 (.inr ⟨e, he, rfl⟩))

end Graph

end Workflow
