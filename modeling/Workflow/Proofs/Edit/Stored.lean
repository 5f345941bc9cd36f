import Workflow.Proofs.Edit.Represents

/-!
# Snapshots that are loaded

Loading a snapshot adds its edges one by one, and each of them may be refused because of those that
were added before. What is accepted in the end does not depend on their order: it is what a graph can
have (`Snapshot.Valid`). `Edit.snapshot_loads_iff` says so, and that nothing is lost when a snapshot
was loaded, nor when a graph that was edited is stored.
-/

namespace Workflow

namespace Snapshot

variable {s s' : Snapshot}

/-- Whether a snapshot is valid does not depend on the order of its edges. -/
theorem Valid.perm (h : s.Valid) (hnodes : s'.nodes = s.nodes) (hedges : s'.edges.Perm s.edges) :
    s'.Valid where
  joins e he := by
    rw [hnodes]
    exact h.joins e (hedges.mem_iff.1 he)
  single id n p hn hp := by
    rw [hnodes] at hn
    rw [(hedges.filter _).length_eq]
    exact h.single id n p hn hp

/-- A snapshot that can be loaded is valid, since it is the snapshot of a sound graph. -/
theorem valid_of_toGraph {g : Graph} (h : s.toGraph = .ok g) : s.Valid := by
  obtain ⟨edges, hg⟩ := toGraph_sound h
  rw [← snapshot_of_toGraph h]
  exact hg.snapshot_valid

theorem loads_iff : (∃ g, s.toGraph = .ok g) ↔ s.Valid :=
  ⟨fun ⟨_, h⟩ => valid_of_toGraph h, Valid.loads⟩

end Snapshot

namespace Edit

/-- A snapshot can be loaded exactly when every edge joins an output and an input of two of its nodes
and no output that takes one edge has two, in whatever order the edges are; then the graph has the
same snapshot, with the nodes, the edges in their order, and the metadata. The snapshot of a graph
after any session can be loaded. -/
theorem snapshot_loads_iff (s : Snapshot) :
    ((∃ g, s.toGraph = .ok g) ↔ s.Valid) ∧
      (∀ g, s.toGraph = .ok g → g.snapshot = s) ∧
      (∀ s' : Snapshot, s'.nodes = s.nodes → s'.edges.Perm s.edges →
        ((∃ g, s'.toGraph = .ok g) ↔ ∃ g, s.toGraph = .ok g)) ∧
      ∀ {T : Type} [NodeSpec T] (c : Catalog T) (start g : Graph), IsOrigin start →
        Session c Fresh start g → ∃ g', g.snapshot.toGraph = .ok g' ∧ g'.snapshot = g.snapshot := by
  refine ⟨Snapshot.loads_iff, fun g => Snapshot.snapshot_of_toGraph,
    fun s' hnodes hedges => ?_, fun c start g hstart hsession => ?_⟩
  · rw [Snapshot.loads_iff, Snapshot.loads_iff]
    exact ⟨fun h => h.perm hnodes.symm hedges.symm, fun h => h.perm hnodes hedges⟩
  · obtain ⟨edges, hedges⟩ := hstart.sound
    obtain ⟨edges, hg⟩ := Session.sound hsession hedges
    obtain ⟨g', hload⟩ := hg.snapshot_valid.loads
    exact ⟨g', hload, Snapshot.snapshot_of_toGraph hload⟩

/-- The snapshot of `recycled` with other edges. -/
def recycledWith (edges : List Edge) : Snapshot := { recycled.snapshot with edges }

theorem recycled_loads :
    (∃ g, recycled.snapshot.toGraph = .ok g ∧ g.snapshot = recycled.snapshot) ∧
      (∃ g, (recycledWith recycled.edges.reverse).toGraph = .ok g) ∧
      ¬∃ g, (recycledWith (⟨.ofNat 1, 1, .ofNat 1, 1⟩ :: recycled.edges)).toGraph = .ok g := by
  have hsession : Session .standard Fresh (.empty .empty) recycled :=
    Session.run (by decide +kernel)
  obtain ⟨-, -, hperm, hreached⟩ := snapshot_loads_iff recycled.snapshot
  obtain ⟨g, hload, hsnapshot⟩ := hreached _ _ _ (.inl ⟨.empty, rfl⟩) hsession
  refine ⟨⟨g, hload, hsnapshot⟩,
    (hperm (recycledWith recycled.edges.reverse) rfl (List.reverse_perm _)).2 ⟨g, hload⟩,
    fun hloads => ?_⟩
  -- Two edges would leave the first output of the node with the number 1.
  have hvalid := (snapshot_loads_iff _).1.1 hloads
  have hnode : ∃ n, (.ofNat 1, n) ∈ recycled.snapshot.nodes.entries ∧ 1 ∉ n.fanOut :=
    ⟨recycled.snapshot.nodes.entries[1].2, by decide +kernel, by decide +kernel⟩
  obtain ⟨n, hn, hfan⟩ := hnode
  exact absurd (hvalid.single _ n 1 hn hfan) (by decide +kernel)

end Edit

end Workflow
