import Workflow.Proofs.Edit.Basic
import Workflow.Proofs.Graph.Stored

/-!
# The representation of graphs

The graph of a snapshot is sound (`Snapshot.toGraph_sound`), and every call keeps a graph sound, so
every graph that a session can reach is (`Edit.Session.sound`). `Edit.session_represents` says what
this means for the tables, cells and links of the graph.
-/

namespace Workflow

/-! ### Snapshots -/

theorem Graph.contains_insert (g : Graph) (id other : NodeId) (n : Node) :
    (g.insert id n).contains other = (decide (id = other) || g.contains other) := by
  rw [contains, contains, cell?_insert]
  by_cases h : id = other <;> simp [h]

/-- The nodes of a snapshot have different identifiers, so each of them is new when it is put in. -/
theorem Graph.Sound.insertAll {g : Graph} {edges : List Edge} (h : g.Sound edges)
    {entries : List (NodeId × Node)} (hnd : (entries.map Prod.fst).Nodup)
    (hnew : ∀ id ∈ entries.map Prod.fst, g.contains id = false) :
    (entries.foldl (fun g e => g.insert e.1 e.2) g).Sound edges := by
  induction entries generalizing g with
  | nil => exact h
  | cons e entries ih =>
    obtain ⟨hnot, hnd⟩ := List.nodup_cons.1 hnd
    refine ih (h.insert (hnew _ List.mem_cons_self) e.2) hnd fun id hid => ?_
    have hne : e.1 ≠ id := fun heq => hnot (heq ▸ hid)
    rw [contains_insert, hnew id (List.mem_cons_of_mem _ hid)]
    simpa using hne

/-- The graph of a snapshot is sound. -/
theorem Snapshot.toGraph_sound {s : Snapshot} {g : Graph} (h : s.toGraph = .ok g) :
    ∃ edges, g.Sound edges := by
  have hnodes := (Graph.sound_empty s.metadata).insertAll s.nodes.nodup_ids fun _ _ => rfl
  refine Except.foldlM_induction (P := fun g => ∃ edges, Graph.Sound g edges) ?_ ⟨_, hnodes⟩ h
  rintro g e - g' ⟨edges, hg⟩ he
  exact ⟨_, hg.addEdge he⟩

/-! ### Sessions -/

namespace Edit

variable {T : Type} [NodeSpec T] {c : Catalog T} {g g' : Graph}

/-- Every call keeps graphs sound. -/
theorem apply_sound {edges : List Edge} (h : g.Sound edges) {e : Edit} (he : e.Fresh g) :
    ∃ edges', (e.apply c g).Sound edges' := by
  have heffect := e.effect c g
  generalize e.apply c g = g' at heffect
  have hsame : ∀ id (f : Node → Node), (∀ n, (f n).inputs = n.inputs ∧ (f n).outputs = n.outputs ∧
      (f n).fanOut = n.fanOut) → ∃ edges', (g.modify id f).Sound edges' :=
    fun id f hf => ⟨_, h.modify id hf⟩
  cases heffect with
  | unchanged => exact ⟨_, h⟩
  | added ht => exact ⟨_, h.insert he _⟩
  | inserted => exact ⟨_, h.insert he _⟩
  | erased => exact ⟨_, h.erase _⟩
  | edgeAdded hadd => exact ⟨_, h.addEdge hadd⟩
  | connected hrest hadd =>
    rcases hrest with rfl | ⟨displaced, rfl⟩
    · exact ⟨_, h.addEdge hadd⟩
    · exact ⟨_, (h.eraseEdge displaced).addEdge hadd⟩
  | displaced => exact ⟨_, h.eraseEdge _⟩
  | edgeErased => exact ⟨_, h.eraseEdge _⟩
  | resized hid => exact ⟨_, h.resizeOutputs hid _⟩
  | renamed => exact hsame _ _ fun n => ⟨rfl, rfl, rfl⟩
  | formSet => exact hsame _ _ fun n => ⟨rfl, rfl, rfl⟩
  | initializedSet => exact hsame _ _ fun n => ⟨rfl, rfl, rfl⟩

/-- Sessions keep graphs sound. -/
theorem Session.sound {edges : List Edge} (h : Session c Fresh g g') (hg : g.Sound edges) :
    ∃ edges', g'.Sound edges' :=
  Session.keeps (P := fun g => ∃ edges, g.Sound edges)
    (fun _ _ ⟨_, hg⟩ he => apply_sound hg he) h ⟨edges, hg⟩

/-- A graph on which a session can start: one without nodes, or the graph of a snapshot. -/
def IsOrigin (g : Graph) : Prop :=
  (∃ metadata, g = .empty metadata) ∨ ∃ s : Snapshot, s.toGraph = .ok g

theorem IsOrigin.sound (h : IsOrigin g) : ∃ edges, g.Sound edges := by
  rcases h with ⟨metadata, rfl⟩ | ⟨s, hs⟩
  · exact ⟨[], Graph.sound_empty metadata⟩
  · exact s.toGraph_sound hs

/-- After any session the table of cells and the table of identifiers are inverse to each other and
cover the cells in use; every link stands for an edge between two nodes, from an output of the one
to an input of the other; every edge is listed; and an output that takes one edge has at most one.
-/
theorem session_represents {start : Graph} (hstart : IsOrigin start) (h : Session c Fresh start g) :
    (∀ id i, g.cell? id = some i ↔ g.owner? i = some id) ∧
      (∀ i, (∃ id, g.owner? i = some id) ↔ ∃ n, g.nodeArena.get? i = some n) ∧
      (∀ i l, g.links.get? i = some l →
        ∃ e ∈ g.edges, g.cell? e.source = some l.source ∧ g.cell? e.target = some l.target ∧
          l.output = e.output ∧ l.input = e.input ∧ ∃ source target,
            g.nodeArena.get? l.source = some source ∧ g.nodeArena.get? l.target = some target ∧
            1 ≤ l.output.toNat ∧ l.output.toNat ≤ source.outputs.toNat ∧
            1 ≤ l.input.toNat ∧ l.input.toNat ≤ target.inputs.toNat) ∧
      g.edges.length = g.edgeCount ∧
      ∀ id n p, g.node? id = some n → p ∉ n.fanOut →
        (g.edges.filter fun e => e.source = id && e.output = p).length ≤ 1 := by
  obtain ⟨edges, hedges⟩ := hstart.sound
  obtain ⟨edges, hg⟩ := Session.sound h hedges
  refine ⟨hg.consistent.cell_iff, fun i => ?_, fun i l hl => ?_, ?_, fun id n p hn hp => ?_⟩
  · rw [← Option.isSome_iff_exists, ← Option.isSome_iff_exists, hg.consistent.owned]
  · obtain ⟨e, he, hle⟩ := hg.exists_edge (hg.tidy.mem_entries_iff.2 hl)
    obtain ⟨hs, ht, ho, hi⟩ := Graph.edgeOf?_eq_some_iff.1 hle
    rw [← hg.consistent.cell_iff] at hs ht
    obtain ⟨source, target, hsource, htarget, hout, hin⟩ := hg.inRange e he
    obtain ⟨j, hj, hsource⟩ := Graph.node?_eq_some_iff.1 hsource
    obtain ⟨k, hk, htarget⟩ := Graph.node?_eq_some_iff.1 htarget
    cases hs.symm.trans hj
    cases ht.symm.trans hk
    rw [← ho, Port.isWithin_iff] at hout
    rw [← hi, Port.isWithin_iff] at hin
    exact ⟨e, hg.edges_perm.mem_iff.2 he, hs, ht, ho, hi, source, target, hsource, htarget,
      hout.1, hout.2, hin.1, hin.2⟩
  · rw [hg.edges_perm.length_eq, hg.edgeCount_eq]
  · rw [(hg.edges_perm.filter _).length_eq]
    exact hg.single id n p hn (by simpa [Node.allowsFanOut] using hp)

/-- Calls after which a cell is used again; one of them asks for a second edge on an output that
takes one, one for another name for a node that is gone, and one makes an output go away. -/
def recycling : List Edit :=
  [.add (.ofNat 0) "start" [], .add (.ofNat 1) "switch" [], .add (.ofNat 2) "noop" [],
    .connect ⟨.ofNat 0, 1, .ofNat 1, 1⟩, .addEdge ⟨.ofNat 1, 1, .ofNat 2, 1⟩,
    .addEdge ⟨.ofNat 1, 1, .ofNat 1, 1⟩, .erase (.ofNat 2), .rename (.ofNat 2) "gone",
    .add (.ofNat 3) "noop" [], .connect ⟨.ofNat 1, 1, .ofNat 3, 1⟩, .resizeOutputs (.ofNat 1) 3,
    .addEdge ⟨.ofNat 1, 3, .ofNat 3, 1⟩, .resizeOutputs (.ofNat 1) 2]

/-- The graph after `recycling`. -/
def recycled : Graph := run .standard (.empty .empty) recycling

theorem session_represents_recycled :
    recycled.edges = [⟨.ofNat 0, 1, .ofNat 1, 1⟩, ⟨.ofNat 1, 1, .ofNat 3, 1⟩] ∧
      recycled.cell? (.ofNat 3) = some 2 ∧ recycled.owner? 2 = some (.ofNat 3) ∧
      recycled.edges.length = recycled.edgeCount := by
  have hsession : Session .standard Fresh (.empty .empty) recycled :=
    Session.run (by decide +kernel)
  have h := session_represents (.inl ⟨.empty, rfl⟩) hsession
  exact ⟨by decide +kernel, by decide +kernel, (h.1 _ _).1 (by decide +kernel), h.2.2.2.1⟩

end Edit

end Workflow
