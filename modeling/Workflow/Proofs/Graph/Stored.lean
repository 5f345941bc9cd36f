import Workflow.Proofs.Graph.Sound
import Workflow.Proofs.Graph.View
import Workflow.Snapshot.Basic

/-!
# Graphs that were stored and loaded

A snapshot is `Valid` when each of its edges joins an output and an input of two of its nodes, and an
output that takes one edge has at most one. Valid snapshots can be loaded (`Snapshot.Valid.loads`),
and what was loaded gives the same snapshot again (`Snapshot.snapshot_of_toGraph`). The snapshot of a
sound graph is valid (`Graph.Sound.snapshot_valid`), so the graph can be loaded from it
(`Graph.Sound.reloads`): the new graph lists its nodes in ascending order of their identifiers, and
has its edges in the order in which the old one lists them.
-/

namespace Workflow

/-! ### Tables of nodes -/

namespace NodeTable

theorem insertInto_perm {id : NodeId} (n : Node) {es : List (NodeId × Node)}
    (hid : id ∉ es.map Prod.fst) : (insertInto id n es).Perm ((id, n) :: es) := by
  induction es with
  | nil => exact .refl _
  | cons e rest ih =>
    obtain ⟨hne, hrest⟩ := not_or.1 (List.mem_cons.not.1 hid)
    rw [insertInto]
    split
    next => exact .refl _
    next hge =>
      split
      next => exact ((ih hrest).cons e).trans (.swap _ _ _)
      next hle =>
        -- Two identifiers of which neither is less are the same.
        refine absurd ?_ hne
        have hbits := BitVec.le_antisymm (BitVec.not_lt.1 hle) (BitVec.not_lt.1 hge)
        cases id
        exact congrArg NodeId.mk hbits

/-- A table of nodes with different identifiers has the nodes of the list. -/
theorem ofList_perm {nodes : List (NodeId × Node)} (hnd : (nodes.map Prod.fst).Nodup) :
    (ofList nodes).entries.Perm nodes := by
  suffices hfold : ∀ (t : NodeTable), (∀ id ∈ nodes.map Prod.fst, id ∉ t.entries.map Prod.fst) →
      (nodes.foldl (fun t e => t.insert e.1 e.2) t).entries.Perm (nodes ++ t.entries) by
    have hempty := hfold empty fun _ _ => List.not_mem_nil
    rwa [show empty.entries = [] from rfl, List.append_nil] at hempty
  induction nodes with
  | nil => exact fun t _ => .refl _
  | cons e rest ih =>
    intro t hnew
    obtain ⟨hnot, hnd⟩ := List.nodup_cons.1 hnd
    have hinsert : (t.insert e.1 e.2).entries.Perm (e :: t.entries) :=
      insertInto_perm e.2 (hnew e.1 List.mem_cons_self)
    refine (ih hnd (t.insert e.1 e.2) fun id hid hmem => ?_).trans ?_
    · rcases List.mem_cons.1 ((hinsert.map Prod.fst).mem_iff.1 hmem) with rfl | hmem
      · exact hnot hid
      · exact hnew id (List.mem_cons_of_mem _ hid) hmem
    · exact (hinsert.append_left rest).trans List.perm_middle

theorem nodup_ids (t : NodeTable) : (t.entries.map Prod.fst).Nodup := by
  refine List.pairwise_map.2 (t.sorted.imp fun hlt heq => ?_)
  rw [heq] at hlt
  exact BitVec.lt_irrefl _ hlt

/-- A table is that of its entries, since there is one order in which they ascend. -/
theorem ofList_entries (t : NodeTable) : ofList t.entries = t := by
  have hentries : (ofList t.entries).entries = t.entries := by
    refine (ofList_perm t.nodup_ids).eq_of_pairwise (fun a b _ _ hab hba => ?_)
      (ofList t.entries).sorted t.sorted
    exact absurd (BitVec.lt_trans hab hba) (BitVec.lt_irrefl _)
  generalize ofList t.entries = u at hentries
  cases u
  cases t
  cases hentries
  rfl

end NodeTable

/-- A snapshot that a graph can have: every edge joins an output and an input of two of the nodes,
and an output that takes one edge has at most one. -/
structure Snapshot.Valid (s : Snapshot) : Prop where
  joins : ∀ e ∈ s.edges, ∃ source target,
    (e.source, source) ∈ s.nodes.entries ∧ (e.target, target) ∈ s.nodes.entries ∧
      (1 ≤ e.output.toNat ∧ e.output.toNat ≤ source.outputs.toNat) ∧
      (1 ≤ e.input.toNat ∧ e.input.toNat ≤ target.inputs.toNat)
  single : ∀ id n p, (id, n) ∈ s.nodes.entries → p ∉ n.fanOut →
    (s.edges.filter fun e => e.source = id && e.output = p).length ≤ 1

namespace Graph

/-! ### Loading -/

namespace Shows

variable {g : Graph} {nodes : List (NodeId × Node)} {edges : List Edge}

/-- Nodes with new identifiers are put in one after the other. -/
theorem insertAll (h : g.Shows nodes edges) {entries : List (NodeId × Node)}
    (hnd : ((nodes ++ entries).map Prod.fst).Nodup) :
    (entries.foldl (fun g e => g.insert e.1 e.2) g).Shows (nodes ++ entries) edges ∧
      (entries.foldl (fun g e => g.insert e.1 e.2) g).metadata = g.metadata := by
  induction entries generalizing g nodes with
  | nil => exact ⟨by rwa [List.append_nil], rfl⟩
  | cons e rest ih =>
    rw [List.append_cons] at hnd ⊢
    have hnew : e.1 ∉ nodes.map Prod.fst := by
      rw [List.map_append, List.map_append] at hnd
      have hapart := List.nodup_append.1 (List.nodup_append.1 hnd).1
      exact fun hmem => hapart.2.2 _ hmem _ List.mem_cons_self rfl
    exact ih (h.insert hnew e.2) hnd

/-- Edges are added one after the other when they join ports of nodes, and an output that takes one
edge has no other. -/
theorem foldlM_addEdge_ok (h : g.Shows nodes edges) {es : List Edge}
    (hfit : ∀ e ∈ es, ∃ source target, (e.source, source) ∈ nodes ∧ (e.target, target) ∈ nodes ∧
      e.output.isWithin source.outputs = true ∧ e.input.isWithin target.inputs = true)
    (hsingle : ∀ id n p, (id, n) ∈ nodes → n.allowsFanOut p = false →
      ((edges ++ es).filter fun e => e.source = id && e.output = p).length ≤ 1) :
    ∃ g', es.foldlM Graph.addEdge g = .ok g' ∧ g'.Shows nodes (edges ++ es) ∧
      g'.metadata = g.metadata := by
  induction es generalizing g edges with
  | nil => exact ⟨g, rfl, by rwa [List.append_nil], rfl⟩
  | cons e rest ih =>
    obtain ⟨source, target, hs, ht, ho, hi⟩ := hfit e List.mem_cons_self
    have hfree : source.allowsFanOut e.output = true ∨
        ∀ f ∈ edges, ¬(f.source = e.source ∧ f.output = e.output) := by
      rw [or_iff_not_imp_left, Bool.not_eq_true]
      intro hone f hf hsame
      have hlength := hsingle _ _ e.output hs hone
      -- The edge and `f` would be two edges on one output.
      have htwo : [f, e].Sublist (edges ++ e :: rest) :=
        (List.singleton_sublist.2 hf).append (List.singleton_sublist.2 List.mem_cons_self)
      have hle := (htwo.filter fun x => x.source = e.source && x.output = e.output).length_le
      rw [List.filter_eq_self.2 (by simp [hsame])] at hle
      simp only [List.length_cons, List.length_nil] at hle
      omega
    obtain ⟨g₁, hadd⟩ := h.addEdge_ok hs ht ho hi hfree
    obtain ⟨hshows, hmeta, -⟩ := h.addEdge hadd
    obtain ⟨g', hrest, hshows', hmeta'⟩ := ih hshows
      (fun f hf => hfit f (List.mem_cons_of_mem e hf)) (by rwa [← List.append_cons])
    exact ⟨g', Except.bind_eq_ok_iff.2 ⟨g₁, hadd, hrest⟩, by rwa [List.append_cons],
      hmeta'.trans hmeta⟩

end Shows

/-- Edges that were added one after the other are behind those that were there. -/
theorem Shows.of_foldlM_addEdge {g g' : Graph} {nodes : List (NodeId × Node)} {edges es : List Edge}
    (h : g.Shows nodes edges) (hok : es.foldlM Graph.addEdge g = .ok g') :
    g'.Shows nodes (edges ++ es) ∧ g'.metadata = g.metadata := by
  induction es generalizing g edges with
  | nil =>
    cases hok
    exact ⟨by rwa [List.append_nil], rfl⟩
  | cons e rest ih =>
    obtain ⟨g₁, hadd, hrest⟩ := Except.bind_eq_ok_iff.1 hok
    obtain ⟨hshows, hmeta, -⟩ := h.addEdge hadd
    obtain ⟨hshows', hmeta'⟩ := ih hshows hrest
    exact ⟨by rwa [List.append_cons], hmeta'.trans hmeta⟩

end Graph

namespace Snapshot

variable {s : Snapshot} {g : Graph}

/-- The nodes of a snapshot without its edges. -/
def bare (s : Snapshot) : Graph :=
  s.nodes.entries.foldl (fun g e => g.insert e.1 e.2) (.empty s.metadata)

theorem bare_shows (s : Snapshot) :
    s.bare.Shows s.nodes.entries [] ∧ s.bare.metadata = s.metadata :=
  (Graph.shows_empty s.metadata).insertAll s.nodes.nodup_ids

/-- The graph that was loaded from a snapshot has its nodes and its edges in their order. -/
theorem toGraph_shows (h : s.toGraph = .ok g) :
    g.Shows s.nodes.entries s.edges ∧ g.metadata = s.metadata := by
  obtain ⟨hshows, hmeta⟩ := s.bare_shows
  obtain ⟨hshows', hmeta'⟩ := hshows.of_foldlM_addEdge h
  exact ⟨hshows', hmeta'.trans hmeta⟩

/-- What was loaded from a snapshot gives the same snapshot again. -/
theorem snapshot_of_toGraph (h : s.toGraph = .ok g) : g.snapshot = s := by
  obtain ⟨hshows, hmeta⟩ := toGraph_shows h
  rw [Graph.snapshot, hshows.nodes_eq, s.nodes.ofList_entries, hshows.edges_eq, hmeta]

/-- A valid snapshot can be loaded. -/
theorem Valid.loads (h : s.Valid) : ∃ g, s.toGraph = .ok g := by
  have hfit : ∀ e ∈ s.edges, ∃ source target,
      (e.source, source) ∈ s.nodes.entries ∧ (e.target, target) ∈ s.nodes.entries ∧
        e.output.isWithin source.outputs = true ∧ e.input.isWithin target.inputs = true := by
    simpa only [Port.isWithin_iff] using h.joins
  obtain ⟨g, hload, -⟩ := s.bare_shows.1.foldlM_addEdge_ok hfit fun id n p hn hp =>
    h.single id n p hn (by simpa [Node.allowsFanOut] using hp)
  exact ⟨g, hload⟩

end Snapshot

namespace Graph

/-- The snapshot of a sound graph is valid. -/
theorem Sound.snapshot_valid {g : Graph} {edges : List Edge} (h : g.Sound edges) :
    g.snapshot.Valid := by
  have hmem : ∀ {id n}, (id, n) ∈ g.snapshot.nodes.entries ↔ g.node? id = some n := fun {_ _} =>
    (NodeTable.ofList_perm h.consistent.nodup_ids).mem_iff.trans h.consistent.mem_nodes_iff
  refine ⟨fun e he => ?_, fun id n p hn hp => ?_⟩
  · obtain ⟨source, target, hs, ht, ho, hi⟩ := h.inRange e (h.edges_perm.mem_iff.1 he)
    rw [Port.isWithin_iff] at ho hi
    exact ⟨source, target, hmem.2 hs, hmem.2 ht, ho, hi⟩
  · show (g.edges.filter _).length ≤ 1
    rw [(h.edges_perm.filter _).length_eq]
    exact h.single id n p (hmem.1 hn) (by simpa [Node.allowsFanOut] using hp)

/-- A sound graph can be loaded from its snapshot. -/
theorem Sound.reloads {g : Graph} {edges : List Edge} (h : g.Sound edges) :
    ∃ g', g.snapshot.toGraph = .ok g' ∧ g'.Shows (NodeTable.ofList g.nodes).entries g.edges ∧
      g'.metadata = g.metadata := by
  obtain ⟨g', hload⟩ := h.snapshot_valid.loads
  exact ⟨g', hload, Snapshot.toGraph_shows hload⟩

end Graph

end Workflow
