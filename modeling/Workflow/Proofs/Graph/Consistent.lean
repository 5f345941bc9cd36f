import Mathlib.Data.List.Pairwise
import Workflow.Graph.Basic
import Workflow.Proofs.Arena
import Workflow.Proofs.Except
import Workflow.Proofs.Graph.Ports

/-!
# Identifiers and cells

A graph keeps its nodes in an arena, a table of the cells that identifiers stand for, and a table of
the identifiers of the cells. `Consistent` says that the tables are inverse to each other and cover
the cells in use, and every operation that adds, changes or removes nodes keeps it, given that a new
identifier is not in use. In a consistent graph a node is found by its identifier exactly when it is
listed (`Consistent.mem_nodes_iff`).

What is left of this when an identifier that is in use is given to another node is `Labelled`:
identifiers stand for cells of their own, but not every cell with an identifier is the one that it
stands for. Most of what holds of a consistent graph holds of a labelled one.
-/

namespace Workflow.Graph

/-- The cells in use have identifiers, and identifiers stand for cells of their own. -/
structure Labelled (g : Graph) : Prop where
  tidy : g.nodeArena.Tidy
  /-- The cells in use are those with an identifier. -/
  owned : ∀ i, (g.nodeArena.get? i).isSome = (g.owner? i).isSome
  /-- Another cell may have the identifier too. -/
  own : ∀ id i, g.cell? id = some i → g.owner? i = some id

/-- The tables of cells and identifiers agree with each other and with the arena of nodes. -/
structure Consistent (g : Graph) : Prop where
  tidy : g.nodeArena.Tidy
  /-- The cells in use are those with an identifier. -/
  owned : ∀ i, (g.nodeArena.get? i).isSome = (g.owner? i).isSome
  /-- The two tables are inverse to each other. -/
  cell_iff : ∀ id i, g.cell? id = some i ↔ g.owner? i = some id

theorem node?_eq_some_iff {g : Graph} {id : NodeId} {n : Node} :
    g.node? id = some n ↔ ∃ i, g.cell? id = some i ∧ g.nodeArena.get? i = some n := by
  simp only [node?, Option.bind_eq_bind, Option.bind_eq_some_iff]

/-- The identifiers that are listed are those of the cells in use. -/
theorem ids_eq (g : Graph) : g.ids = (g.nodeArena.listed.map Prod.fst).filterMap g.owner? := by
  rw [ids, nodes, List.map_filterMap, List.filterMap_map]
  refine List.filterMap_congr fun e _ => ?_
  rw [Option.map_map]
  exact Option.map_id'

theorem Consistent.labelled {g : Graph} (h : g.Consistent) : g.Labelled :=
  ⟨h.tidy, h.owned, fun id i => (h.cell_iff id i).1⟩

/-- The tables are inverse to each other when every cell is the one that its identifier stands for. -/
theorem Labelled.consistent {g : Graph} (h : g.Labelled)
    (hcell : ∀ id i, g.owner? i = some id → g.cell? id = some i) : g.Consistent :=
  ⟨h.tidy, h.owned, fun id i => ⟨h.own id i, hcell id i⟩⟩

namespace Labelled

variable {g : Graph}

/-- The node in the cell of an identifier. -/
theorem exists_node (h : g.Labelled) {id : NodeId} {i : Nat} (hi : g.cell? id = some i) :
    ∃ n, g.nodeArena.get? i = some n := by
  rw [← Option.isSome_iff_exists, h.owned, h.own id i hi]
  rfl

theorem contains_iff (h : g.Labelled) {id : NodeId} :
    g.contains id = true ↔ ∃ n, g.node? id = some n := by
  simp only [contains, Option.isSome_iff_exists, node?_eq_some_iff]
  constructor
  · rintro ⟨i, hi⟩
    obtain ⟨n, hn⟩ := h.exists_node hi
    exact ⟨n, i, hi, hn⟩
  · rintro ⟨n, i, hi, -⟩
    exact ⟨i, hi⟩

/-- A node that is found is listed. A node that is listed need not be found. -/
theorem mem_nodes (h : g.Labelled) {id : NodeId} {n : Node} (hn : g.node? id = some n) :
    (id, n) ∈ g.nodes := by
  obtain ⟨i, hi, hcell⟩ := node?_eq_some_iff.1 hn
  exact List.mem_filterMap.2 ⟨(i, n), Arena.mem_listed.2 (h.tidy.mem_entries_iff.2 hcell),
    by rw [h.own id i hi]; rfl⟩

/-- A cell in use has an identifier. -/
theorem exists_owner (h : g.Labelled) {e : Nat × Node} (he : e ∈ g.nodeArena.listed) :
    ∃ id, g.owner? e.1 = some id := by
  rw [← Option.isSome_iff_exists, ← h.owned, h.tidy.mem_entries_iff.1 (Arena.mem_listed.1 he)]
  rfl

/-- Every cell in use is listed with its identifier. -/
theorem length_nodes (h : g.Labelled) : g.nodes.length = g.nodeCount := by
  have howned : ∀ e ∈ g.nodeArena.listed, ((g.owner? e.1).map (·, e.2)).isSome = true := by
    intro e he
    obtain ⟨id, hid⟩ := h.exists_owner he
    rw [hid]
    rfl
  rw [nodes, List.filterMap_length_eq_length.2 howned, g.nodeArena.listed_perm.length_eq]
  rfl

/-- The next cell has no identifier yet. -/
theorem owner?_nextCell (h : g.Labelled) : g.owner? g.nodeArena.nextCell = none := by
  rw [← Option.not_isSome_iff_eq_none, ← h.owned, h.tidy.get?_nextCell]
  simp

theorem modify (h : g.Labelled) (id : NodeId) (f : Node → Node) : (g.modify id f).Labelled := by
  unfold Graph.modify
  split
  next i hi =>
    refine ⟨h.tidy.modify i f, fun j => ?_, h.own⟩
    show ((g.nodeArena.modify i f).get? j).isSome = (g.owner? j).isSome
    rw [Arena.get?_modify, ← h.owned]
    split
    · rw [Option.isSome_map]
    · rfl
  next => exact h

end Labelled

namespace Consistent

variable {g : Graph}

theorem congr (h : g.Consistent) {g' : Graph} (ha : g'.nodeArena = g.nodeArena)
    (hc : g'.cells = g.cells) (ho : g'.owners = g.owners) : g'.Consistent where
  tidy := ha ▸ h.tidy
  owned i := by rw [ha, h.owned, owner?, owner?, ho]
  cell_iff id i := by
    have hcell := h.cell_iff id i
    rwa [cell?, owner?, ← hc, ← ho] at hcell

/-- The node in the cell of an identifier. -/
theorem exists_node (h : g.Consistent) {id : NodeId} {i : Nat} (hi : g.cell? id = some i) :
    ∃ n, g.nodeArena.get? i = some n :=
  h.labelled.exists_node hi

theorem mem_nodes_iff (h : g.Consistent) {id : NodeId} {n : Node} :
    (id, n) ∈ g.nodes ↔ g.node? id = some n := by
  simp only [nodes, List.mem_filterMap, Arena.mem_listed, node?_eq_some_iff, h.cell_iff]
  constructor
  · rintro ⟨⟨i, m⟩, hi, he⟩
    obtain ⟨other, ho, he⟩ := Option.map_eq_some_iff.1 he
    cases he
    exact ⟨i, ho, h.tidy.mem_entries_iff.1 hi⟩
  · rintro ⟨i, ho, hi⟩
    exact ⟨(i, n), h.tidy.mem_entries_iff.2 hi, by rw [ho]; rfl⟩

/-- Every cell in use is listed with its identifier. -/
theorem length_nodes (h : g.Consistent) : g.nodes.length = g.nodeCount := h.labelled.length_nodes

/-- No identifier is listed twice. -/
theorem nodup_ids (h : g.Consistent) : g.ids.Nodup := by
  have hcells : (g.nodeArena.listed.map Prod.fst).Nodup :=
    (g.nodeArena.listed_perm.map Prod.fst).nodup_iff.2 h.tidy.nodup_cells
  rw [ids_eq]
  refine hcells.filterMap fun i j id hi hj => ?_
  rw [Option.mem_def, ← h.cell_iff] at hi hj
  exact Option.some.inj (hi.symm.trans hj)

end Consistent

/-- Whether the tables are inverse to each other can be seen from outside: every identifier that is
listed is listed once and has a node. -/
theorem Labelled.consistent_iff {g : Graph} (h : g.Labelled) :
    g.Consistent ↔ g.ids.Nodup ∧ ∀ id ∈ g.ids, g.contains id = true := by
  constructor
  · intro hg
    refine ⟨hg.nodup_ids, fun id hid => ?_⟩
    obtain ⟨⟨_, n⟩, hn, rfl⟩ := List.mem_map.1 hid
    exact h.contains_iff.2 ⟨n, hg.mem_nodes_iff.1 hn⟩
  · rintro ⟨hnodup, hfound⟩
    have hlisted : ∀ id i, g.owner? i = some id → i ∈ g.nodeArena.listed.map Prod.fst := by
      intro id i hi
      obtain ⟨n, hn⟩ := Option.isSome_iff_exists.1 ((h.owned i).trans (by rw [hi]; rfl))
      exact List.mem_map_of_mem (Arena.mem_listed.2 (h.tidy.mem_entries_iff.2 hn))
    rw [ids_eq] at hnodup hfound
    refine h.consistent fun id i hi => ?_
    have hid := List.mem_filterMap.2 ⟨i, hlisted id i hi, hi⟩
    obtain ⟨j, hj⟩ := Option.isSome_iff_exists.1 (hfound id hid)
    -- The cell that the identifier stands for has it as well, so it is this one.
    have hown := h.own id j hj
    have : Std.Symm fun a b : Nat => ∀ x, g.owner? a = some x → ∀ y, g.owner? b = some y → x ≠ y :=
      ⟨fun _ _ h x hx y hy => (h y hy x hx).symm⟩
    have hsame : i = j := by
      by_contra hne
      exact (List.pairwise_filterMap.1 hnodup).forall (hlisted id i hi) (hlisted id j hown) hne
        id hi id hown rfl
    rw [hsame, hj]

theorem consistent_empty (metadata : Metadata) : (empty metadata).Consistent where
  tidy := Arena.tidy_empty
  owned _ := rfl
  cell_iff id i := by simp [cell?, owner?, empty]

/-- What is found in a table after a key was removed. -/
theorem find?_filter_ne {α β : Type} [DecidableEq α] (table : List (α × β)) (key other : α) :
    (table.filter (·.1 ≠ key)).find? (·.1 = other) =
      if key = other then none else table.find? (·.1 = other) := by
  split
  next h => exact List.find?_eq_none.2 (by simp [h])
  next h =>
    rw [List.find?_filter]
    congr 1
    funext e
    by_cases he : e.1 = other
    · simp [he, Ne.symm h]
    · simp [he]

theorem cell?_insert (g : Graph) (id other : NodeId) (n : Node) :
    (g.insert id n).cell? other =
      if id = other then some g.nodeArena.nextCell else g.cell? other := by
  unfold cell? insert
  by_cases h : id = other
  · simp [h]
  · rw [List.find?_cons_of_neg (by simpa using h), find?_filter_ne, if_neg h, if_neg h]

theorem owner?_insert (g : Graph) (id : NodeId) (n : Node) (i : Nat) :
    (g.insert id n).owner? i =
      if g.nodeArena.nextCell = i then some id else g.owner? i := by
  unfold owner? insert
  by_cases h : g.nodeArena.nextCell = i
  · simp [h]
  · rw [List.find?_cons_of_neg (by simpa using h), find?_filter_ne, if_neg h, if_neg h]

/-- A new node takes no cell that has an identifier. -/
theorem Labelled.owner?_insert_of_isSome {g : Graph} (h : g.Labelled) (id : NodeId) (n : Node)
    {i : Nat} (hi : (g.owner? i).isSome = true) : (g.insert id n).owner? i = g.owner? i := by
  rw [owner?_insert, if_neg]
  rintro rfl
  rw [h.owner?_nextCell] at hi
  cases hi

/-- An inserted node may take the identifier of another one. -/
theorem Labelled.insert {g : Graph} (h : g.Labelled) (id : NodeId) (n : Node) :
    (g.insert id n).Labelled where
  tidy := h.tidy.insert n
  owned i := by
    show ((g.nodeArena.insert n).get? i).isSome = _
    rw [Arena.get?_insert, owner?_insert]
    split
    · rfl
    · exact h.owned i
  own other i hi := by
    rw [cell?_insert] at hi
    split at hi
    next heq =>
      obtain rfl := Option.some.inj hi
      rw [owner?_insert, if_pos rfl, heq]
    next =>
      have howner := h.own other i hi
      rw [h.owner?_insert_of_isSome id n (by rw [howner]; rfl), howner]

namespace Consistent

variable {g : Graph}

theorem insert (h : g.Consistent) {id : NodeId} (hid : g.contains id = false) (n : Node) :
    (g.insert id n).Consistent := by
  have hnone : g.cell? id = none := by simpa [contains] using hid
  refine (h.labelled.insert id n).consistent fun other i hi => ?_
  rw [owner?_insert] at hi
  rw [cell?_insert]
  split at hi
  next hnext =>
    obtain rfl := Option.some.inj hi
    rw [if_pos rfl, hnext]
  next =>
    -- The identifier is new, so no old cell belongs to it.
    have hcell := (h.cell_iff other i).2 hi
    rw [if_neg, hcell]
    rintro rfl
    cases hnone.symm.trans hcell

theorem modify (h : g.Consistent) (id : NodeId) (f : Node → Node) : (g.modify id f).Consistent := by
  have hmodified := h.labelled.modify id f
  unfold Graph.modify at hmodified ⊢
  split at hmodified
  next i hi => exact hmodified.consistent fun other j => (h.cell_iff other j).2
  next => exact h

end Consistent

/-- An edge is added when both of its ends are ports of nodes, and its output is free or takes more
than one edge. -/
theorem addEdge_eq_ok_iff {g g' : Graph} {e : Edge} :
    g.addEdge e = .ok g' ↔
      ∃ i j source target, g.cell? e.source = some i ∧ g.cell? e.target = some j ∧
        g.node? e.source = some source ∧ g.node? e.target = some target ∧
        e.output.isWithin source.outputs = true ∧ e.input.isWithin target.inputs = true ∧
        (source.allowsFanOut e.output = true ∨ g.edgeOn? e.source e.output = none) ∧
        g' = { g with links := g.links.insert ⟨i, e.output, j, e.input⟩ } := by
  unfold addEdge
  cases hi : g.cell? e.source with
  | none => simp [throw, throwThe, MonadExceptOf.throw]
  | some i =>
    cases hj : g.cell? e.target with
    | none => simp [throw, throwThe, MonadExceptOf.throw]
    | some j =>
      simp only [Except.bind_eq_ok_iff, node_eq_ok_iff, Except.check_eq_ok_iff,
        Except.pure_eq_ok_iff, Bool.not_eq_true', Bool.not_eq_false, Bool.and_eq_true,
        Option.some.injEq]
      constructor
      · rintro ⟨source, hs, target, ht, ho, hin, hfree, rfl⟩
        refine ⟨i, j, source, target, rfl, rfl, hs, ht, ho, hin, ?_, rfl⟩
        by_cases hf : source.allowsFanOut e.output = true
        · exact .inl hf
        · exact .inr (by simpa [hf] using hfree)
      · rintro ⟨_, _, source, target, rfl, rfl, hs, ht, ho, hin, hfree, rfl⟩
        refine ⟨source, hs, target, ht, ho, hin, ?_, rfl⟩
        rintro ⟨hf, hsome⟩
        rcases hfree with h | h
        · rw [h] at hf
          cases hf
        · rw [h] at hsome
          cases hsome

theorem eraseLinksWhere_eq (g : Graph) (p : Link → Bool) :
    g.eraseLinksWhere p =
      { g with links := (g.links.select p).foldr (fun e links => links.erase e.1) g.links } := by
  unfold eraseLinksWhere
  generalize g.links.select p = cells
  induction cells with
  | nil => rfl
  | cons e rest ih => rw [List.foldr_cons, ih, eraseLink, List.foldr_cons]

theorem erase_eq {g : Graph} {id : NodeId} {i : Nat} (h : g.cell? id = some i) :
    g.erase id = { g with
      nodeArena := g.nodeArena.erase i
      cells := g.cells.filter (·.1 ≠ id)
      owners := g.owners.filter (·.1 ≠ i)
      links := ((g.eraseLinksWhere (·.source = i)).eraseLinksWhere (·.target = i)).links } := by
  simp only [erase, h]
  rw [eraseLinksWhere_eq, eraseLinksWhere_eq]

theorem erase_of_cell?_eq_none {g : Graph} {id : NodeId} (hi : g.cell? id = none) :
    g.erase id = g := by
  simp only [erase, hi]

theorem cell?_erase {g : Graph} {id : NodeId} {i : Nat} (hi : g.cell? id = some i)
    (other : NodeId) : (g.erase id).cell? other = if id = other then none else g.cell? other := by
  rw [erase_eq hi]
  show Option.map Prod.snd _ = _
  rw [find?_filter_ne]
  split <;> rfl

theorem owner?_erase {g : Graph} {id : NodeId} {i : Nat} (hi : g.cell? id = some i) (j : Nat) :
    (g.erase id).owner? j = if i = j then none else g.owner? j := by
  rw [erase_eq hi]
  show Option.map Prod.snd _ = _
  rw [find?_filter_ne]
  split <;> rfl

/-- Other cells keep their identifiers. -/
theorem Labelled.erase {g : Graph} (h : g.Labelled) (id : NodeId) : (g.erase id).Labelled := by
  cases hi : g.cell? id with
  | none => rwa [erase_of_cell?_eq_none hi]
  | some i =>
    refine ⟨?_, fun j => ?_, fun other j hj => ?_⟩
    · rw [erase_eq hi]
      exact h.tidy.erase i
    · rw [owner?_erase hi, erase_eq hi]
      show ((g.nodeArena.erase i).get? j).isSome = _
      split
      next hij => rw [← hij, Arena.get?_erase_self]; rfl
      next hij => rw [Arena.get?_erase_of_ne _ hij, h.owned]
    · rw [cell?_erase hi] at hj
      split at hj
      next => cases hj
      next hne =>
        have howner := h.own other j hj
        rw [owner?_erase hi, if_neg, howner]
        rintro rfl
        exact hne (Option.some.inj ((h.own id i hi).symm.trans howner))

theorem Consistent.erase {g : Graph} (h : g.Consistent) (id : NodeId) :
    (g.erase id).Consistent := by
  cases hi : g.cell? id with
  | none => rwa [erase_of_cell?_eq_none hi]
  | some i =>
    refine (h.labelled.erase id).consistent fun other j hj => ?_
    rw [owner?_erase hi] at hj
    split at hj
    next => cases hj
    next hne =>
      have hcell := (h.cell_iff other j).2 hj
      rw [cell?_erase hi, if_neg, hcell]
      rintro rfl
      exact hne (Option.some.inj (hi.symm.trans hcell))

end Workflow.Graph
