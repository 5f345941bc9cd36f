import Mathlib.Data.List.Sort
import Workflow.Proofs.Edit.Reinserted

/-!
# Nodes by cell and nodes by age

A graph lists its nodes by cell. It is false that this is the order in which they were put in: a new
node takes the cell that was freed last, and is then listed before older nodes (`run_reuses_cell`).
The first start node and the first node with a state id need not be the oldest ones either.

What holds is that the nodes are those that are left, in some order (`Edit.run_lists`). The order is
that of their ages exactly when no node stands in a cell before that of an older one
(`Consistent.nodes_eq_byAge_iff`). It stays so as long as every new node gets a cell behind those in
use, as it does when no cell is free (`fillsBehind_of_full`).
-/

namespace Workflow

namespace Arena

variable {α : Type} {a : Arena α}

theorem insertByCell_sorted {e : Nat × α} {sorted : List (Nat × α)}
    (h : sorted.Pairwise fun x y => x.1 < y.1) (hne : ∀ f ∈ sorted, f.1 ≠ e.1) :
    (insertByCell e sorted).Pairwise fun x y => x.1 < y.1 := by
  induction sorted with
  | nil => exact List.pairwise_singleton _ e
  | cons f rest ih =>
    obtain ⟨hfirst, hrest⟩ := List.pairwise_cons.1 h
    rw [insertByCell]
    split
    next hlt =>
      refine List.pairwise_cons.2 ⟨fun g hg => ?_, h⟩
      rcases List.mem_cons.1 hg with rfl | hg
      · exact hlt
      · exact Nat.lt_trans hlt (hfirst g hg)
    next hge =>
      refine List.pairwise_cons.2 ⟨fun g hg => ?_,
        ih hrest fun g hg => hne g (List.mem_cons_of_mem f hg)⟩
      rcases mem_insertByCell.1 hg with rfl | hg
      · have := hne f List.mem_cons_self
        omega
      · exact hfirst g hg

/-- Every cell is listed once, the first one first. -/
theorem Tidy.listed_sorted (h : a.Tidy) : a.listed.Pairwise fun x y => x.1 < y.1 := by
  have key : ∀ entries sorted : List (Nat × α), (entries.map Prod.fst).Nodup →
      (∀ e ∈ entries, ∀ f ∈ sorted, f.1 ≠ e.1) → (sorted.Pairwise fun x y => x.1 < y.1) →
      (entries.foldl (fun sorted e => insertByCell e sorted) sorted).Pairwise
        fun x y => x.1 < y.1 := by
    intro entries
    induction entries with
    | nil => exact fun sorted _ _ hsorted => hsorted
    | cons e entries ih =>
      intro sorted hnd hne hsorted
      obtain ⟨hnot, hnd⟩ := List.nodup_cons.1 hnd
      refine ih _ hnd (fun f hf x hx => ?_) (insertByCell_sorted hsorted (hne e List.mem_cons_self))
      rcases mem_insertByCell.1 hx with rfl | hx
      · exact fun heq => hnot (heq ▸ List.mem_map_of_mem hf)
      · exact hne f (List.mem_cons_of_mem e hf) x hx
  exact key _ [] h.nodup_cells (fun _ _ => nofun) .nil

end Arena

namespace Graph

/-- The nodes with their identifiers, the oldest first. -/
def byAge (g : Graph) : List (NodeId × Node) :=
  g.nodeArena.entries.reverse.filterMap g.labelled?

/-- No node stands in a cell before that of an older one. -/
def InOrder (g : Graph) : Prop :=
  g.nodeArena.entries.reverse.Pairwise fun x y => x.1 < y.1

/-- The next node gets a cell behind all that are in use. -/
def FillsBehind (g : Graph) : Prop := ∀ x ∈ g.nodeArena.entries, x.1 < g.nodeArena.nextCell

instance (g : Graph) : Decidable g.InOrder := inferInstanceAs (Decidable (List.Pairwise _ _))

instance (g : Graph) : Decidable g.FillsBehind :=
  inferInstanceAs (Decidable (∀ x ∈ g.nodeArena.entries, _))

variable {g : Graph} {id : NodeId} {n : Node}

theorem nodes_perm_byAge (g : Graph) : g.nodes.Perm g.byAge :=
  g.nodes_perm.trans ((List.reverse_perm _).symm.filterMap _)

/-- Without free cells there is no other place for a node than behind the others. -/
theorem Consistent.fillsBehind_of_full (h : g.Consistent) (hfree : g.nodeArena.free = []) :
    g.FillsBehind := by
  intro x hx
  have hlt := h.tidy.mem_cells_lt (List.mem_map_of_mem hx)
  rwa [Arena.nextCell, hfree, List.headD_nil, ← hfree]

theorem InOrder.insert (h : g.InOrder) (hbehind : g.FillsBehind) (id : NodeId) (n : Node) :
    (g.insert id n).InOrder := by
  show (List.reverse ((g.nodeArena.nextCell, n) :: g.nodeArena.entries)).Pairwise _
  rw [List.reverse_cons]
  refine List.pairwise_append.2 ⟨h, List.pairwise_singleton _ _, fun x hx y hy => ?_⟩
  rw [List.mem_singleton.1 hy]
  exact hbehind x (List.mem_reverse.1 hx)

theorem InOrder.erase (h : g.InOrder) (id : NodeId) : (g.erase id).InOrder := by
  cases hi : g.cell? id with
  | none => rwa [erase_of_cell?_eq_none hi]
  | some i =>
    rw [erase_eq hi]
    show (g.nodeArena.erase i).entries.reverse.Pairwise _
    rw [Arena.entries_erase, ← List.filter_reverse]
    exact h.filter _

namespace Consistent

/-- A new node is the youngest one. -/
theorem byAge_insert (h : g.Consistent) (id : NodeId) (n : Node) :
    (g.insert id n).byAge = g.byAge ++ [(id, n)] := by
  have hnew : (g.insert id n).labelled? (g.nodeArena.nextCell, n) = some (id, n) := by
    rw [labelled?, owner?_insert, if_pos rfl]
    rfl
  have hkept : ∀ x ∈ g.nodeArena.entries.reverse,
      (g.insert id n).labelled? x = g.labelled? x := by
    intro x hx
    have hsome : (g.owner? x.1).isSome = true := by
      rw [← h.owned, h.tidy.mem_entries_iff.1 (List.mem_reverse.1 hx)]
      rfl
    rw [labelled?, labelled?, h.labelled.owner?_insert_of_isSome id n hsome]
  show ((g.nodeArena.nextCell, n) :: g.nodeArena.entries).reverse.filterMap _ = _
  rw [List.reverse_cons, List.filterMap_append, List.filterMap_congr hkept, List.filterMap_cons,
    hnew]
  rfl

theorem exists_owner (h : g.Consistent) {x : Nat × Node} (hx : x ∈ g.nodeArena.entries) :
    ∃ id, g.owner? x.1 = some id := by
  rw [← Option.isSome_iff_exists, ← h.owned, h.tidy.mem_entries_iff.1 hx]
  rfl

/-- The nodes that are left keep their order. -/
theorem byAge_erase (h : g.Consistent) (id : NodeId) :
    (g.erase id).byAge = g.byAge.filter (·.1 ≠ id) := by
  cases hi : g.cell? id with
  | none =>
    rw [erase_of_cell?_eq_none hi, eq_comm, List.filter_eq_self]
    rintro ⟨other, n⟩ hmem
    obtain ⟨i, hcell, -⟩ := node?_eq_some_iff.1
      (h.mem_nodes_iff.1 (g.nodes_perm_byAge.mem_iff.2 hmem))
    refine decide_eq_true ?_
    rintro rfl
    cases hi.symm.trans hcell
  | some i =>
    rw [byAge, byAge, List.filter_filterMap,
      show (g.erase id).nodeArena = g.nodeArena.erase i by rw [erase_eq hi], Arena.entries_erase,
      ← List.filter_reverse, List.filterMap_filter]
    refine List.filterMap_congr fun x hx => ?_
    obtain ⟨other, howner⟩ := h.exists_owner (List.mem_reverse.1 hx)
    have hcell : x.1 = i ↔ other = id := by
      rw [← h.cell_iff] at howner
      constructor
      · rintro rfl
        exact Option.some.inj (((h.cell_iff _ _).1 howner).symm.trans ((h.cell_iff _ _).1 hi))
      · rintro rfl
        exact Option.some.inj (howner.symm.trans hi)
    rw [labelled?, labelled?, owner?_erase hi, howner]
    by_cases hx : x.1 = i
    · simp [hx, hcell.1 hx, Option.filter]
    · simp [hx, Ne.symm hx, mt hcell.2 hx, Option.filter]

/-- Nodes in a list tell the cells that they stand in. -/
theorem map_cell?_labelled (h : g.Consistent) {xs : List (Nat × Node)}
    (hxs : ∀ x ∈ xs, x ∈ g.nodeArena.entries) :
    (xs.filterMap g.labelled?).map (fun e => g.cell? e.1) = xs.map fun x => some x.1 := by
  rw [List.map_filterMap, ← List.filterMap_eq_map]
  refine List.filterMap_congr fun x hx => ?_
  obtain ⟨id, howner⟩ := h.exists_owner (hxs x hx)
  rw [labelled?, howner, Option.map_some, Option.map_some, (h.cell_iff _ _).2 howner]
  rfl

/-- The nodes are listed by age exactly when their cells are in the order of their ages. -/
theorem nodes_eq_byAge_iff (h : g.Consistent) : g.nodes = g.byAge ↔ g.InOrder := by
  have hperm : g.nodeArena.listed.Perm g.nodeArena.entries.reverse :=
    g.nodeArena.listed_perm.trans (List.reverse_perm _).symm
  have hsorted := h.tidy.listed_sorted
  constructor
  · intro heq
    have hcells : g.nodeArena.listed.map (fun x => some x.1)
        = g.nodeArena.entries.reverse.map fun x => some x.1 := by
      rw [← h.map_cell?_labelled fun x => Arena.mem_listed.1,
        ← h.map_cell?_labelled fun x => List.mem_reverse.1]
      exact congrArg (List.map fun e => g.cell? e.1) heq
    have hfirst : g.nodeArena.listed.map Prod.fst = g.nodeArena.entries.reverse.map Prod.fst :=
      List.map_injective_iff.2 (Option.some_injective Nat)
        (by rw [List.map_map, List.map_map]; exact hcells)
    exact List.pairwise_map.1 (hfirst ▸ List.pairwise_map.2 hsorted)
  · intro horder
    refine congrArg (List.filterMap g.labelled?) (hperm.eq_of_pairwise ?_ hsorted horder)
    exact fun x y _ _ hxy hyx => absurd hyx (Nat.lt_asymm hxy)

end Consistent

end Graph

/-! ### Runs of insertions and removals -/

namespace Edit

variable {T : Type} [NodeSpec T] {c : Catalog T} {g : Graph} {edits : List Edit}
  {metadata : Metadata}

/-- The call puts in a node or removes one. -/
def MovesNodes : Edit → Prop
  | add .. | insert .. | erase .. => True
  | _ => False

/-- The call puts in a node. -/
def PutsIn : Edit → Prop
  | add .. | insert .. => True
  | _ => False

instance : (e : Edit) → Decidable e.MovesNodes
  | add .. | insert .. | erase .. => .isTrue trivial
  | addEdge _ | connect _ | eraseEdge _ | rename .. | resizeOutputs .. | setForm ..
  | setInitialized .. => .isFalse id

instance : (e : Edit) → Decidable e.PutsIn
  | add .. | insert .. => .isTrue trivial
  | erase _ | addEdge _ | connect _ | eraseEdge _ | rename .. | resizeOutputs .. | setForm ..
  | setInitialized .. => .isFalse id

/-- What a call does to the nodes that are left, the oldest first. -/
def onSurvivors (c : Catalog T) (nodes : List (NodeId × Node)) : Edit → List (NodeId × Node)
  | add id kind form =>
    match c.get? kind with
    | some t => nodes ++ [(id, .ofType kind t form)]
    | none => nodes
  | insert id n => nodes ++ [(id, n)]
  | erase id => nodes.filter (·.1 ≠ id)
  | _ => nodes

/-- The nodes that are left after calls, in the order in which they were put in. -/
def survivors (c : Catalog T) (edits : List Edit) : List (NodeId × Node) :=
  edits.foldl (onSurvivors c) []

/-- A call changes the nodes as it changes the list of those that are left. -/
theorem byAge_apply (hg : g.Consistent) {e : Edit} (hfresh : e.Fresh g) (hmoves : e.MovesNodes) :
    (e.apply c g).Consistent ∧ (e.apply c g).byAge = onSurvivors c g.byAge e := by
  cases e with
  | add id kind form =>
    simp only [apply, Graph.add, Catalog.lookup, onSurvivors]
    cases c.get? kind with
    | none => exact ⟨hg, rfl⟩
    | some t => exact ⟨hg.insert hfresh _, hg.byAge_insert id _⟩
  | insert id n => exact ⟨hg.insert hfresh n, hg.byAge_insert id n⟩
  | erase id => exact ⟨hg.erase id, hg.byAge_erase id⟩
  | _ => exact hmoves.elim

theorem byAge_run (hg : g.Consistent)
    (h : Allows c (fun g e => e.Fresh g ∧ e.MovesNodes) g edits) :
    (run c g edits).Consistent ∧ (run c g edits).byAge = edits.foldl (onSurvivors c) g.byAge := by
  induction edits generalizing g with
  | nil => exact ⟨hg, rfl⟩
  | cons e rest ih =>
    obtain ⟨⟨hfresh, hmoves⟩, hrest⟩ := h
    obtain ⟨hconsistent, hage⟩ := byAge_apply (c := c) hg hfresh hmoves
    obtain ⟨hlast, hrun⟩ := ih hconsistent hrest
    exact ⟨hlast, hrun.trans (congrArg (rest.foldl (onSurvivors c)) hage)⟩

theorem inOrder_apply (hg : g.InOrder) {e : Edit} (hmoves : e.MovesNodes)
    (hbehind : e.PutsIn → g.FillsBehind) : (e.apply c g).InOrder := by
  cases e with
  | add id kind form =>
    simp only [apply, Graph.add, Catalog.lookup]
    cases c.get? kind with
    | none => exact hg
    | some t => exact hg.insert (hbehind trivial) id _
  | insert id n => exact hg.insert (hbehind trivial) id n
  | erase id => exact hg.erase id
  | _ => exact hmoves.elim

theorem inOrder_run (hg : g.InOrder)
    (h : Allows c (fun g e => e.MovesNodes ∧ (e.PutsIn → g.FillsBehind)) g edits) :
    (run c g edits).InOrder := by
  induction edits generalizing g with
  | nil => exact hg
  | cons e rest ih => exact ih (inOrder_apply hg h.1.1 h.1.2) h.2

/-- After any insertions of new nodes and removals the graph lists the nodes that are left, and it
lists them in the order in which they were put in exactly when no node stands in a cell before that
of an older one. This is so when every node got a cell behind those in use at the time; then the
first start node and the first node with a state id are the oldest ones. -/
theorem run_lists (h : Allows c (fun g e => e.Fresh g ∧ e.MovesNodes) (.empty metadata) edits) :
    (run c (.empty metadata) edits).nodes.Perm (survivors c edits) ∧
      ((run c (.empty metadata) edits).nodes = survivors c edits ↔
        (run c (.empty metadata) edits).InOrder) ∧
      (Allows c (fun g e => e.MovesNodes ∧ (e.PutsIn → g.FillsBehind)) (.empty metadata) edits →
        (run c (.empty metadata) edits).nodes = survivors c edits ∧
        (run c (.empty metadata) edits).startNode?
          = ((survivors c edits).find? (·.2.isStart)).map Prod.fst ∧
        ∀ name, (run c (.empty metadata) edits).findState? name
          = ((survivors c edits).find? fun e => e.2.isPrimitive && e.2.stateId = some name).map
              Prod.fst) := by
  obtain ⟨hconsistent, hage⟩ := byAge_run (Graph.consistent_empty metadata) h
  have hiff := hconsistent.nodes_eq_byAge_iff
  have hage : (run c (.empty metadata) edits).byAge = survivors c edits := hage
  rw [hage] at hiff
  refine ⟨hage ▸ Graph.nodes_perm_byAge _, hiff, fun hbehind => ?_⟩
  have hnodes := hiff.2 (inOrder_run (g := .empty metadata) .nil hbehind)
  refine ⟨hnodes, ?_, fun name => ?_⟩
  · rw [Graph.startNode?, hnodes]
  · rw [Graph.findState?, hnodes]

/-- Calls that put in a state and a start node, remove the state, and put in another start node. -/
def reusing : List Edit :=
  let start : Node := .ofType "start" (NodeType.special 0 1 .entry) []
  let state : Node := .ofType "noop" (NodeType.primitive .single) []
  [.insert (.ofNat 1) state, .insert (.ofNat 2) start, .erase (.ofNat 1), .insert (.ofNat 3) start]

/-- The youngest node takes the cell of the one that was removed, so it is listed first, and it is the
start node that is found. -/
theorem run_reuses_cell :
    Allows .standard (fun g e => e.Fresh g ∧ e.MovesNodes) (.empty .empty) reusing ∧
      (survivors .standard reusing).map Prod.fst = [.ofNat 2, .ofNat 3] ∧
      (run .standard (.empty .empty) reusing).ids = [.ofNat 3, .ofNat 2] ∧
      (run .standard (.empty .empty) reusing).startNode? = some (.ofNat 3) ∧
      ¬(run .standard (.empty .empty) reusing).InOrder := by
  decide +kernel

end Edit

end Workflow
