import Workflow.Proofs.Graph.Holds

/-!
# Graphs whose states are named otherwise

`Graph.Renamed` says that two graphs have the same nodes and the same edges, but for the ids of the
states that the nodes stand for. A change of all names at once is of this kind
(`renamed_mapNodes`), and giving one state another id is such a change as long as no other node has
the old one (`Labelled.modify_eq_mapNodes`).
-/

namespace Workflow

namespace Arena

variable {α : Type}

/-- The arena with other values in the same cells. -/
def map (a : Arena α) (f : α → α) : Arena α := ⟨a.entries.map fun e => (e.1, f e.2), a.free⟩

theorem insertByCell_map (f : α → α) (e : Nat × α) (sorted : List (Nat × α)) :
    insertByCell (e.1, f e.2) (sorted.map fun e => (e.1, f e.2))
      = (insertByCell e sorted).map fun e => (e.1, f e.2) := by
  induction sorted with
  | nil => rfl
  | cons d rest ih =>
    rw [List.map_cons, insertByCell, insertByCell, ih]
    split <;> rfl

/-- Values that are changed keep their places in the list. -/
theorem listed_map (a : Arena α) (f : α → α) :
    (a.map f).listed = a.listed.map fun e => (e.1, f e.2) := by
  have key : ∀ entries sorted : List (Nat × α),
      (entries.map fun e => (e.1, f e.2)).foldl (fun sorted e => insertByCell e sorted)
          (sorted.map fun e => (e.1, f e.2))
        = (entries.foldl (fun sorted e => insertByCell e sorted) sorted).map
            fun e => (e.1, f e.2) := by
    intro entries
    induction entries with
    | nil => exact fun _ => rfl
    | cons e entries ih =>
      intro sorted
      rw [List.map_cons, List.foldl_cons, insertByCell_map, ih, List.foldl_cons]
  exact key a.entries []

theorem get?_map (a : Arena α) (f : α → α) (i : Nat) : (a.map f).get? i = (a.get? i).map f := by
  rw [get?, get?, map, List.find?_map, Option.map_map, Option.map_map]
  rfl

/-- A change to one value is a change to all of them when it is what becomes of this one and the
others stay. -/
theorem modify_eq_map {a : Arena α} {i : Nat} {f g : α → α}
    (h : ∀ e ∈ a.entries, (if e.1 = i then f e.2 else e.2) = g e.2) : a.modify i f = a.map g := by
  refine congrArg (Arena.mk · a.free) (List.map_congr_left fun e he => ?_)
  rw [← h e he]
  split <;> rfl

end Arena

/-- The name `new` in place of `old`; every other name stays. -/
def replaceName (old new name : String) : String := if name = old then new else name

theorem replaceName_self (old new : String) : replaceName old new old = new := if_pos rfl

theorem replaceName_of_ne {old name : String} (h : name ≠ old) (new : String) :
    replaceName old new name = name := if_neg h

namespace Node

/-- The node with another id for the state that it stands for. -/
def mapName (σ : String → String) (n : Node) : Node :=
  if n.isPrimitive then { n with stateId := n.stateId.map σ } else n

variable (σ : String → String) (n : Node)

@[simp] theorem kind_mapName : (n.mapName σ).kind = n.kind := by
  unfold mapName
  split <;> rfl

@[simp] theorem family_mapName : (n.mapName σ).family = n.family := by
  unfold mapName
  split <;> rfl

@[simp] theorem form_mapName : (n.mapName σ).form = n.form := by
  unfold mapName
  split <;> rfl

@[simp] theorem initialized_mapName : (n.mapName σ).initialized = n.initialized := by
  unfold mapName
  split <;> rfl

@[simp] theorem outputs_mapName : (n.mapName σ).outputs = n.outputs := by
  unfold mapName
  split <;> rfl

@[simp] theorem isPrimitive_mapName : (n.mapName σ).isPrimitive = n.isPrimitive := by
  rw [isPrimitive, isPrimitive, family_mapName]

@[simp] theorem isStart_mapName : (n.mapName σ).isStart = n.isStart := by
  rw [isStart, isStart, family_mapName, kind_mapName]

@[simp] theorem isCatch_mapName : (n.mapName σ).isCatch = n.isCatch := by
  rw [isCatch, isCatch, family_mapName, kind_mapName]

variable {σ n}

theorem stateId_mapName (h : n.isPrimitive = true) :
    (n.mapName σ).stateId = n.stateId.map σ := by
  rw [mapName, if_pos h]

/-- Only the node of a state with a name that changes is changed. -/
theorem mapName_eq_self (h : n.isPrimitive = true → ∀ name, n.stateId = some name → σ name = name) :
    n.mapName σ = n := by
  unfold mapName
  split
  next hp =>
    have hsame : n.stateId.map σ = n.stateId := by
      cases hid : n.stateId with
      | none => rfl
      | some name => exact congrArg some (h hp name hid)
    rw [hsame]
  next => rfl

end Node

namespace Graph

/-- The second graph is the first one with other ids for its states. -/
structure Renamed (σ : String → String) (g g' : Graph) : Prop where
  nodes_eq : g'.nodes = g.nodes.map fun e => (e.1, e.2.mapName σ)
  nodeCount_eq : g'.nodeCount = g.nodeCount
  node?_eq : ∀ id, g'.node? id = (g.node? id).map (Node.mapName σ)
  outgoing_eq : ∀ id, g'.outgoing id = g.outgoing id
  incoming_eq : ∀ id, g'.incoming id = g.incoming id
  edgeOn?_eq : ∀ id p, g'.edgeOn? id p = g.edgeOn? id p
  metadata_eq : g'.metadata = g.metadata

/-- The graph with other nodes in the same places. -/
def mapNodes (g : Graph) (f : Node → Node) : Graph := { g with nodeArena := g.nodeArena.map f }

theorem renamed_mapNodes (g : Graph) (σ : String → String) :
    g.Renamed σ (g.mapNodes (Node.mapName σ)) where
  nodes_eq := by
    show ((g.nodeArena.map (Node.mapName σ)).listed.filterMap fun e => (g.owner? e.1).map (·, e.2)) =
      _
    rw [Arena.listed_map, List.filterMap_map, nodes, List.map_filterMap]
    refine List.filterMap_congr fun e _ => ?_
    rw [Function.comp_apply, Option.map_map]
    rfl
  nodeCount_eq := List.length_map _
  node?_eq id := by
    show (g.cell? id).bind (g.nodeArena.map (Node.mapName σ)).get? = _
    rw [node?]
    cases g.cell? id with
    | none => rfl
    | some i => exact Arena.get?_map _ _ i
  outgoing_eq _ := rfl
  incoming_eq _ := rfl
  edgeOn?_eq _ _ := rfl
  metadata_eq := rfl

/-- Giving the only state with the id `old` the id `new` is a change of names. -/
theorem Labelled.modify_eq_mapNodes {g : Graph} (h : g.Labelled) {id : NodeId} {n : Node}
    {old : String} (hn : g.node? id = some n) (hp : n.isPrimitive = true)
    (hid : n.stateId = some old) (hunique : ∀ x ∈ g.nodeArena.entries, x.2.isPrimitive = true →
      x.2.stateId = some old → g.cell? id = some x.1) (new : String) :
    g.modify id (fun n => { n with stateId := some new })
      = g.mapNodes (Node.mapName (replaceName old new)) := by
  obtain ⟨i, hi, hcell⟩ := node?_eq_some_iff.1 hn
  rw [Graph.modify, hi]
  refine congrArg (fun arena => { g with nodeArena := arena })
    (Arena.modify_eq_map fun x hx => ?_)
  split
  next heq =>
    have hx := h.tidy.mem_entries_iff.1 hx
    obtain rfl := Option.some.inj (hcell.symm.trans (heq ▸ hx))
    rw [Node.mapName, if_pos hp, hid, Option.map_some, replaceName_self]
  next hne =>
    refine (Node.mapName_eq_self fun hpx name hname => replaceName_of_ne ?_ new).symm
    rintro rfl
    exact hne (Option.some.inj ((hunique x hx hpx hname).symm.trans hi))

end Graph

end Workflow
