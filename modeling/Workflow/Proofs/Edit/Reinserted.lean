import Workflow.Proofs.Edit.Represents

/-!
# Identifiers that are used again

Nobody asks whether the identifier of an inserted node is in use. When it is, it stands for the new
node from then on, but the table of identifiers still has it for the cell of the old one. So it is
false that an identifier names one node: the graph lists it once more with every insertion, and
removing it takes it off the list once. After that it is listed without being in the graph, and the
edges of the old node are listed without being found at their source
(`Linked.broken_of_contains`).

What is left is `Graph.Labelled`, with links that join cells in use (`Graph.Linked`). Every call keeps
it (`apply_linked`), so every node that is found is listed, and every edge that is found
(`session_lists`). If identifiers that are in use are not given to other nodes, everything listed is
found as well (`session_lists_once`).
-/

namespace Workflow

namespace Graph

/-- Identifiers stand for cells of their own, and links join cells in use. -/
structure Linked (g : Graph) : Prop extends g.Labelled where
  linksTidy : g.links.Tidy
  ends : ∀ x ∈ g.links.entries,
    (g.owner? x.2.source).isSome = true ∧ (g.owner? x.2.target).isSome = true

theorem linked_empty (metadata : Metadata) : (empty metadata).Linked where
  toLabelled := (consistent_empty metadata).labelled
  linksTidy := Arena.tidy_empty
  ends := nofun

namespace Linked

variable {g g' : Graph} {id : NodeId} {n : Node} {e : Edge}

theorem insert (h : g.Linked) (id : NodeId) (n : Node) : (g.insert id n).Linked where
  toLabelled := h.toLabelled.insert id n
  linksTidy := h.linksTidy
  ends x hx := by
    obtain ⟨hs, ht⟩ := h.ends x hx
    exact ⟨by rwa [h.owner?_insert_of_isSome id n hs], by rwa [h.owner?_insert_of_isSome id n ht]⟩

/-- A change to the links that keeps their ends among the cells in use. -/
theorem relink (h : g.Linked) {links : Arena Link} (htidy : links.Tidy)
    (hends : ∀ x ∈ links.entries,
      (g.owner? x.2.source).isSome = true ∧ (g.owner? x.2.target).isSome = true) :
    { g with links := links }.Linked :=
  ⟨⟨h.tidy, h.owned, h.own⟩, htidy, hends⟩

theorem addEdge (h : g.Linked) (he : g.addEdge e = .ok g') : g'.Linked := by
  obtain ⟨i, j, source, target, hi, hj, -, -, -, -, -, rfl⟩ := addEdge_eq_ok_iff.1 he
  refine h.relink (h.linksTidy.insert _) fun x hx => ?_
  rcases List.mem_cons.1 hx with rfl | hx
  · exact ⟨by rw [h.own _ _ hi]; rfl, by rw [h.own _ _ hj]; rfl⟩
  · exact h.ends x hx

theorem eraseEdge (h : g.Linked) (e : Edge) : ((g.eraseEdge? e).getD g).Linked := by
  unfold eraseEdge?
  cases g.linkOf? e with
  | none => exact h
  | some i =>
    refine h.relink (h.linksTidy.erase i) fun x hx => h.ends x ?_
    rw [Arena.entries_erase] at hx
    exact List.mem_of_mem_filter hx

theorem modify (h : g.Linked) (id : NodeId) (f : Node → Node) : (g.modify id f).Linked := by
  have hlabelled := h.toLabelled.modify id f
  unfold Graph.modify at hlabelled ⊢
  split at hlabelled
  next => exact ⟨hlabelled, h.linksTidy, h.ends⟩
  next => exact h

theorem resizeOutputs (h : g.Linked) (id : NodeId) (count : PortCount) :
    (g.resizeOutputs id count).1.Linked := by
  have hdrop : ∀ dropped : List Edge,
      (dropped.foldl (fun g e => (g.eraseEdge? e).getD g) g).Linked := fun dropped =>
    List.foldlRecOn dropped _ h fun g hg e _ => hg.eraseEdge e
  unfold Graph.resizeOutputs
  dsimp only
  split
  next => exact (hdrop _).modify id _
  next => exact hdrop _

/-- A node is removed with the links of its cell. -/
theorem erase (h : g.Linked) (id : NodeId) : (g.erase id).Linked := by
  cases hi : g.cell? id with
  | none => rwa [erase_of_cell?_eq_none hi]
  | some i =>
    have hleaving := h.linksTidy.erase_select (·.source = i)
    have harriving := hleaving.1.erase_select (·.target = i)
    have hlinks : (g.erase id).links = ((g.eraseLinksWhere (·.source = i)).eraseLinksWhere
        (·.target = i)).links := by rw [erase_eq hi]
    rw [eraseLinksWhere_eq, eraseLinksWhere_eq] at hlinks
    refine ⟨h.toLabelled.erase id, hlinks ▸ harriving.1, fun x hx => ?_⟩
    rw [hlinks, harriving.2, hleaving.2, List.filter_filter, List.mem_filter] at hx
    obtain ⟨hx, hne⟩ := hx
    simp only [Bool.and_eq_true, Bool.not_eq_true', decide_eq_false_iff_not] at hne
    obtain ⟨hs, ht⟩ := h.ends x hx
    rw [owner?_erase hi, owner?_erase hi, if_neg (Ne.symm hne.2), if_neg (Ne.symm hne.1)]
    exact ⟨hs, ht⟩

end Linked

/-! ### Nodes and edges in the lists -/

/-- The node in a cell with the identifier of the cell. -/
def labelled? (g : Graph) (x : Nat × Node) : Option (NodeId × Node) := (g.owner? x.1).map (·, x.2)

theorem nodes_perm (g : Graph) : g.nodes.Perm (g.nodeArena.entries.filterMap g.labelled?) :=
  g.nodeArena.listed_perm.filterMap _

namespace Labelled

variable {g : Graph} {id : NodeId} {n : Node} {e : Edge}

/-- An insertion lists one more node, whatever its identifier. -/
theorem nodes_insert (h : g.Labelled) (id : NodeId) (n : Node) :
    (g.insert id n).nodes.Perm ((id, n) :: g.nodes) := by
  have hkept : ∀ x ∈ g.nodeArena.entries, (g.insert id n).labelled? x = g.labelled? x := by
    intro x hx
    have hsome : (g.owner? x.1).isSome = true := by
      rw [← h.owned, h.tidy.mem_entries_iff.1 hx]
      rfl
    rw [labelled?, labelled?, h.owner?_insert_of_isSome id n hsome]
  have hnew : (g.insert id n).labelled? (g.nodeArena.nextCell, n) = some (id, n) := by
    rw [labelled?, owner?_insert, if_pos rfl]
    rfl
  have hlisted := (g.insert id n).nodes_perm
  rw [show (g.insert id n).nodeArena.entries = (g.nodeArena.nextCell, n) :: g.nodeArena.entries
    from rfl, List.filterMap_cons, hnew, List.filterMap_congr hkept] at hlisted
  exact hlisted.trans (g.nodes_perm.symm.cons _)

/-- A removal takes the node that is found off the list. -/
theorem nodes_erase (h : g.Labelled) (hn : g.node? id = some n) :
    g.nodes.Perm ((id, n) :: (g.erase id).nodes) := by
  obtain ⟨i, hi, hcell⟩ := node?_eq_some_iff.1 hn
  have hkept : ∀ x ∈ (g.nodeArena.erase i).entries, (g.erase id).labelled? x = g.labelled? x := by
    intro x hx
    rw [Arena.entries_erase] at hx
    have hne : x.1 ≠ i := of_decide_eq_true (List.mem_filter.1 hx).2
    rw [labelled?, labelled?, owner?_erase hi, if_neg (Ne.symm hne)]
  have hold : g.labelled? (i, n) = some (id, n) := by
    rw [labelled?, h.own id i hi]
    rfl
  have hentries := h.tidy.entries_perm_erase (h.tidy.mem_entries_iff.2 hcell)
  have hall := g.nodes_perm.trans (hentries.filterMap _)
  have hlisted := (g.erase id).nodes_perm
  rw [show (g.erase id).nodeArena = g.nodeArena.erase i by rw [erase_eq hi],
    List.filterMap_congr hkept] at hlisted
  rw [List.filterMap_cons, hold] at hall
  exact hall.trans (hlisted.symm.cons _)

/-- The edges that are found at a node leave it and are listed. -/
theorem mem_edges_of_outgoing (h : g.Labelled) (he : e ∈ g.outgoing id) :
    e.source = id ∧ e ∈ g.edges := by
  unfold outgoing at he
  split at he
  next i hi =>
    obtain ⟨x, hx, hedge⟩ := List.mem_filterMap.1 he
    obtain ⟨hx, hsource⟩ := List.mem_filter.1 (List.mem_reverse.1 hx)
    refine ⟨?_, List.mem_filterMap.2
      ⟨x.2, List.mem_map_of_mem (Arena.mem_listed.2 hx), hedge⟩⟩
    have howner := (edgeOf?_eq_some_iff.1 hedge).1
    rw [of_decide_eq_true hsource, h.own id i hi] at howner
    exact (Option.some.inj howner).symm
  next => cases he

end Labelled

namespace Linked

variable {g : Graph} {id : NodeId} {n : Node}

/-- A link stands for an edge. -/
theorem exists_edge (h : g.Linked) {x : Nat × Link} (hx : x ∈ g.links.entries) :
    ∃ e, g.edgeOf? x.2 = some e := by
  obtain ⟨hs, ht⟩ := h.ends x hx
  obtain ⟨source, hs⟩ := Option.isSome_iff_exists.1 hs
  obtain ⟨target, ht⟩ := Option.isSome_iff_exists.1 ht
  exact ⟨⟨source, x.2.output, target, x.2.input⟩, edgeOf?_eq_some_iff.2 ⟨hs, ht, rfl, rfl⟩⟩

/-- Where an identifier names one node, the edges are those that the links stand for. -/
theorem exists_holds (h : g.Linked) (hg : g.Consistent) : ∃ edges, g.Holds edges := by
  obtain ⟨edges, hedges⟩ := List.Forall₂.exists_of_forall_exists fun x hx => h.exists_edge hx
  exact ⟨edges.reverse, hg, h.linksTidy, by rwa [List.reverse_reverse]⟩

theorem length_edges (h : g.Linked) : g.edges.length = g.edgeCount := by
  have hends : ∀ l ∈ g.links.toList, (g.edgeOf? l).isSome = true := by
    intro l hl
    obtain ⟨x, hx, rfl⟩ := List.mem_map.1 hl
    exact Option.isSome_iff_exists.2 (h.exists_edge (Arena.mem_listed.1 hx))
  rw [edges, List.filterMap_length_eq_length.2 hends, Arena.toList, List.length_map,
    g.links.listed_perm.length_eq]
  rfl

/-! ### An identifier in use -/

/-- Edges stay listed when a node is inserted. -/
theorem edges_insert (h : g.Linked) (id : NodeId) (n : Node) : (g.insert id n).edges = g.edges := by
  refine List.filterMap_congr fun l hl => ?_
  obtain ⟨x, hx, rfl⟩ := List.mem_map.1 hl
  obtain ⟨hs, ht⟩ := h.ends x (Arena.mem_listed.1 hx)
  rw [edgeOf?, edgeOf?, h.owner?_insert_of_isSome id n hs, h.owner?_insert_of_isSome id n ht]

/-- No edge is found at a node that was just inserted. -/
theorem outgoing_insert_self (h : g.Linked) (id : NodeId) (n : Node) :
    (g.insert id n).outgoing id = [] := by
  have hcell : (g.insert id n).cell? id = some g.nodeArena.nextCell := by
    rw [cell?_insert, if_pos rfl]
  have hnone : g.links.entries.filter (fun x => x.2.source = g.nodeArena.nextCell) = [] := by
    refine List.filter_eq_nil_iff.2 fun x hx hsource => ?_
    have hs := (h.ends x hx).1
    rw [of_decide_eq_true hsource, h.owner?_nextCell] at hs
    cases hs
  rw [outgoing, hcell]
  show ((g.links.entries.filter fun x => x.2.source = g.nodeArena.nextCell).reverse).filterMap _ = []
  rw [hnone]
  rfl

/-- An insertion under an identifier in use breaks everything that an identifier is for: it is listed
twice, it stays listed when it is removed, and the edges of the old node are listed and not found. -/
theorem broken_of_contains (h : g.Linked) (hid : g.contains id = true) (n : Node) :
    ¬(g.insert id n).ids.Nodup ∧
      (id ∈ ((g.insert id n).erase id).ids ∧ ((g.insert id n).erase id).contains id = false) ∧
      ∀ e ∈ g.outgoing id,
        e ∈ (g.insert id n).edges ∧ e ∉ (g.insert id n).outgoing e.source := by
  obtain ⟨old, hold⟩ := h.contains_iff.1 hid
  have hids : id ∈ g.ids := List.mem_map_of_mem (h.mem_nodes hold)
  have hcell : (g.insert id n).cell? id = some g.nodeArena.nextCell := by
    rw [cell?_insert, if_pos rfl]
  have hinserted : (g.insert id n).ids.Perm (id :: g.ids) := (h.nodes_insert id n).map Prod.fst
  refine ⟨fun hnd => ?_, ⟨?_, ?_⟩, fun e he => ?_⟩
  · exact (List.nodup_cons.1 (hinserted.nodup_iff.1 hnd)).1 hids
  · -- One of the two entries is taken off the list.
    obtain ⟨m, hm⟩ := (h.insert id n).contains_iff.1 (by rw [contains, hcell]; rfl)
    have herased : (g.insert id n).ids.Perm (id :: ((g.insert id n).erase id).ids) :=
      ((h.insert id n).nodes_erase hm).map Prod.fst
    exact (hinserted.symm.trans herased).cons_inv.mem_iff.1 hids
  · rw [contains, cell?_erase hcell, if_pos rfl]
    rfl
  · obtain ⟨hsource, hlisted⟩ := h.mem_edges_of_outgoing he
    rw [h.edges_insert, hsource, h.outgoing_insert_self]
    exact ⟨hlisted, List.not_mem_nil⟩

end Linked

end Graph

/-! ### Sessions -/

namespace Edit

variable {T : Type} [NodeSpec T] {c : Catalog T} {g : Graph} {metadata : Metadata}

/-- Every call leaves cells in use with identifiers, whatever identifiers it gives to nodes. -/
theorem apply_linked (h : g.Linked) (e : Edit) : (e.apply c g).Linked := by
  have heffect := e.effect c g
  generalize e.apply c g = g' at heffect
  cases heffect with
  | unchanged => exact h
  | added | inserted => exact h.insert _ _
  | erased => exact h.erase _
  | edgeAdded hadd => exact h.addEdge hadd
  | connected hrest hadd =>
    rcases hrest with rfl | ⟨displaced, rfl⟩
    · exact h.addEdge hadd
    · exact (h.eraseEdge displaced).addEdge hadd
  | displaced => exact h.eraseEdge _
  | edgeErased => exact h.eraseEdge _
  | resized => exact h.resizeOutputs _ _
  | renamed | formSet | initializedSet => exact h.modify _ _

/-- So calls one after the other do. -/
theorem run_linked (h : g.Linked) (edits : List Edit) : (run c g edits).Linked :=
  List.foldlRecOn edits _ h fun _ hg e _ => apply_linked hg e

/-- So a session on an empty graph does. -/
theorem Session.linked {allowed : Graph → Edit → Prop}
    (h : Session c allowed (.empty metadata) g) : g.Linked :=
  Session.keeps (P := Graph.Linked) (fun _ e hg _ => apply_linked hg e) h (Graph.linked_empty _)

/-- After any calls, also those that give an identifier in use to another node, nodes and edges that
are found are listed, and as many are listed as there are. -/
theorem session_lists (h : Session c (fun _ _ => True) (.empty metadata) g) :
    (∀ id, g.contains id = true ↔ ∃ n, g.node? id = some n) ∧
      (∀ id n, g.node? id = some n → (id, n) ∈ g.nodes) ∧
      g.nodes.length = g.nodeCount ∧
      (∀ id, ∀ e ∈ g.outgoing id, e.source = id ∧ e ∈ g.edges) ∧
      g.edges.length = g.edgeCount := by
  have hg := Session.linked h
  exact ⟨fun _ => hg.contains_iff, fun _ _ => hg.mem_nodes, hg.length_nodes,
    fun _ _ => hg.mem_edges_of_outgoing, hg.length_edges⟩

/-- The second node is removed and the first one is not, but the identifier finds neither. -/
example :
    let n : Node := .ofType "noop" (NodeType.primitive .single) []
    let left := run .standard (.empty .empty)
      [.insert (.ofNat 1) n, .insert (.ofNat 1) n, .erase (.ofNat 1)]
    left.ids = [.ofNat 1] ∧ left.nodeCount = 1 ∧ left.contains (.ofNat 1) = false := by
  decide +kernel

/-- After calls that give new identifiers to new nodes an identifier names one node: it is listed
once, it is listed if it is in the graph and with the node that is found, and edges are found at
their source. -/
theorem session_lists_once (h : Session c Fresh (.empty metadata) g) :
    g.ids.Nodup ∧ (∀ id, id ∈ g.ids ↔ g.contains id = true) ∧
      (∀ id n, (id, n) ∈ g.nodes ↔ g.node? id = some n) ∧ g.nodes.length = g.nodeCount ∧
      ∀ e ∈ g.edges, e ∈ g.outgoing e.source := by
  obtain ⟨edges, hg⟩ := Session.sound h (Graph.sound_empty metadata)
  refine ⟨hg.consistent.nodup_ids, fun id => ?_, fun _ _ => hg.consistent.mem_nodes_iff,
    hg.consistent.length_nodes, fun e he => hg.mem_outgoing (hg.edges_perm.mem_iff.1 he)⟩
  rw [hg.consistent.contains_iff, Graph.ids, List.mem_map]
  constructor
  · rintro ⟨⟨_, n⟩, hn, rfl⟩
    exact ⟨n, hg.consistent.mem_nodes_iff.1 hn⟩
  · rintro ⟨n, hn⟩
    exact ⟨(id, n), hg.consistent.mem_nodes_iff.2 hn, rfl⟩

end Edit

end Workflow
