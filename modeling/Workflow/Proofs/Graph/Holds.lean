import Workflow.Proofs.Graph.Consistent
import Workflow.Proofs.Lists

/-!
# Graphs as nodes and edges by age

`Graph.Holds` describes a graph by the list of its edges, the oldest first, whatever cells they are
in. The edges that leave a node, that arrive at it or that leave one of its outputs are the ones of
this list (`Holds.outgoing_eq`, `Holds.incoming_eq`, `Holds.edgeOn?_eq`), and for every operation
there is the list and there are the nodes that it leaves: `Holds.insert`, `Holds.modify`,
`Holds.addEdge`, `Holds.eraseEdge`, `Holds.erase`, `Holds.resizeOutputs`.
-/

namespace Workflow.Graph

/-- The ends of the edge that a link stands for are in the cells of the link. -/
theorem edgeOf?_eq_some_iff {g : Graph} {l : Link} {e : Edge} :
    g.edgeOf? l = some e ↔ g.owner? l.source = some e.source ∧ g.owner? l.target = some e.target ∧
      l.output = e.output ∧ l.input = e.input := by
  simp only [edgeOf?, Option.bind_eq_bind, Option.bind_eq_some_iff, Option.pure_def,
    Option.some.injEq]
  constructor
  · rintro ⟨source, hs, target, ht, rfl⟩
    exact ⟨hs, ht, rfl, rfl⟩
  · rintro ⟨hs, ht, ho, hi⟩
    refine ⟨e.source, hs, e.target, ht, ?_⟩
    rw [ho, hi]

/-- The graph has these edges, the oldest first. -/
structure Holds (g : Graph) (edges : List Edge) : Prop where
  consistent : g.Consistent
  tidy : g.links.Tidy
  linked : List.Forall₂ (fun x e => g.edgeOf? x.2 = some e) g.links.entries edges.reverse

theorem holds_empty (metadata : Metadata) : (empty metadata).Holds [] where
  consistent := consistent_empty metadata
  tidy := Arena.tidy_empty
  linked := .nil

/-! ### Nodes after a change -/

namespace Consistent

variable {g : Graph}

/-- A cell belongs to the identifier that stands for it, and to no other. -/
theorem cell_eq_iff (h : g.Consistent) {id other : NodeId} {i j : Nat}
    (hi : g.cell? id = some i) (hj : g.owner? j = some other) : j = i ↔ other = id := by
  constructor
  · rintro rfl
    exact Option.some.inj (hj.symm.trans ((h.cell_iff id j).1 hi))
  · rintro rfl
    exact Option.some.inj (((h.cell_iff other j).2 hj).symm.trans hi)

theorem contains_iff (h : g.Consistent) {id : NodeId} :
    g.contains id = true ↔ ∃ n, g.node? id = some n :=
  h.labelled.contains_iff

theorem node?_insert (h : g.Consistent) (id other : NodeId) (n : Node) :
    (g.insert id n).node? other = if id = other then some n else g.node? other := by
  show ((g.insert id n).cell? other).bind (g.nodeArena.insert n).get? = _
  rw [cell?_insert]
  split
  · rw [Option.bind_some, Arena.get?_insert, if_pos rfl]
  · rw [node?]
    cases hi : g.cell? other with
    | none => rfl
    | some i =>
      obtain ⟨m, hm⟩ := h.exists_node hi
      have hne : g.nodeArena.nextCell ≠ i := by
        rintro rfl
        rw [h.tidy.get?_nextCell] at hm
        cases hm
      show (g.nodeArena.insert n).get? i = g.nodeArena.get? i
      rw [Arena.get?_insert, if_neg hne]

theorem node?_modify (h : g.Consistent) (id other : NodeId) (f : Node → Node) :
    (g.modify id f).node? other =
      if id = other then (g.node? other).map f else g.node? other := by
  unfold Graph.modify
  cases hi : g.cell? id with
  | none =>
    by_cases he : id = other
    · rw [if_pos he, node?, ← he, hi]
      rfl
    · rw [if_neg he]
  | some i =>
    show (g.cell? other).bind (g.nodeArena.modify i f).get? = _
    rw [node?]
    cases hj : g.cell? other with
    | none => simp
    | some j =>
      show (g.nodeArena.modify i f).get? j = _
      rw [Arena.get?_modify]
      have hij : i = j ↔ id = other := h.cell_eq_iff hj ((h.cell_iff id i).1 hi)
      simp only [hij]
      rfl

theorem node?_erase (h : g.Consistent) (id other : NodeId) :
    (g.erase id).node? other = if id = other then none else g.node? other := by
  cases hi : g.cell? id with
  | none =>
    rw [erase_of_cell?_eq_none hi]
    split
    next he => rw [node?, ← he, hi]; rfl
    next => rfl
  | some i =>
    have harena : (g.erase id).nodeArena = g.nodeArena.erase i := by rw [erase_eq hi]
    show ((g.erase id).cell? other).bind (g.erase id).nodeArena.get? = _
    rw [cell?_erase hi, harena]
    split
    next => rfl
    next ho =>
      rw [node?]
      cases hj : g.cell? other with
      | none => rfl
      | some j =>
        have hij : i ≠ j := fun hij => ho ((h.cell_eq_iff hj ((h.cell_iff id i).1 hi)).1 hij)
        exact Arena.get?_erase_of_ne _ hij

end Consistent

/-! ### What a change leaves alone -/

theorem addEdge_eq {g g' : Graph} {e : Edge} (he : g.addEdge e = .ok g') :
    ∃ links, g' = { g with links := links } := by
  obtain ⟨i, j, -, -, -, -, -, -, -, -, -, rfl⟩ := addEdge_eq_ok_iff.1 he
  exact ⟨_, rfl⟩

theorem eraseEdge?_eq (g : Graph) (e : Edge) :
    ∃ links, (g.eraseEdge? e).getD g = { g with links := links } := by
  unfold eraseEdge?
  cases g.linkOf? e with
  | none => exact ⟨g.links, rfl⟩
  | some i => exact ⟨g.links.erase i, rfl⟩

theorem node?_addEdge {g g' : Graph} {e : Edge} (he : g.addEdge e = .ok g') (id : NodeId) :
    g'.node? id = g.node? id := by
  obtain ⟨links, rfl⟩ := addEdge_eq he
  rfl

theorem node?_eraseEdge (g : Graph) (e : Edge) (id : NodeId) :
    ((g.eraseEdge? e).getD g).node? id = g.node? id := by
  obtain ⟨links, hg'⟩ := g.eraseEdge?_eq e
  rw [hg']
  rfl

theorem resizeOutputs_of_not_contains {g : Graph} {id : NodeId} (hid : g.contains id = false)
    (count : PortCount) : g.resizeOutputs id count = (g, .error (.nodeNotFound id)) := by
  have hcell : g.cell? id = none := by simpa [contains] using hid
  have hdropped : g.outgoing id = [] := by simp only [outgoing, hcell]
  simp [resizeOutputs, hdropped, hid]

/-! ### Edges by age -/

/-- Keeps the edges without the newest one that equals `e`. -/
def withoutNewest (e : Edge) (edges : List Edge) : List Edge := (edges.reverse.erase e).reverse

theorem withoutNewest_sublist (e : Edge) (edges : List Edge) :
    (withoutNewest e edges).Sublist edges := by
  have hsub := (List.erase_sublist (a := e) (l := edges.reverse)).reverse
  rwa [List.reverse_reverse] at hsub

namespace Holds

variable {g : Graph} {edges : List Edge}

/-- Links that are selected by their cells stand for edges that are selected by their ends. -/
theorem select_links (h : g.Holds edges) {p : Link → Bool} {q : Edge → Bool}
    (hpq : ∀ l e, g.edgeOf? l = some e → p l = q e) :
    (g.links.select p).filterMap (fun x => g.edgeOf? x.2) = edges.filter q := by
  have hfilter : List.Forall₂ (fun x e => g.edgeOf? x.2 = some e)
      (g.links.entries.filter fun x => p x.2) (edges.reverse.filter q) :=
    h.linked.filter fun x _ e hx => hpq x.2 e hx
  rw [Arena.select, List.filterMap_reverse, hfilter.filterMap_eq, List.filter_reverse,
    List.reverse_reverse]

/-- Every link stands for one of the edges. -/
theorem exists_edge (h : g.Holds edges) {x : Nat × Link} (hx : x ∈ g.links.entries) :
    ∃ e ∈ edges, g.edgeOf? x.2 = some e := by
  obtain ⟨e, he, hxe⟩ := h.linked.exists_of_mem_left hx
  exact ⟨e, List.mem_reverse.1 he, hxe⟩

/-- Every edge has a link. -/
theorem exists_link (h : g.Holds edges) {e : Edge} (he : e ∈ edges) :
    ∃ x ∈ g.links.entries, g.edgeOf? x.2 = some e :=
  h.linked.exists_of_mem_right (List.mem_reverse.2 he)

/-- Both ends of an edge are nodes. -/
theorem exists_ends (h : g.Holds edges) {e : Edge} (he : e ∈ edges) :
    ∃ source target, g.node? e.source = some source ∧ g.node? e.target = some target := by
  obtain ⟨x, -, hx⟩ := h.exists_link he
  obtain ⟨hs, ht, -, -⟩ := edgeOf?_eq_some_iff.1 hx
  rw [← h.consistent.cell_iff] at hs ht
  obtain ⟨source, hsource⟩ := h.consistent.exists_node hs
  obtain ⟨target, htarget⟩ := h.consistent.exists_node ht
  exact ⟨source, target, node?_eq_some_iff.2 ⟨_, hs, hsource⟩,
    node?_eq_some_iff.2 ⟨_, ht, htarget⟩⟩

/-- No edge touches an identifier without a node. -/
theorem ne_of_not_contains (h : g.Holds edges) {id : NodeId} (hid : g.contains id = false)
    {e : Edge} (he : e ∈ edges) : e.source ≠ id ∧ e.target ≠ id := by
  obtain ⟨source, target, hs, ht⟩ := h.exists_ends he
  refine ⟨?_, ?_⟩
  · rintro rfl
    cases (h.consistent.contains_iff.2 ⟨source, hs⟩).symm.trans hid
  · rintro rfl
    cases (h.consistent.contains_iff.2 ⟨target, ht⟩).symm.trans hid

theorem outgoing_eq (h : g.Holds edges) (id : NodeId) :
    g.outgoing id = edges.filter (·.source = id) := by
  unfold outgoing
  cases hi : g.cell? id with
  | none =>
    symm
    rw [List.filter_eq_nil_iff]
    intro e he heq
    obtain ⟨source, -, hs, -⟩ := h.exists_ends he
    rw [of_decide_eq_true heq, node?, hi] at hs
    cases hs
  | some i =>
    refine h.select_links fun l e hle => ?_
    obtain ⟨hs, -, -, -⟩ := edgeOf?_eq_some_iff.1 hle
    simp only [h.consistent.cell_eq_iff hi hs]

theorem mem_outgoing (h : g.Holds edges) {e : Edge} (he : e ∈ edges) : e ∈ g.outgoing e.source := by
  rw [h.outgoing_eq]
  exact List.mem_filter.2 ⟨he, by simp⟩

theorem incoming_eq (h : g.Holds edges) (id : NodeId) :
    g.incoming id = edges.filter (·.target = id) := by
  unfold incoming
  cases hi : g.cell? id with
  | none =>
    symm
    rw [List.filter_eq_nil_iff]
    intro e he heq
    obtain ⟨-, target, -, ht⟩ := h.exists_ends he
    rw [of_decide_eq_true heq, node?, hi] at ht
    cases ht
  | some i =>
    refine h.select_links fun l e hle => ?_
    obtain ⟨-, ht, -, -⟩ := edgeOf?_eq_some_iff.1 hle
    simp only [h.consistent.cell_eq_iff hi ht]

theorem edgeOn?_eq (h : g.Holds edges) (id : NodeId) (p : Port) :
    g.edgeOn? id p = edges.find? fun e => e.source = id && e.output = p := by
  unfold edgeOn?
  cases hi : g.cell? id with
  | none =>
    symm
    rw [Option.bind_eq_bind, Option.bind_none, List.find?_eq_none]
    intro e he heq
    obtain ⟨source, -, hs, -⟩ := h.exists_ends he
    rw [Bool.and_eq_true] at heq
    rw [of_decide_eq_true heq.1, node?, hi] at hs
    cases hs
  | some i =>
    have hselect := h.select_links (p := fun l => l.source = i && l.output = p)
      (q := fun e => e.source = id && e.output = p) fun l e hle => by
        obtain ⟨hs, -, ho, -⟩ := edgeOf?_eq_some_iff.1 hle
        simp only [h.consistent.cell_eq_iff hi hs, ho]
    rw [← List.head?_filter, ← hselect, Option.bind_eq_bind, Option.bind_some]
    cases hl : g.links.select fun l => decide (l.source = i) && decide (l.output = p) with
    | nil => rfl
    | cons x rest =>
      have hx : x ∈ g.links.entries := by
        have hmem : x ∈ g.links.select fun l => l.source = i && l.output = p := by
          rw [hl]
          exact List.mem_cons_self
        exact List.mem_of_mem_filter (List.mem_reverse.1 hmem)
      obtain ⟨e, -, he⟩ := h.exists_edge hx
      rw [List.filterMap_cons, he]
      exact he

/-- Those of the edges that leave a node which satisfy `p`. -/
theorem filter_outgoing (h : g.Holds edges) (id : NodeId) (p : Edge → Bool) :
    (g.outgoing id).filter p = edges.filter fun e => e.source = id && p e := by
  rw [h.outgoing_eq, List.filter_filter]
  exact List.filter_congr fun e _ => Bool.and_comm ..

/-- The edge on an output is the oldest of those behind it. -/
theorem edgeOn?_eq_head? (h : g.Holds edges) (id : NodeId) (p : Port) :
    g.edgeOn? id p = ((g.outgoing id).filter (·.output = p)).head? := by
  rw [h.edgeOn?_eq, h.filter_outgoing, List.head?_filter]

/-- The edges by cell are the edges by age in another order. -/
theorem edges_perm (h : g.Holds edges) : g.edges.Perm edges := by
  have hlisted : g.edges.Perm (g.links.entries.filterMap fun x => g.edgeOf? x.2) := by
    rw [Graph.edges, Arena.toList, List.filterMap_map]
    exact g.links.listed_perm.filterMap _
  rw [h.linked.filterMap_eq] at hlisted
  exact hlisted.trans edges.reverse_perm

theorem edgeCount_eq (h : g.Holds edges) : g.edgeCount = edges.length :=
  h.linked.length_eq.trans List.length_reverse

/-! ### Edges after a change -/

theorem insert (h : g.Holds edges) {id : NodeId} (hid : g.contains id = false) (n : Node) :
    (g.insert id n).Holds edges where
  consistent := h.consistent.insert hid n
  tidy := h.tidy
  linked := by
    have hkeep : ∀ i other, g.owner? i = some other → (g.insert id n).owner? i = some other := by
      intro i other ho
      rw [h.consistent.labelled.owner?_insert_of_isSome id n (by rw [ho]; rfl), ho]
    refine h.linked.imp fun x e hx => ?_
    obtain ⟨hs, ht, ho, hi⟩ := edgeOf?_eq_some_iff.1 hx
    exact edgeOf?_eq_some_iff.2 ⟨hkeep _ _ hs, hkeep _ _ ht, ho, hi⟩

theorem modify (h : g.Holds edges) (id : NodeId) (f : Node → Node) :
    (g.modify id f).Holds edges := by
  have hconsistent := h.consistent.modify id f
  cases hi : g.cell? id with
  | none => rwa [show g.modify id f = g by simp only [Graph.modify, hi]]
  | some i =>
    have heq : g.modify id f = { g with nodeArena := g.nodeArena.modify i f } := by
      simp only [Graph.modify, hi]
    rw [heq] at hconsistent ⊢
    exact ⟨hconsistent, h.tidy, h.linked⟩

theorem addEdge (h : g.Holds edges) {e : Edge} {g' : Graph} (he : g.addEdge e = .ok g') :
    g'.Holds (edges ++ [e]) := by
  obtain ⟨i, j, source, target, hi, hj, -, -, -, -, -, rfl⟩ := addEdge_eq_ok_iff.1 he
  refine ⟨h.consistent.congr rfl rfl rfl, h.tidy.insert _, ?_⟩
  rw [List.reverse_append]
  exact .cons (edgeOf?_eq_some_iff.2 ⟨(h.consistent.cell_iff _ _).1 hi,
    (h.consistent.cell_iff _ _).1 hj, rfl, rfl⟩) h.linked

/-- The newest link for an edge. -/
theorem linkOf?_eq (h : g.Holds edges) (e : Edge) :
    g.linkOf? e = (g.links.entries.find? fun x => g.edgeOf? x.2 = some e).map Prod.fst := by
  have hlink : ∀ l, g.edgeOf? l = some e ↔ g.cell? e.source = some l.source ∧
      g.cell? e.target = some l.target ∧ l.output = e.output ∧ l.input = e.input := fun l => by
    rw [edgeOf?_eq_some_iff, h.consistent.cell_iff, h.consistent.cell_iff]
  have hnone : (∀ l, ¬g.edgeOf? l = some e) →
      none = (g.links.entries.find? fun x => g.edgeOf? x.2 = some e).map Prod.fst := fun hl => by
    rw [List.find?_eq_none.2 fun x _ => by simpa using hl x.2]
    rfl
  unfold linkOf?
  cases hi : g.cell? e.source with
  | none => exact hnone fun l => by simp [hlink, hi]
  | some i =>
    cases hj : g.cell? e.target with
    | none => exact hnone fun l => by simp [hlink, hj]
    | some j =>
      have hfind : ∀ x : Nat × Link,
          decide (x.2 = ⟨i, e.output, j, e.input⟩) = decide (g.edgeOf? x.2 = some e) := by
        intro x
        rw [decide_eq_decide, hlink, hi, hj]
        rcases x with ⟨_, ⟨_, _, _, _⟩⟩
        simp [eq_comm, and_left_comm]
      simp only [Option.bind_eq_bind, Option.bind_some, Arena.select, List.getLast?_reverse,
        List.head?_filter, hfind]
      exact (Option.map_eq_bind ..).symm

/-- Removing the newest link for an edge leaves the other edges. -/
theorem eraseEdge (h : g.Holds edges) (e : Edge) :
    ((g.eraseEdge? e).getD g).Holds (withoutNewest e edges) := by
  have herased := h.linked.eraseP_erase e
  rw [eraseEdge?, h.linkOf?_eq]
  cases hx : g.links.entries.find? fun x => g.edgeOf? x.2 = some e with
  | none =>
    have hmem : e ∉ edges.reverse := fun he => by
      obtain ⟨x, hx', hxe⟩ := h.linked.exists_of_mem_right he
      exact List.find?_eq_none.1 hx x hx' (decide_eq_true hxe)
    rw [withoutNewest, List.erase_of_not_mem hmem, List.reverse_reverse]
    exact h
  | some x =>
    refine ⟨h.consistent.congr rfl rfl rfl, h.tidy.erase x.1, ?_⟩
    show List.Forall₂ _ (g.links.erase x.1).entries _
    rw [h.tidy.entries_erase_first hx, withoutNewest, List.reverse_reverse]
    exact herased

/-- Removing a node removes the edges that touch it. -/
theorem erase (h : g.Holds edges) (id : NodeId) :
    (g.erase id).Holds (edges.filter fun e => e.source ≠ id && e.target ≠ id) := by
  cases hi : g.cell? id with
  | none =>
    have hall : edges.filter (fun e => e.source ≠ id && e.target ≠ id) = edges := by
      rw [List.filter_eq_self]
      intro e he
      obtain ⟨hsource, htarget⟩ := h.ne_of_not_contains (by rw [contains, hi]; rfl) he
      simp [hsource, htarget]
    rwa [hall, erase_of_cell?_eq_none hi]
  | some i =>
    have hleaving := h.tidy.erase_select (·.source = i)
    have harriving := hleaving.1.erase_select (·.target = i)
    have hconsistent := h.consistent.erase id
    rw [erase_eq hi, eraseLinksWhere_eq, eraseLinksWhere_eq] at hconsistent ⊢
    refine ⟨hconsistent, harriving.1, ?_⟩
    rw [harriving.2, hleaving.2, List.filter_filter, ← List.filter_reverse]
    have hkept : List.Forall₂ (fun x e => g.edgeOf? x.2 = some e)
        (g.links.entries.filter fun x => !decide (x.2.target = i) && !decide (x.2.source = i))
        (edges.reverse.filter fun e => e.source ≠ id && e.target ≠ id) := by
      refine h.linked.filter fun x _ e hx => ?_
      obtain ⟨hs, ht, -, -⟩ := edgeOf?_eq_some_iff.1 hx
      simp [h.consistent.cell_eq_iff hi hs, h.consistent.cell_eq_iff hi ht, Bool.and_comm]
    -- A link that is kept touches other cells only, and their owners are the same as before.
    refine hkept.imp_mem fun x hx e hxe => ?_
    obtain ⟨hs, ht, ho, hin⟩ := edgeOf?_eq_some_iff.1 hxe
    have hne : i ≠ x.2.source ∧ i ≠ x.2.target := by
      have hx := (List.mem_filter.1 hx).2
      simp only [Bool.and_eq_true, Bool.not_eq_true', decide_eq_false_iff_not] at hx
      exact ⟨Ne.symm hx.2, Ne.symm hx.1⟩
    have hkeep : ∀ j, i ≠ j →
        ((g.owners.filter (·.1 ≠ i)).find? (·.1 = j)).map Prod.snd = g.owner? j := by
      intro j hj
      rw [find?_filter_ne, if_neg hj]
      rfl
    exact edgeOf?_eq_some_iff.2
      ⟨(hkeep _ hne.1).trans hs, (hkeep _ hne.2).trans ht, ho, hin⟩

theorem foldl_eraseEdge (h : g.Holds edges) (dropped : List Edge) :
    ∃ links, dropped.foldl (fun g e => (g.eraseEdge? e).getD g) g = { g with links := links } ∧
      { g with links := links }.Holds (edges.reverse.diff dropped).reverse := by
  induction dropped generalizing g edges with
  | nil => exact ⟨g.links, rfl, by rwa [List.diff_nil, List.reverse_reverse]⟩
  | cons e dropped ih =>
    obtain ⟨links, hfold, hlinks⟩ := ih (h.eraseEdge e)
    obtain ⟨rest, hrest⟩ := g.eraseEdge?_eq e
    rw [hrest] at hfold hlinks
    refine ⟨links, ?_, ?_⟩
    · rw [List.foldl_cons, hrest, hfold]
    · rwa [withoutNewest, List.reverse_reverse, ← List.diff_cons] at hlinks

/-- Changing the number of outputs of a node drops the edges that leave the outputs it loses. -/
theorem resizeOutputs_eq (h : g.Holds edges) {id : NodeId} (hid : g.contains id = true)
    (count : PortCount) :
    ∃ links, g.resizeOutputs id count =
        ({ g with links := links }.modify id fun n => { n with outputs := count },
          .ok (edges.filter fun e => e.source = id && !e.output.isWithin count)) ∧
      { g with links := links }.Holds
        (edges.filter fun e => !(decide (e.source = id) && !e.output.isWithin count)) := by
  have hdropped : (g.outgoing id).filter (fun e => !e.output.isWithin count)
      = edges.filter fun e => e.source = id && !e.output.isWithin count :=
    h.filter_outgoing id _
  obtain ⟨links, hfold, hlinks⟩ :=
    h.foldl_eraseEdge (edges.filter fun e => e.source = id && !e.output.isWithin count)
  refine ⟨links, ?_, ?_⟩
  · have hcontains : { g with links := links }.contains id = true := hid
    simp only [Graph.resizeOutputs, hdropped, hfold, hcontains, if_true]
  · have hperm := edges.reverse_perm.symm.filter
      fun e => decide (e.source = id) && !e.output.isWithin count
    rwa [List.diff_eq_filter_not hperm, List.filter_reverse, List.reverse_reverse] at hlinks

theorem resizeOutputs (h : g.Holds edges) {id : NodeId} (hid : g.contains id = true)
    (count : PortCount) :
    (g.resizeOutputs id count).1.Holds
      (edges.filter fun e => !(decide (e.source = id) && !e.output.isWithin count)) := by
  obtain ⟨links, heq, hlinks⟩ := h.resizeOutputs_eq hid count
  rw [heq]
  exact hlinks.modify id _

theorem node?_resizeOutputs (h : g.Holds edges) {id : NodeId} (hid : g.contains id = true)
    (count : PortCount) (other : NodeId) :
    (g.resizeOutputs id count).1.node? other =
      if id = other then (g.node? other).map fun n => { n with outputs := count }
      else g.node? other := by
  obtain ⟨links, heq, hlinks⟩ := h.resizeOutputs_eq hid count
  rw [heq]
  exact hlinks.consistent.node?_modify id other _

end Holds

end Workflow.Graph
