import Workflow.Proofs.Graph.Connect
import Workflow.Proofs.Graph.Sound

/-!
# Connections do what was decided

`Graph.check` decides about an edge and leaves the graph alone; `Graph.connect` carries the decision
out. It removes the edge that has to give way, and then adds the new one, which is checked a second
time. `connect_fails_iff` says what can come between the two in any graph: the output is still not
free after an edge was removed.

In a sound graph nothing comes between them. Connecting an edge fails exactly when the decision about
it does, and else the edges are those that the verdict announces (`Sound.connect_exact`). Graphs in
which an identifier was given to a second node are not sound: the edges of the first node are listed
under the identifier and are not found by it, so an edge cannot give way or is added twice
(`connect_reinserted`).
-/

namespace Workflow

/-- What the edges of a graph become, in whatever order, when a verdict on `e` is carried out. -/
def Verdict.Turns (e : Edge) (edges edges' : List Edge) : Verdict → Prop
  | accept => e ∉ edges ∧ edges'.Perm (e :: edges)
  | replace displaced =>
    e ∉ edges ∧ edges.filter (fun f => f.source = e.source && f.output = e.output) = [displaced] ∧
      edges'.Perm (e :: edges.erase displaced)
  | unchanged => e ∈ edges ∧ edges' = edges
  | reject _ => e ∉ edges ∧ edges' = edges

namespace Verdict.Turns

variable {e : Edge} {edges edges' : List Edge} {v : Verdict}

/-- The edge is there exactly when the verdict says so. -/
theorem mem_iff (h : v.Turns e edges edges') : e ∈ edges' ↔ v.isApplied = true := by
  cases v with
  | accept => exact iff_of_true (h.2.mem_iff.2 List.mem_cons_self) rfl
  | replace displaced => exact iff_of_true (h.2.2.mem_iff.2 List.mem_cons_self) rfl
  | unchanged => exact iff_of_true (h.2 ▸ h.1) rfl
  | reject reason => exact iff_of_false (h.2 ▸ h.1) nofun

/-- No edge is there more often than before, but for the new one, which is there once. -/
theorem count_le (h : v.Turns e edges edges') (f : Edge) :
    edges'.count f ≤ max 1 (edges.count f) := by
  have hadded : ∀ kept : List Edge, kept.Sublist edges → e ∉ edges →
      (e :: kept).count f ≤ max 1 (edges.count f) := by
    intro kept hkept hnew
    by_cases hf : e = f
    · have hnone : kept.count f = 0 := List.count_eq_zero.2 fun hmem => hnew (hf ▸ hkept.subset hmem)
      rw [hf, List.count_cons_self, hnone]
      exact Nat.le_max_left _ _
    · rw [List.count_cons_of_ne hf]
      exact Nat.le_trans (hkept.count_le f) (Nat.le_max_right _ _)
  cases v with
  | accept => exact (h.2.count_eq f).le.trans (hadded edges (.refl _) h.1)
  | replace displaced => exact (h.2.2.count_eq f).le.trans (hadded _ List.erase_sublist h.1)
  | unchanged => exact h.2 ▸ Nat.le_max_right _ _
  | reject reason => exact h.2 ▸ Nat.le_max_right _ _

end Verdict.Turns

namespace Graph

variable {T : Type} [NodeSpec T] {c : Catalog T} {g g' : Graph} {e : Edge} {v : Verdict}

/-! ### Decisions -/

/-- Why a verdict was given on an edge between two nodes. -/
inductive Decides (c : Catalog T) (g : Graph) (e : Edge) (source target : Node) : Verdict → Prop
  | accept (hnew : g.containsEdge e = false)
      (hallowed : refusal? c source target e.output = .ok none)
      (hfree : source.allowsFanOut e.output = true ∨ g.edgeOn? e.source e.output = none) :
      Decides c g e source target .accept
  | replace {displaced : Edge} (hnew : g.containsEdge e = false)
      (hallowed : refusal? c source target e.output = .ok none)
      (hone : source.allowsFanOut e.output = false)
      (hon : g.edgeOn? e.source e.output = some displaced) :
      Decides c g e source target (.replace displaced)
  | unchanged (hold : g.containsEdge e = true) : Decides c g e source target .unchanged
  | reject {reason : Refusal} (hnew : g.containsEdge e = false)
      (hrefused : refusal? c source target e.output = .ok (some reason)) :
      Decides c g e source target (.reject reason)

/-- A decision is about an edge between ports of two nodes. -/
theorem decides_of_check (h : g.check c e = .ok v) :
    ∃ source target, g.node? e.source = some source ∧ g.node? e.target = some target ∧
      e.output.isWithin source.outputs = true ∧ e.input.isWithin target.inputs = true ∧
      Decides c g e source target v := by
  obtain ⟨source, target, hs, ht, ho, hi, hv⟩ := check_eq_ok_iff.1 h
  refine ⟨source, target, hs, ht, ho, hi, ?_⟩
  cases hnew : g.containsEdge e with
  | true =>
    rw [hnew, if_pos rfl] at hv
    exact hv ▸ .unchanged hnew
  | false =>
    rw [hnew, if_neg nofun] at hv
    obtain ⟨_ | reason, hr, rfl⟩ := hv
    · show Decides c g e source target (g.placement source e)
      unfold placement
      split
      next hfan => exact .accept hnew hr (.inl hfan)
      next hone =>
        split
        next displaced hon => exact .replace hnew hr (Bool.eq_false_iff.2 hone) hon
        next hnone => exact .accept hnew hr (.inr hnone)
    · exact .reject hnew hr

/-- An edge between ports of two nodes can be added when its output is free or takes more than one
edge. -/
theorem exists_addEdge_iff {source target : Node} (hs : g.node? e.source = some source)
    (ht : g.node? e.target = some target) (ho : e.output.isWithin source.outputs = true)
    (hi : e.input.isWithin target.inputs = true) :
    (∃ g', g.addEdge e = .ok g') ↔
      source.allowsFanOut e.output = true ∨ g.edgeOn? e.source e.output = none := by
  constructor
  · rintro ⟨g', he⟩
    obtain ⟨-, -, source', -, -, -, hs', -, -, -, hfree, -⟩ := addEdge_eq_ok_iff.1 he
    cases hs.symm.trans hs'
    exact hfree
  · intro hfree
    obtain ⟨i, hsource, -⟩ := node?_eq_some_iff.1 hs
    obtain ⟨j, htarget, -⟩ := node?_eq_some_iff.1 ht
    exact ⟨_, addEdge_eq_ok_iff.2
      ⟨i, j, source, target, hsource, htarget, hs, ht, ho, hi, hfree, rfl⟩⟩

theorem connect_of_error {reason : Error} (h : g.check c e = .error reason) :
    g.connect c e = (g, .error reason) := by
  rw [connect, h]

theorem connect_of_accept (h : g.check c e = .ok .accept) (he : g.addEdge e = .ok g') :
    g.connect c e = (g', .ok .accept) := by
  simp only [connect, h, adopt, he]

theorem connect_of_replace {displaced : Edge} (h : g.check c e = .ok (.replace displaced)) :
    g.connect c e = ((g.eraseEdge? displaced).getD g).adopt e (.replace displaced) := by
  rw [connect, h]

theorem adopt_of_ok (he : g.addEdge e = .ok g') (v : Verdict) : g.adopt e v = (g', .ok v) := by
  rw [adopt, he]

theorem fails_adopt_iff (g : Graph) (e : Edge) (v : Verdict) :
    (∃ reason, (g.adopt e v).2 = .error reason) ↔ ¬∃ g', g.addEdge e = .ok g' := by
  unfold adopt
  cases g.addEdge e with
  | ok g' => exact iff_of_false (by simp) fun h => h ⟨g', rfl⟩
  | error reason => exact iff_of_true ⟨reason, rfl⟩ nofun

/-- In whatever state a graph is, an edge on which a verdict was given is connected unless it has to
take the place of another one and its output is not free without that one. -/
theorem connect_fails_iff (c : Catalog T) (g : Graph) (e : Edge) :
    (∃ reason, (g.connect c e).2 = .error reason) ↔
      (∃ reason, g.check c e = .error reason) ∨
        ∃ displaced, g.check c e = .ok (.replace displaced) ∧
          ((g.eraseEdge? displaced).getD g).edgeOn? e.source e.output ≠ none := by
  cases hcheck : g.check c e with
  | error reason =>
    rw [connect_of_error hcheck]
    exact iff_of_true ⟨reason, rfl⟩ (.inl ⟨reason, rfl⟩)
  | ok v =>
    obtain ⟨source, target, hs, ht, ho, hi, hv⟩ := decides_of_check hcheck
    cases hv with
    | accept hnew hallowed hfree =>
      obtain ⟨g', he⟩ := (exists_addEdge_iff hs ht ho hi).2 hfree
      rw [connect_of_accept hcheck he]
      exact iff_of_false (by simp) (by simp)
    | @replace displaced hnew hallowed hone hon =>
      rw [connect_of_replace hcheck, fails_adopt_iff,
        exists_addEdge_iff ((node?_eraseEdge g displaced _).trans hs)
          ((node?_eraseEdge g displaced _).trans ht) ho hi]
      simp [hone]
    | unchanged hold =>
      rw [connect, hcheck]
      exact iff_of_false (by simp) (by simp)
    | reject hnew hrefused =>
      rw [connect, hcheck]
      exact iff_of_false (by simp) (by simp)

/-! ### Sound graphs -/

/-- An edge is the newest of those equal to it, and the others are what is left without it. -/
theorem perm_cons_withoutNewest {edges : List Edge} (he : e ∈ edges) :
    edges.Perm (e :: withoutNewest e edges) := by
  have hreverse := List.perm_cons_erase (List.mem_reverse.2 he)
  exact edges.reverse_perm.symm.trans (hreverse.trans ((List.reverse_perm _).symm.cons e))

theorem Holds.containsEdge_iff {edges : List Edge} (h : g.Holds edges) :
    g.containsEdge e = true ↔ e ∈ g.edges := by
  rw [containsEdge, h.outgoing_eq, h.edges_perm.mem_iff]
  simp

namespace Sound

variable {edges : List Edge}

/-- An edge that has to give way is alone on its output. -/
theorem filter_of_edgeOn? (h : g.Sound edges) {id : NodeId} {n : Node} {p : Port}
    (hn : g.node? id = some n) (hone : n.allowsFanOut p = false) {displaced : Edge}
    (hon : g.edgeOn? id p = some displaced) :
    edges.filter (fun f => f.source = id && f.output = p) = [displaced] := by
  rw [h.edgeOn?_eq, ← List.head?_filter] at hon
  have hlength := h.single id n p hn hone
  rcases hf : edges.filter fun f => f.source = id && f.output = p with _ | ⟨f, _ | ⟨f', rest⟩⟩
  · rw [hf] at hon
    cases hon
  · rw [hf] at hon
    rw [hf, Option.some.inj hon]
  · rw [hf] at hlength
    simp at hlength

theorem mem_of_edgeOn? (h : g.Sound edges) {id : NodeId} {p : Port} {displaced : Edge}
    (hon : g.edgeOn? id p = some displaced) :
    displaced ∈ edges ∧ (displaced.source = id && displaced.output = p) = true := by
  rw [h.edgeOn?_eq] at hon
  have hleaves := List.find?_some hon
  exact ⟨List.mem_of_find?_eq_some hon, hleaves⟩

/-- An edge that has to give way leaves its output free. -/
theorem edgeOn?_erased (h : g.Sound edges) {id : NodeId} {n : Node} {p : Port}
    (hn : g.node? id = some n) (hone : n.allowsFanOut p = false) {displaced : Edge}
    (hon : g.edgeOn? id p = some displaced) :
    ((g.eraseEdge? displaced).getD g).edgeOn? id p = none := by
  obtain ⟨hmem, hleaves⟩ := h.mem_of_edgeOn? hon
  have hfilter := (perm_cons_withoutNewest hmem).filter fun f => f.source = id && f.output = p
  rw [h.filter_of_edgeOn? hn hone hon, List.filter_cons, if_pos hleaves] at hfilter
  rw [(h.eraseEdge displaced).edgeOn?_eq, ← List.head?_filter, ← hfilter.cons_inv.nil_eq]
  rfl

/-- What is left without one edge, in whatever order. -/
theorem perm_withoutNewest (h : g.Sound edges) (he : e ∈ edges) :
    (withoutNewest e edges).Perm (g.edges.erase e) :=
  (((perm_cons_withoutNewest he).symm.trans h.edges_perm.symm).trans
    (List.perm_cons_erase (h.edges_perm.mem_iff.2 he))).cons_inv

/-- A verdict on an edge of a sound graph is carried out: the edges become what it says, and nothing
else changes. -/
theorem connect_turns (h : g.Sound edges) (hcheck : g.check c e = .ok v) :
    ∃ g' edges', g.connect c e = (g', .ok v) ∧ v.Turns e g.edges g'.edges ∧ g'.Sound edges' ∧
      ∃ links, g' = { g with links } := by
  obtain ⟨source, target, hs, ht, ho, hi, hv⟩ := decides_of_check hcheck
  have habsent : g.containsEdge e = false → e ∉ g.edges := fun hnew hmem =>
    Bool.eq_false_iff.1 hnew (h.containsEdge_iff.2 hmem)
  cases hv with
  | accept hnew hallowed hfree =>
    obtain ⟨g', he⟩ := (exists_addEdge_iff hs ht ho hi).2 hfree
    have hg' := h.addEdge he
    have hperm : g'.edges.Perm (e :: g.edges) := hg'.edges_perm.trans
      ((List.perm_append_singleton e edges).trans (h.edges_perm.symm.cons e))
    exact ⟨g', _, connect_of_accept hcheck he, ⟨habsent hnew, hperm⟩, hg', addEdge_eq he⟩
  | @replace displaced hnew hallowed hone hon =>
    have hmem := (h.mem_of_edgeOn? hon).1
    have hnode := node?_eraseEdge g displaced
    obtain ⟨g', he⟩ := (exists_addEdge_iff ((hnode _).trans hs) ((hnode _).trans ht) ho hi).2
      (.inr (h.edgeOn?_erased hs hone hon))
    have hg' := (h.eraseEdge displaced).addEdge he
    have hlisted : g.edges.filter (fun f => f.source = e.source && f.output = e.output)
        = [displaced] := by
      have hfilter := h.edges_perm.filter fun f => f.source = e.source && f.output = e.output
      rw [h.filter_of_edgeOn? hs hone hon] at hfilter
      exact List.perm_singleton.1 hfilter
    have hperm : g'.edges.Perm (e :: g.edges.erase displaced) := hg'.edges_perm.trans
      ((List.perm_append_singleton e _).trans ((h.perm_withoutNewest hmem).cons e))
    refine ⟨g', _, ?_, ⟨habsent hnew, hlisted, hperm⟩, hg', ?_⟩
    · rw [connect_of_replace hcheck, adopt_of_ok he]
    · obtain ⟨links, hlinks⟩ := g.eraseEdge?_eq displaced
      obtain ⟨links', rfl⟩ := addEdge_eq he
      exact ⟨links', by rw [hlinks]⟩
  | unchanged hold =>
    refine ⟨g, edges, ?_, ⟨h.containsEdge_iff.1 hold, rfl⟩, h, g.links, rfl⟩
    rw [connect, hcheck]
  | reject hnew hrefused =>
    refine ⟨g, edges, ?_, ⟨habsent hnew, rfl⟩, h, g.links, rfl⟩
    rw [connect, hcheck]

/-- An edge that was added is there when it is connected once more. -/
theorem connect_of_mem {g' : Graph} (h : g'.Sound edges) (hlinks : ∃ links, g' = { g with links })
    (hcheck : g.check c e = .ok v) (he : e ∈ g'.edges) :
    g'.connect c e = (g', .ok .unchanged) := by
  obtain ⟨source, target, hs, ht, ho, hi, -⟩ := decides_of_check hcheck
  have hnode : ∀ id, g'.node? id = g.node? id := by
    obtain ⟨links, rfl⟩ := hlinks
    exact fun _ => rfl
  have hthere : g'.check c e = .ok .unchanged := check_eq_ok_iff.2
    ⟨source, target, (hnode _).trans hs, (hnode _).trans ht, ho, hi,
      by rw [if_pos (h.containsEdge_iff.2 he)]⟩
  rw [connect, hthere]

/-- Connecting an edge in a sound graph does what was decided about it. It fails exactly when the
decision fails, for the same reason, and leaves the graph as it is. Else it ends with the verdict;
the edges become what the verdict says, so the edge is there exactly when the verdict was applied,
and no edge is doubled; nothing but the edges changes, and the graph stays sound. The same edge
connected once more is there already, or refused again. -/
theorem connect_exact (h : g.Sound edges) (c : Catalog T) (e : Edge) :
    (∀ reason, g.check c e = .error reason → g.connect c e = (g, .error reason)) ∧
      ∀ v, g.check c e = .ok v → ∃ g', g.connect c e = (g', .ok v) ∧
        v.Turns e g.edges g'.edges ∧ (e ∈ g'.edges ↔ v.isApplied = true) ∧
        (∀ f, g'.edges.count f ≤ max 1 (g.edges.count f)) ∧
        (∃ links, g' = { g with links }) ∧ (∃ edges', g'.Sound edges') ∧
        g'.connect c e = (g', .ok (if v.isApplied then .unchanged else v)) := by
  refine ⟨fun reason => connect_of_error, fun v hcheck => ?_⟩
  obtain ⟨g', edges', hconnect, hturns, hg', hlinks⟩ := h.connect_turns hcheck
  refine ⟨g', hconnect, hturns, hturns.mem_iff, hturns.count_le, hlinks, ⟨edges', hg'⟩, ?_⟩
  cases v with
  | accept | replace | unchanged =>
    exact connect_of_mem hg' hlinks hcheck (hturns.mem_iff.2 rfl)
  | reject reason =>
    have hrejected : g.connect c e = (g, .ok (.reject reason)) := by rw [connect, hcheck]
    cases hrejected.symm.trans hconnect
    exact hrejected

end Sound

/-! ### Graphs with three states -/

/-- A state with one input, one output and an error output. -/
def plainState (name : String) : Node := ⟨"noop", .primitive, some name, [], true, 1, 2, [], none⟩

/-- Three states. -/
def plainStates : Graph :=
  (((empty .empty).insert (.ofNat 1) (plainState "a")).insert (.ofNat 2) (plainState "b")).insert
    (.ofNat 3) (plainState "c")

/-- Three states and an edge from the first one to the second one. -/
def joined : Graph := (plainStates.addEdge ⟨.ofNat 1, 1, .ofNat 2, 1⟩).toOption.getD plainStates

theorem joined_sound : ∃ edges, joined.Sound edges := by
  have hbare : plainStates.Sound [] :=
    (((sound_empty .empty).insert rfl _).insert (by decide) _).insert (by decide) _
  unfold joined
  cases h : plainStates.addEdge ⟨.ofNat 1, 1, .ofNat 2, 1⟩ with
  | ok g' => exact ⟨_, hbare.addEdge h⟩
  | error e => exact ⟨_, hbare⟩

theorem connect_joined_exact :
    ∃ g', joined.connect .standard ⟨.ofNat 1, 1, .ofNat 3, 1⟩ =
        (g', .ok (.replace ⟨.ofNat 1, 1, .ofNat 2, 1⟩)) ∧
      g'.edges = [⟨.ofNat 1, 1, .ofNat 3, 1⟩] ∧
      g'.connect .standard ⟨.ofNat 1, 1, .ofNat 3, 1⟩ = (g', .ok .unchanged) := by
  obtain ⟨edges, h⟩ := joined_sound
  have hcheck : joined.check .standard ⟨.ofNat 1, 1, .ofNat 3, 1⟩ =
      .ok (.replace ⟨.ofNat 1, 1, .ofNat 2, 1⟩) := by decide +kernel
  have hedges : joined.edges = [⟨.ofNat 1, 1, .ofNat 2, 1⟩] := by decide +kernel
  obtain ⟨g', hconnect, ⟨-, -, hperm⟩, -, -, -, -, hagain⟩ := (h.connect_exact .standard _).2 _ hcheck
  rw [hedges, List.erase_cons_head] at hperm
  exact ⟨g', hconnect, List.perm_singleton.1 hperm, hagain⟩

/-- The edge to a node is listed under the identifier of the node when another node gets this
identifier, but it cannot be removed any more, so it does not give way. The edge from such a node is
not found any more, so it is added a second time. -/
theorem connect_reinserted :
    let target := joined.insert (.ofNat 2) (plainState "d")
    let source := joined.insert (.ofNat 1) (plainState "d")
    (target.edges = [⟨.ofNat 1, 1, .ofNat 2, 1⟩] ∧
      target.check .standard ⟨.ofNat 1, 1, .ofNat 3, 1⟩ =
        .ok (.replace ⟨.ofNat 1, 1, .ofNat 2, 1⟩) ∧
      target.connect .standard ⟨.ofNat 1, 1, .ofNat 3, 1⟩ =
        (target, .error (.portCapacity (.ofNat 1) 1))) ∧
    source.edges = [⟨.ofNat 1, 1, .ofNat 2, 1⟩] ∧
      source.check .standard ⟨.ofNat 1, 1, .ofNat 2, 1⟩ = .ok .accept ∧
      (source.connect .standard ⟨.ofNat 1, 1, .ofNat 2, 1⟩).1.edges =
        [⟨.ofNat 1, 1, .ofNat 2, 1⟩, ⟨.ofNat 1, 1, .ofNat 2, 1⟩] := by
  decide +kernel

end Graph

end Workflow
