import Workflow.Proofs.Edit.Represents
import Workflow.Proofs.Graph.Verdicts

/-!
# Calls that fail

Every call checks what it needs before it changes anything, except that connecting an edge removes
the edge that has to give way before it knows that its output is free then. So a call that fails
leaves the graph as it was, unless an edge gave way and another one is left on the output
(`Edit.unchanged_iff_of_fails`). This does not happen in a sound graph, and so not in a session
(`Edit.session_unchanged_of_fails`). It does when an output has lost its place among those that take
more than one edge (`Graph.connect_narrowed`).
-/

namespace Workflow

namespace Graph

variable {T : Type} [NodeSpec T] {c : Catalog T} {g rest : Graph} {e displaced : Edge}

/-- An edge gives way to `e` and leaves the graph `rest`, in which the output of `e` is not free. -/
structure Displaces (c : Catalog T) (g : Graph) (e displaced : Edge) (rest : Graph) : Prop where
  verdict : g.check c e = .ok (.replace displaced)
  erased : g.eraseEdge? displaced = some rest
  occupied : rest.edgeOn? e.source e.output ≠ none

/-- A graph has fewer links after an edge was removed. -/
theorem edgeCount_eraseEdge (h : g.eraseEdge? e = some rest) : rest.edgeCount < g.edgeCount := by
  obtain ⟨i, hlink, rfl⟩ := Option.map_eq_some_iff.1 h
  simp only [linkOf?, Option.bind_eq_bind, Option.bind_eq_some_iff, Option.pure_def,
    Option.some.injEq] at hlink
  obtain ⟨_, -, _, -, x, hx, rfl⟩ := hlink
  have hmem : x ∈ g.links.entries :=
    List.mem_of_mem_filter (List.mem_reverse.1 (List.mem_of_getLast? hx))
  have hused : (g.links.get? x.1).isSome = true := by
    rw [Arena.get?, Option.isSome_map, List.find?_isSome]
    exact ⟨x, hmem, by simp⟩
  simp only [edgeCount, eraseLink, Arena.size, Arena.erase, hused, if_true]
  exact List.length_filter_lt_length_iff_exists.2 ⟨x, hmem, by simp⟩

/-- An edge cannot be added to an output that takes one edge and has one. -/
theorem addEdge_of_occupied {source target : Node} (hs : g.node? e.source = some source)
    (ht : g.node? e.target = some target) (ho : e.output.isWithin source.outputs = true)
    (hi : e.input.isWithin target.inputs = true) (hone : source.allowsFanOut e.output = false)
    (hon : g.edgeOn? e.source e.output ≠ none) :
    g.addEdge e = .error (.portCapacity e.source e.output) := by
  obtain ⟨i, hsource, -⟩ := node?_eq_some_iff.1 hs
  obtain ⟨j, htarget, -⟩ := node?_eq_some_iff.1 ht
  have hsome : (g.edgeOn? e.source e.output).isSome = true := Option.isSome_iff_ne_none.2 hon
  simp only [addEdge, hsource, htarget, node_eq_ok_iff.2 hs, node_eq_ok_iff.2 ht, Except.ok_bind,
    ho, hi, hone, hsome, Bool.not_true, Bool.not_false, Bool.and_self, if_true]
  rfl

/-- The edge that gave way is gone, and the other one is not there. -/
theorem Displaces.connect_eq (h : Displaces c g e displaced rest) :
    g.connect c e = (rest, .error (.portCapacity e.source e.output)) := by
  obtain ⟨source, target, hs, ht, ho, hi, hv⟩ := decides_of_check h.verdict
  have hnode : ∀ id, rest.node? id = g.node? id := by
    have hrest := node?_eraseEdge g displaced
    rwa [h.erased] at hrest
  cases hv with
  | replace hnew hallowed hone hon =>
    have hfull :=
      addEdge_of_occupied ((hnode _).trans hs) ((hnode _).trans ht) ho hi hone h.occupied
    rw [connect_of_replace h.verdict, h.erased, Option.getD_some, adopt, hfull]

/-- An edge that could not be connected left the graph as it was, unless another one gave way. -/
theorem connect_unchanged_of_fails {reason : Error} (h : (g.connect c e).2 = .error reason)
    (hnone : ∀ displaced rest, ¬Displaces c g e displaced rest) : (g.connect c e).1 = g := by
  rcases (connect_fails_iff c g e).1 ⟨reason, h⟩ with ⟨reason, hcheck⟩ | ⟨displaced, hcheck, hon⟩
  · rw [connect_of_error hcheck]
  · cases hrest : g.eraseEdge? displaced with
    | some rest =>
      rw [hrest] at hon
      exact absurd ⟨hcheck, hrest, hon⟩ (hnone displaced rest)
    | none =>
      rw [connect_of_replace hcheck, hrest, Option.getD_none, adopt] at h ⊢
      cases hadd : g.addEdge e with
      | ok g' => simp [hadd] at h
      | error reason => rfl

/-- Whether there is a node does not depend on the edges. -/
theorem contains_eraseEdges (g : Graph) (id : NodeId) (edges : List Edge) :
    (edges.foldl (fun g e => (g.eraseEdge? e).getD g) g).contains id = g.contains id := by
  induction edges generalizing g with
  | nil => rfl
  | cons e edges ih =>
    obtain ⟨links, hlinks⟩ := g.eraseEdge?_eq e
    rw [List.foldl_cons, ih, hlinks]
    rfl

/-- Only a node that does not exist cannot get another number of outputs. -/
theorem not_contains_of_resizeOutputs_fails {id : NodeId} {count : PortCount} {reason : Error}
    (h : (g.resizeOutputs id count).2 = .error reason) : g.contains id = false := by
  simp only [resizeOutputs, contains_eraseEdges] at h
  cases hid : g.contains id with
  | false => rfl
  | true => simp [hid] at h

/-- In a sound graph an edge that gives way leaves its output free. -/
theorem Sound.not_displaces {edges : List Edge} (h : g.Sound edges) (c : Catalog T)
    (e displaced : Edge) (rest : Graph) : ¬Displaces c g e displaced rest := by
  intro hd
  obtain ⟨source, target, hs, -, -, -, hv⟩ := decides_of_check hd.verdict
  cases hv with
  | replace hnew hallowed hone hon =>
    have hfree := h.edgeOn?_erased hs hone hon
    rw [hd.erased, Option.getD_some] at hfree
    exact hd.occupied hfree

/-- Three states, and two edges on an output of the first one that takes one edge: both were added
while it took more. -/
def narrowed : Graph :=
  let wide := plainStates.modify (.ofNat 1) fun n => { n with fanOut := [1] }
  let joined := (wide.addEdge ⟨.ofNat 1, 1, .ofNat 2, 1⟩).toOption.getD wide
  ((joined.addEdge ⟨.ofNat 1, 1, .ofNat 3, 1⟩).toOption.getD joined).modify (.ofNat 1) fun n =>
    { n with fanOut := [] }

/-- An edge that cannot be connected makes another one go away. -/
theorem connect_narrowed :
    narrowed.edges = [⟨.ofNat 1, 1, .ofNat 2, 1⟩, ⟨.ofNat 1, 1, .ofNat 3, 1⟩] ∧
      narrowed.check .standard ⟨.ofNat 1, 1, .ofNat 1, 1⟩ =
        .ok (.replace ⟨.ofNat 1, 1, .ofNat 2, 1⟩) ∧
      (narrowed.connect .standard ⟨.ofNat 1, 1, .ofNat 1, 1⟩).2 =
        .error (.portCapacity (.ofNat 1) 1) ∧
      (narrowed.connect .standard ⟨.ofNat 1, 1, .ofNat 1, 1⟩).1.edges =
        [⟨.ofNat 1, 1, .ofNat 3, 1⟩] := by
  decide +kernel

end Graph

namespace Edit

variable {T : Type} [NodeSpec T] {c : Catalog T} {g : Graph} {e : Edit} {reason : Error}

/-- A call ends with an error. -/
inductive Fails (c : Catalog T) (g : Graph) (reason : Error) : Edit → Prop
  | add {id : NodeId} {kind : String} {form : Fields} (h : g.add c id kind form = .error reason) :
      Fails c g reason (.add id kind form)
  | addEdge {e : Edge} (h : g.addEdge e = .error reason) : Fails c g reason (.addEdge e)
  | connect {e : Edge} (h : (g.connect c e).2 = .error reason) : Fails c g reason (.connect e)
  | rename {id : NodeId} {name : String} (h : g.rename id name = .error reason) :
      Fails c g reason (.rename id name)
  | resizeOutputs {id : NodeId} {count : PortCount}
      (h : (g.resizeOutputs id count).2 = .error reason) :
      Fails c g reason (.resizeOutputs id count)

/-- A call that fails leaves the graph as it was, unless an edge gave way to one that it could not
make room for. Then the graph is what is left without that edge. -/
theorem unchanged_iff_of_fails (h : Fails c g reason e) :
    e.apply c g = g ↔
      ¬∃ f displaced rest, e = .connect f ∧ Graph.Displaces c g f displaced rest := by
  cases h with
  | add h => simp [apply, h, Except.toOption]
  | addEdge h => simp [apply, h, Except.toOption]
  | rename h => simp [apply, h, Except.toOption]
  | resizeOutputs h =>
    simp [apply, Graph.resizeOutputs_of_not_contains (Graph.not_contains_of_resizeOutputs_fails h)]
  | @connect f h =>
    constructor
    · rintro hsame ⟨_, displaced, rest, hf, hd⟩
      cases hf
      have hless := Graph.edgeCount_eraseEdge hd.erased
      rw [apply, hd.connect_eq] at hsame
      exact absurd (congrArg Graph.edgeCount hsame) (Nat.ne_of_lt hless)
    · intro hnone
      exact Graph.connect_unchanged_of_fails h fun displaced rest hd =>
        hnone ⟨f, displaced, rest, rfl, hd⟩

/-- A call that fails in a session leaves the graph as it was. -/
theorem session_unchanged_of_fails {start : Graph} (hstart : IsOrigin start)
    (hsession : Session c Fresh start g) (h : Fails c g reason e) : e.apply c g = g := by
  obtain ⟨edges, hedges⟩ := hstart.sound
  obtain ⟨edges, hg⟩ := hsession.sound hedges
  exact (unchanged_iff_of_fails h).2 fun ⟨_, _, _, _, hd⟩ => hg.not_displaces c _ _ _ hd

end Edit

end Workflow
