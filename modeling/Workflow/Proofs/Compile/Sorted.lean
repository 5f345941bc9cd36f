import Workflow.Proofs.Compile.Order
import Workflow.Proofs.Walk.Ordered

/-!
# States in the order of the flow

The entry state stands first in a compiled document. The states that it reaches follow, each before
those that it leads to and that do not lead back to it; so they are sorted when no state leads
back to itself (`compile_follows_flow`). The states that the sweep over the roots adds stand behind
them in the opposite order: a root is the last of those that only it reaches.
-/

namespace Workflow.Compile

open Relation (ReflTransGen TransGen)

variable {T : Type} [NodeSpec T] {c : Catalog T} {g : Graph} {entry : NodeId}

/-- How the nodes of the states of a compilation are ordered: the entry node and `front` are what it
reaches, `swept` is what the roots add. -/
structure Flows (c : Catalog T) (g : Graph) (entry : NodeId) (front swept : List NodeId) :
    Prop where
  reached : ∀ x, x ∈ entry :: front ↔ ReflTransGen (LeadsTo c g) entry x
  /-- A node stands before what it leads to, unless that leads back to it. -/
  ahead : ∀ x y, ReflTransGen (LeadsTo c g) entry x → LeadsTo c g x y →
    ¬ReflTransGen (LeadsTo c g) y x → [x, y].Sublist (entry :: front)
  /-- A root stands behind what it reaches and neither the entry node nor an earlier root does. -/
  last : ∀ earlier r later, roots g = earlier ++ r :: later → ∀ x,
    ReflTransGen (LeadsTo c g) r x → x ≠ r → ¬ReflTransGen (LeadsTo c g) entry x →
    (∀ q ∈ earlier, ¬ReflTransGen (LeadsTo c g) q x) → [x, r].Sublist swept

/-- If no node leads back to itself, every one stands before all that it leads to. -/
theorem Flows.sorted {front swept : List NodeId} (h : Flows c g entry front swept)
    (hacyclic : ∀ x, ReflTransGen (LeadsTo c g) entry x → ¬TransGen (LeadsTo c g) x x)
    {x y : NodeId} (hx : ReflTransGen (LeadsTo c g) entry x) (hxy : LeadsTo c g x y) :
    [x, y].Sublist (entry :: front) :=
  h.ahead x y hx hxy fun hyx => hacyclic x hx (.head' hxy hyx)

/-- The nodes of a compilation, in the order of their states. -/
theorem statesOf_flows {w : Walk NodeId State} (h : statesOf c g entry = .ok w) :
    ∃ front swept, Walk.Grows (expand c g) .start w (entry :: front ++ swept) ∧
      Flows c g entry front swept := by
  rw [statesOf_eq] at h
  obtain ⟨w₁, hw₁, h⟩ := Except.bind_eq_ok_iff.1 h
  obtain ⟨front, hg₁, hmem, hahead⟩ := Walk.visit_reversed hw₁
  obtain ⟨swept, hg₂, hlast⟩ := Walk.foldlM_visit_last (roots g) hg₁ h
  obtain ⟨_, -, hroots, -⟩ := Walk.foldlM_grows (Walk.visit_grows _) _ _ _ h
  have hg := hg₁.trans hg₂
  have hreaches : ∀ x ∈ entry :: front ++ swept, ∀ y,
      Walk.Reaches (expand c g) x y ↔ ReflTransGen (LeadsTo c g) x y := fun x hx _ =>
    hg.reaches_iff (fun _ hv => leads_iff_of_grows hg hv) hx
  have hfront : ∀ x, x ∈ entry :: front ↔ ReflTransGen (LeadsTo c g) entry x := fun x =>
    (hmem x).trans (hreaches entry (by simp) x)
  refine ⟨front, swept, hg, hfront, fun x y hx hxy hyx => ?_, ?_⟩
  · have hxmem : x ∈ entry :: front ++ swept := List.mem_append_left _ ((hfront x).2 hx)
    have hymem : y ∈ entry :: front ++ swept := List.mem_append_left _ ((hfront y).2 (hx.tail hxy))
    exact hahead x y ((hmem x).1 ((hfront x).2 hx)) ((leads_iff_of_grows hg hxmem y).2 hxy)
      fun hback => hyx ((hreaches y hymem x).1 hback)
  · intro earlier r later heq x hrx hne hx hnone
    have hroot : ∀ q ∈ earlier ++ r :: later, q ∈ entry :: front ++ swept := fun q hq =>
      hg.mem_visited_iff.1 (hroots q (heq ▸ hq) q rfl)
    refine hlast earlier r later heq x ((hreaches r (hroot r (by simp)) x).2 hrx) hne
      (fun hvisited => hx ((hfront x).1 (hg₁.mem_visited_iff.1 hvisited))) fun q hq hqx => ?_
    exact hnone q hq ((hreaches q (hroot q (List.mem_append_left _ hq)) x).1 hqx)

/-- The states of a compiled document follow the flow. The first one is the entry state that the
start block names. The states that the entry node reaches come before all others, and of two of them
of which one leads to the other, and not back, the leading one comes first; so they are in
topological order if no state leads back to itself. Behind them, a root comes after all that it
reaches and neither the entry node nor an earlier root does. -/
theorem compile_follows_flow {d : Document} (h : (g.compile c).outcome = .ok d) :
    ∃ start e front swept, g.startNode? = some start ∧ g.edgeOn? start 1 = some e ∧
      List.Forall₂ (IsStateOf c g) (e.target :: front ++ swept) d.states ∧
      (e.target :: front ++ swept).Nodup ∧
      (∃ block, d.start = some block ∧ block.state = d.states.head?.map State.id) ∧
      Flows c g e.target front swept ∧
      ((∀ x, ReflTransGen (LeadsTo c g) e.target x → ¬TransGen (LeadsTo c g) x x) →
        ∀ x y, ReflTransGen (LeadsTo c g) e.target x → LeadsTo c g x y →
          [x, y].Sublist (e.target :: front)) := by
  obtain ⟨start, e, block, w, -, hs, he, hb, hw, -, rfl⟩ :=
    compile_eq_ok_iff.1 (Traced.eq_of_outcome h)
  obtain ⟨front, swept, hg, hflows⟩ := statesOf_flows hw
  have hstates := forall₂_isStateOf hg
  have hfirst : block.state = w.finished.head?.map State.id := by
    obtain ⟨s, rest, hstate, -, heq⟩ := List.forall₂_cons_left_iff.1 hstates
    obtain ⟨_, name, _, _, -, hname, -, -, hof⟩ := startOf_eq_ok_iff.1 hb
    rw [heq, state_of_ofForm hof, List.head?_cons, Option.map_some,
      Except.ok.inj (hname.symm.trans hstate.stateName_eq)]
  exact ⟨start, e, front, swept, hs, he, hstates, hg.nodup, ⟨block, rfl, hfirst⟩, hflows,
    fun hacyclic _ _ => hflows.sorted hacyclic⟩

/-- Nodes whose edges lead to one another only are not left. -/
theorem mem_of_reaches {S : List NodeId} (hS : ∀ x ∈ S, ∀ e ∈ g.outgoing x, e.target ∈ S)
    {x y : NodeId} (hx : x ∈ S) (h : ReflTransGen (LeadsTo c g) x y) : y ∈ S := by
  induction h with
  | refl => exact hx
  | tail _ hyz ih =>
    cases hyz with
    | output _ _ he _ => exact hS _ ih _ he
    | handler hk he =>
      obtain ⟨_, _, _, f, -, -, -, hf, rfl⟩ := hk
      exact hS _ (hS _ ih f (List.mem_of_find?_eq_some hf)) _ he

/-- A start node, a state `a` whose error output leads to the state `b`, and a state `r` that leads
to the state `x` and that nothing leads to. The nodes stand in another order. -/
def sketchGraph : Graph :=
  { ((((((Graph.empty .empty).insert (.ofNat 0)
      (.ofType "start" (NodeType.special 0 1 .entry) [])).insert
      (.ofNat 1) (emptyState "b")).insert (.ofNat 2) (emptyState "a")).insert (.ofNat 3)
      (.ofType "error-catch" (NodeType.special 1 1 .handlers)
        [("catch", .arr [.obj [("error", .str "E")]])])).insert (.ofNat 4)
      (emptyState "r")).insert (.ofNat 5) (emptyState "x") with
    links := (((Arena.empty.insert ⟨0, 1, 2, 1⟩).insert ⟨2, 2, 3, 1⟩).insert ⟨3, 1, 1, 1⟩).insert
      ⟨4, 1, 5, 1⟩ }

/-- The document of `sketchGraph`. -/
def sketchDocument : Document :=
  ⟨[], none, some ⟨none, some "a", []⟩,
    [⟨"a", "noop", [], some [⟨"E", some "b", []⟩]⟩, ⟨"b", "noop", [], none⟩,
      ⟨"x", "noop", [], none⟩, ⟨"r", "noop", [("transition", .str "x")], none⟩]⟩

theorem compile_sketchGraph_follows_flow :
    (sketchGraph.compile .standard).outcome = .ok sketchDocument ∧
      ∃ ids, List.Forall₂ (IsStateOf .standard sketchGraph) ids sketchDocument.states ∧
        [.ofNat 2, .ofNat 1].Sublist ids ∧ [.ofNat 5, .ofNat 4].Sublist ids := by
  have h : (sketchGraph.compile .standard).outcome = .ok sketchDocument := by decide +kernel
  obtain ⟨start, e, front, swept, hs, he, hstates, -, -, hflows, -⟩ := compile_follows_flow h
  have htarget : e.target = .ofNat 2 := by
    have hstart : sketchGraph.startNode? = some (.ofNat 0) := by decide +kernel
    have hedge : sketchGraph.edgeOn? (.ofNat 0) 1 = some ⟨.ofNat 0, 1, .ofNat 2, 1⟩ := by
      decide +kernel
    cases hstart.symm.trans hs
    cases hedge.symm.trans he
    rfl
  rw [htarget] at hstates hflows
  refine ⟨h, _, hstates, ?_, ?_⟩
  · -- The state `a` leads to `b` by its error handler, and `b` leads nowhere.
    have hcatch : IsCatchOf .standard sketchGraph (.ofNat 2) (.ofNat 3) :=
      ⟨emptyState "a", .primitive .single, 2, ⟨.ofNat 2, 2, .ofNat 3, 1⟩, by decide +kernel⟩
    have hleads : LeadsTo .standard sketchGraph (.ofNat 2) (.ofNat 1) :=
      .handler (e := ⟨.ofNat 3, 1, .ofNat 1, 1⟩) hcatch (by decide +kernel)
    have hback : ¬ReflTransGen (LeadsTo .standard sketchGraph) (.ofNat 1) (.ofNat 2) := fun hback =>
      absurd (mem_of_reaches (S := [.ofNat 1]) (by decide +kernel) (by decide) hback) (by decide)
    exact (hflows.ahead _ _ .refl hleads hback).trans (List.sublist_append_left _ _)
  · -- The root `r` leads to `x`, which the entry state does not reach.
    have hroots : roots sketchGraph = [] ++ .ofNat 4 :: [] := by decide +kernel
    have hnode : sketchGraph.node? (.ofNat 4) = some (emptyState "r") := by decide +kernel
    have hleads : LeadsTo .standard sketchGraph (.ofNat 4) (.ofNat 5) :=
      .output (e := ⟨.ofNat 4, 1, .ofNat 5, 1⟩) hnode (t := .primitive .single) (by decide +kernel)
        (by decide +kernel) (by decide)
    have hunreached : ¬ReflTransGen (LeadsTo .standard sketchGraph) (.ofNat 2) (.ofNat 5) := by
      intro hreached
      have hmem := mem_of_reaches (S := [.ofNat 2, .ofNat 3, .ofNat 1]) (by decide +kernel)
        (by decide) hreached
      exact absurd hmem (by decide)
    exact (hflows.last [] _ [] hroots _ (.single hleads) (by decide) hunreached nofun).trans
      (List.sublist_append_right _ _)

end Workflow.Compile
