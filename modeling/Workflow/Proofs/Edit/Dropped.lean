import Mathlib.Data.Fintype.Card
import Mathlib.Data.Set.Finite.Basic
import Workflow.Proofs.Compile.Failures
import Workflow.Proofs.Edit.Reproduced
import Workflow.Proofs.Import.Walked

/-!
# States that a compilation leaves out

A compilation follows the edges of the states that it emits, and it starts at every state that no
edge leads to. So there is an edge to every state that it leaves out. After a checked session the
edge comes from a state that is left out as well, or from the error-catch node of such a state, or
it is one that no compilation follows (`IsStray`): an error-catch node keeps its edges when the state
in front of it is gone, and a start node may have edges beside the one to the entry state. Going back
from a state that is left out one comes to a cycle or to an edge of this kind
(`Edit.session_drops_behind`).
-/

namespace Workflow

/-- Going back in a finite set, as long as it does not end, one comes to a cycle. -/
theorem exists_end_or_cycle {α : Type} {r : α → α → Prop} {P Q : α → Prop} {s : List α}
    (hs : ∀ x, Q x → x ∈ s) (hback : ∀ x, Q x → P x ∨ ∃ u, Q u ∧ r u x) {x : α} (hx : Q x) :
    ∃ y, Relation.ReflTransGen r y x ∧ (P y ∨ Relation.TransGen r y y) := by
  by_contra hnone
  have hpast : ∀ y, Relation.ReflTransGen r y x → ¬P y ∧ ¬Relation.TransGen r y y :=
    fun y hy => not_or.1 fun h => hnone ⟨y, hy, h⟩
  -- Without a cycle in the past of `x` the past is well-founded, but it has no first element.
  let Past := {y : α // Q y ∧ Relation.ReflTransGen r y x}
  let before (a b : Past) : Prop := Relation.TransGen r a.1 b.1
  have : Finite Past := (s.finite_toSet.subset fun y hy => hs y hy.1 : {y | Q y ∧ _}.Finite)
  have : IsTrans Past before := ⟨fun _ _ _ => Relation.TransGen.trans⟩
  have : Std.Irrefl before := ⟨fun a => (hpast a.1 a.2.2).2⟩
  have hwf : WellFounded before := Finite.wellFounded_of_trans_of_irrefl before
  refine hwf.induction (C := fun _ => False) ⟨x, hx, .refl⟩ fun a ih => ?_
  rcases hback a.1 a.2.1 with hend | ⟨u, hu, hua⟩
  · exact (hpast a.1 a.2.2).1 hend
  · exact ih ⟨u, hu, .head hua a.2.2⟩ (.single hua)

namespace Compile

/-- A state of the graph that is not in the document. -/
def IsDropped (g : Graph) (d : Document) (id : NodeId) : Prop :=
  ∃ n, g.node? id = some n ∧ n.isPrimitive = true ∧ ∀ s ∈ d.states, n.stateId ≠ some s.id

instance (g : Graph) (d : Document) (id : NodeId) : Decidable (IsDropped g d id) :=
  inferInstanceAs (Decidable (∃ n ∈ g.node? id, n.isPrimitive = true ∧
    ∀ s ∈ d.states, n.stateId ≠ some s.id))

/-- A state has an edge to `x`, or there is one from an error-catch node on its error output. -/
inductive Precedes (g : Graph) (u x : NodeId) : Prop
  | edge {e : Edge} (he : e ∈ g.edges) (hsource : e.source = u) (htarget : e.target = x)
  | handler {n k : Node} {f e : Edge} (hn : g.node? u = some n) (hf : f ∈ g.edges)
      (hsource : f.source = u) (houtput : f.output = Edit.errorOutput n.kind)
      (hk : g.node? f.target = some k) (hcatch : k.isCatch = true) (he : e ∈ g.edges)
      (hthrough : e.source = f.target) (htarget : e.target = x)

/-- An edge that no compilation follows. -/
inductive IsStray (g : Graph) (e : Edge) : Prop
  /-- It leaves an error-catch node that no edge leads to. -/
  | detached {k : Node} (he : e ∈ g.edges) (hk : g.node? e.source = some k)
      (hcatch : k.isCatch = true) (hfree : ∀ f ∈ g.edges, f.target ≠ e.source)
  /-- It leaves a start node and is not the edge to the entry state. -/
  | extra {n : Node} (he : e ∈ g.edges) (hn : g.node? e.source = some n) (hstart : n.isStart = true)
      (hentry : (g.startNode?.bind fun id => g.edgeOn? id 1) ≠ some e)

namespace Emits

variable {g : Graph} {edges : List Edge} {d : Document} {entry x : NodeId} {ids : List NodeId}

/-- The states that are not in the document are those that the walk did not come by. -/
theorem isDropped_iff {c : Catalog} (hg : g.Consistent) (h : Emits c g d entry ids) :
    IsDropped g d x ↔ (∃ n, g.node? x = some n ∧ n.isPrimitive = true) ∧ x ∉ ids := by
  constructor
  · rintro ⟨n, hn, hp, hmissing⟩
    refine ⟨⟨n, hn, hp⟩, fun hx => ?_⟩
    obtain ⟨s, hs, hstate⟩ := h.states.exists_of_mem_left hx
    obtain ⟨m, hm, -, hid⟩ := stateName_eq_ok_iff.1 hstate.stateName_eq
    obtain rfl := Option.some.inj (hn.symm.trans hm)
    exact hmissing s hs hid
  · rintro ⟨⟨n, hn, hp⟩, hx⟩
    refine ⟨n, hn, hp, fun s hs hid => hx ?_⟩
    obtain ⟨y, hy, hstate⟩ := h.states.exists_of_mem_right hs
    have hname : stateName g x = .ok s.id := stateName_eq_ok_iff.2 ⟨n, hn, hp, hid⟩
    rwa [eq_of_stateName hg.labelled h.valid hname hstate.stateName_eq]

/-- The walk comes by whatever has no edge to it. -/
theorem exists_edge_of_isDropped (hg : g.Holds edges) {c : Catalog} (h : Emits c g d entry ids)
    (hx : IsDropped g d x) : ∃ e ∈ edges, e.target = x := by
  obtain ⟨hstate, hnot⟩ := (h.isDropped_iff hg.consistent).1 hx
  by_contra hnone
  have hroot : g.incoming x = [] := by
    rw [hg.incoming_eq, List.filter_eq_nil_iff]
    exact fun e he ht => hnone ⟨e, he, of_decide_eq_true ht⟩
  exact hnot ((h.mem_iff x).2 ⟨hstate, x, .inr ⟨hstate, hroot⟩, .refl⟩)

variable {e : Edge} {source : Node}

/-- An edge from a state to one that is left out comes from one that is left out. -/
theorem isDropped_source (hg : g.Exclusive .standard edges) (h : Emits .standard g d entry ids)
    (he : e ∈ edges) (hx : IsDropped g d e.target) (hs : g.node? e.source = some source)
    (hp : source.isPrimitive = true) : IsDropped g d e.source := by
  obtain ⟨⟨target, ht, htp⟩, hnot⟩ := (h.isDropped_iff hg.consistent).1 hx
  refine (h.isDropped_iff hg.consistent).2 ⟨⟨source, hs, hp⟩, fun hsource => hnot ?_⟩
  have hallowed := Graph.refusal?_eq_none_iff.1 (hg.allowed e he _ _ hs ht)
  rw [if_pos hp] at hallowed
  obtain ⟨t, hkind, hiff⟩ := hallowed
  refine h.closed _ hsource _ (.output hs hkind (hg.mem_outgoing he) fun herr => ?_)
  rw [Node.isPrimitive_of_isCatch (hiff.1 (TransitionRule.slot?_eq_some_error_iff.1 herr))] at htp
  cases htp

/-- When a state behind an error-catch node is left out, so is every state in front of this node. -/
theorem isDropped_owner (hg : g.Exclusive .standard edges) (hsingle : ∀ id, Single g id)
    (h : Emits .standard g d entry ids) (he : e ∈ edges) (hx : IsDropped g d e.target)
    (hs : g.node? e.source = some source) (hcatch : source.isCatch = true) {f : Edge}
    (hf : f ∈ edges) (hthrough : f.target = e.source) :
    IsDropped g d f.source ∧ Precedes g f.source e.target := by
  obtain ⟨owner, k, ho, hk, -, -⟩ := hg.inRange f hf
  rw [hthrough, hs] at hk
  obtain rfl := Option.some.inj hk
  have hallowed := Graph.refusal?_eq_none_iff.1 (hg.allowed f hf _ _ ho (hthrough ▸ hs))
  split at hallowed
  next hp =>
    obtain ⟨t, hkind, hiff⟩ := hallowed
    have herr := hiff.2 hcatch
    have hcatches : IsCatchOf .standard g f.source e.source := by
      refine ⟨owner, t, f.output, f, ho, hkind, TransitionRule.slot?_eq_some_error_iff.2 herr, ?_,
        hthrough⟩
      rw [← List.head?_filter, (hsingle f.source).filter_eq (hg.mem_outgoing hf)]
      rfl
    obtain ⟨-, hnot⟩ := (h.isDropped_iff hg.consistent).1 hx
    refine ⟨(h.isDropped_iff hg.consistent).2 ⟨⟨owner, ho, hp⟩, fun howner => hnot ?_⟩, ?_⟩
    · exact h.closed _ howner _ (.handler hcatches (hg.mem_outgoing he))
    · -- The output of `f` is the error output of its type, which is one of the standard ones.
      obtain ⟨t', hkind', hfamily, -⟩ := hg.typed _ _ ho
      obtain rfl := Option.some.inj (hkind.symm.trans hkind')
      have hport := Edit.errorPort?_of_standard hkind (hfamily.symm.trans (of_decide_eq_true hp))
      exact .handler ho (hg.edges_perm.mem_iff.2 hf) rfl (Option.some.inj (herr.symm.trans hport))
        (hthrough ▸ hs) hcatch (hg.edges_perm.mem_iff.2 he) hthrough.symm rfl
  next =>
    rw [hcatch] at hallowed
    cases hallowed

/-- An edge to a state that is left out comes from a state that is left out or from its error-catch
node, or no compilation follows it. -/
theorem dropped_behind (hg : g.Exclusive .standard edges) (hsingle : ∀ id, Single g id)
    (h : Emits .standard g d entry ids) (he : e ∈ edges) (hx : IsDropped g d e.target) :
    (∃ u, IsDropped g d u ∧ Precedes g u e.target) ∨ IsStray g e := by
  have hmem : ∀ {f}, f ∈ edges ↔ f ∈ g.edges := hg.edges_perm.mem_iff.symm
  obtain ⟨source, -, hs, -, -, -⟩ := hg.inRange e he
  obtain ⟨t, hkind, hfamily, -⟩ := hg.typed _ _ hs
  cases hf : t.family with
  | primitive =>
    have hdropped := isDropped_source hg h he hx hs (decide_eq_true (hfamily.trans hf))
    exact .inl ⟨e.source, hdropped, .edge (hmem.1 he) rfl rfl⟩
  | special =>
    rcases Edit.special_of_standard hkind hf with ⟨hname, -⟩ | hname
    · have hstart : source.isStart = true :=
        Bool.and_eq_true_iff.2 ⟨decide_eq_true (hfamily.trans hf), decide_eq_true hname⟩
      refine .inr (.extra (hmem.1 he) hs hstart fun hentry => ?_)
      obtain ⟨id, hid, hedge⟩ := Option.bind_eq_some_iff.1 hentry
      obtain ⟨id', e', -, hid', hedge', htarget, -⟩ := h.start
      obtain rfl := Option.some.inj (hid.symm.trans hid')
      obtain rfl := Option.some.inj (hedge.symm.trans hedge')
      exact ((h.isDropped_iff hg.consistent).1 hx).2 (htarget ▸ h.entry_mem)
    · have hcatch : source.isCatch = true :=
        Bool.and_eq_true_iff.2 ⟨decide_eq_true (hfamily.trans hf), decide_eq_true hname⟩
      by_cases hfree : ∀ f ∈ g.edges, f.target ≠ e.source
      · exact .inr (.detached (hmem.1 he) hs hcatch hfree)
      · obtain ⟨f, hf, hthrough⟩ : ∃ f ∈ g.edges, f.target = e.source := by
          simpa only [not_forall, not_not, exists_prop] using hfree
        exact .inl ⟨f.source, isDropped_owner hg hsingle h he hx hs hcatch (hmem.2 hf) hthrough⟩

end Emits

end Compile

namespace Edit

variable {g : Graph} {edges : List Edge}

/-- Checked calls add no output that takes more than one edge. -/
theorem apply_fanOut (h : g.Exclusive .standard edges) {e : Edit} (hchecked : e.IsChecked)
    (hfan : ∀ id n, g.node? id = some n → n.fanOut = []) {id : NodeId} {m : Node}
    (hm : (e.apply .standard g).node? id = some m) : m.fanOut = [] := by
  rcases node?_apply h hchecked hm with ⟨kind, t, form, -, ht, rfl⟩ | ⟨n, hn, heq, -⟩
  · exact Import.fanOut_of_standard ht
  · exact heq.trans (hfan id n hn)

theorem IsCheckedOrigin.fanOut (h : IsCheckedOrigin g) {id : NodeId} {n : Node}
    (hn : g.node? id = some n) : n.fanOut = [] := by
  rcases h with ⟨metadata, rfl⟩ | ⟨settings, supply, d, r, -, hd, hr, rfl⟩
  · cases hn
  · obtain ⟨-, -, es, -, hb⟩ := Import.toGraph_builds_from Import.standard_startName
      Import.standard_catchName hd hr
    exact Import.fanOut_nodesOf _ (hb.shows.node?_eq_some_iff.1 hn)

/-- After a checked session no output has more than one edge. -/
theorem Session.single {start : Graph} (hstart : IsCheckedOrigin start)
    (h : Session .standard (fun g e => e.Fresh g ∧ e.IsChecked) start g) :
    ∃ edges, g.Exclusive .standard edges ∧ ∀ id, Compile.Single g id := by
  obtain ⟨⟨edges, hg⟩, hfan⟩ := Session.keeps (P := fun g => (∃ edges, g.Exclusive .standard edges) ∧
      ∀ id n, g.node? id = some n → n.fanOut = [])
    (fun _ _ ⟨⟨_, hg⟩, hfan⟩ ⟨hfresh, hchecked⟩ =>
      ⟨apply_exclusive hg hfresh hchecked, fun _ _ => apply_fanOut hg hchecked hfan⟩) h
    ⟨hstart.exclusive, fun _ _ => hstart.fanOut⟩
  exact ⟨edges, hg, hg.nodup_outputs hfan⟩

open Compile in
/-- When a graph is compiled after a checked session, a state is left out only because an edge leads
to it from a state that is left out as well, or from the error-catch node of such a state, or because
no compilation follows the edge. So the states that are left out are on a cycle of such states or
behind one, or behind an edge that no compilation follows. -/
theorem session_drops_behind {start : Graph} (hstart : IsCheckedOrigin start)
    (h : Session .standard (fun g e => e.Fresh g ∧ e.IsChecked) start g) {d : Document}
    (hd : (g.compile .standard).outcome = .ok d) {x : NodeId} (hx : IsDropped g d x) :
    ((∃ u, IsDropped g d u ∧ Precedes g u x) ∨ ∃ e, IsStray g e ∧ e.target = x) ∧
      ∃ y, Relation.ReflTransGen (fun u v => IsDropped g d u ∧ Precedes g u v) y x ∧
        ((∃ e, IsStray g e ∧ e.target = y) ∨
          Relation.TransGen (fun u v => IsDropped g d u ∧ Precedes g u v) y y) := by
  obtain ⟨edges, hg, hsingle⟩ := Session.single hstart h
  obtain ⟨entry, ids, hemits⟩ := emits_of_compile hg.consistent.labelled hd
  have hback : ∀ x, IsDropped g d x →
      (∃ u, IsDropped g d u ∧ Precedes g u x) ∨ ∃ e, IsStray g e ∧ e.target = x := by
    intro x hx
    obtain ⟨e, he, rfl⟩ := hemits.exists_edge_of_isDropped hg.toHolds hx
    exact (hemits.dropped_behind hg hsingle he hx).imp_right fun hstray => ⟨e, hstray, rfl⟩
  refine ⟨hback x hx, exists_end_or_cycle (s := g.ids) (Q := IsDropped g d) ?_ ?_ hx⟩
  · rintro y ⟨n, hn, -⟩
    exact List.mem_map_of_mem (hg.consistent.mem_nodes_iff.2 hn)
  · exact fun y hy => (hback y hy).symm.imp_right fun ⟨u, hu, huy⟩ => ⟨u, hu, hu, huy⟩

/-- Calls that leave edges behind which nothing follows: one from an error-catch node whose state is
erased, one from another start node, and one from a second output of the first start node. -/
def leaving : List Edit :=
  [.add (.ofNat 0) "start" [], .add (.ofNat 1) "noop" [], .add (.ofNat 2) "error-catch" [],
    .add (.ofNat 3) "noop" [], .add (.ofNat 4) "noop" [], .connect ⟨.ofNat 0, 1, .ofNat 1, 1⟩,
    .connect ⟨.ofNat 4, 2, .ofNat 2, 1⟩, .connect ⟨.ofNat 2, 1, .ofNat 3, 1⟩, .erase (.ofNat 4),
    .add (.ofNat 5) "start" [], .add (.ofNat 6) "noop" [], .connect ⟨.ofNat 5, 1, .ofNat 6, 1⟩,
    .resizeOutputs (.ofNat 0) 2, .add (.ofNat 7) "noop" [], .connect ⟨.ofNat 0, 2, .ofNat 7, 1⟩,
    .rename (.ofNat 1) "a", .rename (.ofNat 3) "b", .rename (.ofNat 6) "c", .rename (.ofNat 7) "d",
    .setInitialized (.ofNat 1) true, .setInitialized (.ofNat 3) true,
    .setInitialized (.ofNat 6) true, .setInitialized (.ofNat 7) true]

/-- The graph after `leaving`. -/
def leftGraph : Graph := run .standard (.empty .empty) leaving

/-- The document of `leftGraph`. -/
def leftDocument : Document := ⟨[], none, some ⟨none, some "a", []⟩, [⟨"a", "noop", [], none⟩]⟩

theorem allows_leaving :
    Allows .standard (fun g e => e.Fresh g ∧ e.IsChecked) (.empty .empty) leaving := by
  decide +kernel

theorem compile_leftGraph : (leftGraph.compile .standard).outcome = .ok leftDocument := by
  decide +kernel

/-- No state precedes one of those that are left out. -/
theorem not_precedes_leftGraph {u x : NodeId} (hu : Compile.IsDropped leftGraph leftDocument u)
    (hx : x ∈ [.ofNat 3, .ofNat 6, .ofNat 7]) : ¬Compile.Precedes leftGraph u x := by
  have hsources : ∀ x ∈ [NodeId.ofNat 3, .ofNat 6, .ofNat 7], ∀ e ∈ leftGraph.edges, e.target = x →
      ¬Compile.IsDropped leftGraph leftDocument e.source ∧
        ∀ f ∈ leftGraph.edges, f.target ≠ e.source := by decide +kernel
  intro h
  cases h with
  | edge he hsource htarget => exact (hsources x hx _ he htarget).1 (hsource ▸ hu)
  | handler _ hf _ _ _ _ he hthrough htarget =>
    exact (hsources x hx _ he htarget).2 _ hf hthrough.symm

theorem session_drops_stray :
    Compile.IsDropped leftGraph leftDocument (.ofNat 3) ∧
      ∃ e, Compile.IsStray leftGraph e ∧ e.target = .ofNat 3 := by
  have hx : Compile.IsDropped leftGraph leftDocument (.ofNat 3) := by decide +kernel
  obtain ⟨⟨u, hu, hux⟩ | hstray, -⟩ :=
    session_drops_behind (.inl ⟨.empty, rfl⟩) (Session.run allows_leaving) compile_leftGraph hx
  · exact absurd hux (not_precedes_leftGraph hu List.mem_cons_self)
  · exact ⟨hx, hstray⟩

/-- A state can be left out although no other state that is left out leads to it. -/
theorem session_drops_otherwise :
    Session .standard (fun g e => e.Fresh g ∧ e.IsChecked) (.empty .empty) leftGraph ∧
      (leftGraph.compile .standard).outcome = .ok leftDocument ∧
      ∀ x ∈ [NodeId.ofNat 3, .ofNat 6, .ofNat 7], Compile.IsDropped leftGraph leftDocument x ∧
        ¬∃ u, Compile.IsDropped leftGraph leftDocument u ∧ Compile.Precedes leftGraph u x :=
  ⟨Session.run allows_leaving, compile_leftGraph, fun x hx =>
    ⟨by revert x; decide +kernel, fun ⟨_, hu, hux⟩ => not_precedes_leftGraph hu hx hux⟩⟩

end Edit

end Workflow
