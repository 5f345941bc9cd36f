import Mathlib.Data.List.Pairwise
import Workflow.Proofs.Compile.Clashes
import Workflow.Proofs.Import.Described

/-!
# The names of imported nodes

An import refuses a document that names two states alike, and it names no node but those of states. So
the nodes of the graph have different names, whatever types the catalog has for the start node, the
error-catch nodes and the states (`toGraph_namesDiffer`).
-/

namespace Workflow.Import

variable {T : Type} [NodeSpec T] {settings : Settings} {c : Catalog T} {supply : Nat → NodeId}
  {count : Nat}

/-- The names of nodes. -/
def namesOf (nodes : List (NodeId × Node)) : List String := nodes.filterMap fun e => e.2.stateId

/-- The nodes do not have a name in common, unless they are the same one. -/
def Apart (a b : NodeId × Node) : Prop :=
  ∀ name, a.2.stateId = some name → b.2.stateId = some name → a.1 = b.1

instance : Std.Symm Apart := ⟨fun _ _ h name hb ha => (h name ha hb).symm⟩

/-- A node for raw fields has no name yet. -/
theorem stateId_of_nodeOf {kind id : String} {t : T} {fields : Fields} {n : Node}
    {targets : List (Port × String)} (h : nodeOf kind t id fields = .ok (n, targets)) :
    n.stateId = none := by
  unfold nodeOf at h
  split at h
  · cases h
    rfl
  · cases h

/-- A graph under construction with at most `size` nodes, which have some of the given names, each of
them once. -/
def NamedOnce (supply : Nat → NodeId) (size : Nat) (names : List String) (g : Graph) : Prop :=
  ∃ nodes edges, Builds supply g nodes edges ∧ nodes.length ≤ size ∧ (namesOf nodes).Sublist names

namespace NamedOnce

variable {g g' : Graph} {size : Nat} {names : List String}

/-- A node adds its own name, if it has one. -/
theorem insertNext (h : NamedOnce supply size names g) (hd : Distinct supply count)
    (hlt : size < count) (n : Node) :
    NamedOnce supply (size + 1) (names ++ n.stateId.toList) (insertNext supply g n).2 := by
  obtain ⟨nodes, edges, hb, hsize, hnames⟩ := h
  obtain ⟨-, hbuilds, -⟩ := hb.insertNext hd (by omega) n
  refine ⟨_, edges, hbuilds, ?_, ?_⟩
  · rw [List.length_append, List.length_singleton]
    omega
  · rw [namesOf, List.filterMap_append]
    refine hnames.append ?_
    cases hid : n.stateId <;> simp [hid]

theorem addEdge (h : NamedOnce supply size names g) {e : Edge} (he : g.addEdge e = .ok g') :
    NamedOnce supply size names g' := by
  obtain ⟨nodes, edges, hb, hsize, hnames⟩ := h
  exact ⟨nodes, _, (hb.addEdge he).1, hsize, hnames⟩

theorem mono (h : NamedOnce supply size names g) {size' : Nat} {names' : List String}
    (hsize : size ≤ size') (hnames : names.Sublist names') : NamedOnce supply size' names' g := by
  obtain ⟨nodes, edges, hb, hle, hsub⟩ := h
  exact ⟨nodes, edges, hb, hle.trans hsize, hsub.trans hnames⟩

/-- The node of error handlers has no name. -/
theorem addHandlers (h : NamedOnce supply size names g) (hd : Distinct supply count)
    (hlt : size < count) {owner : String} {hs : List CatchEntry} {node : HandlerNode}
    (hadd : addHandlers c supply g owner hs = .ok (node, g')) :
    NamedOnce supply (size + 1) names g' := by
  unfold Import.addHandlers at hadd
  obtain ⟨t, -, hadd⟩ := Except.bind_eq_ok_iff.1 hadd
  obtain ⟨⟨raw, targets⟩, hraw, hadd⟩ := Except.bind_eq_ok_iff.1 hadd
  have hnone := stateId_of_nodeOf hraw
  obtain ⟨n, hnone, heq⟩ : ∃ n : Node, n.stateId = none ∧ (Import.insertNext supply g n).2 = g' :=
    ⟨{ raw with outputs := NodeSpec.outputCount t _ (NodeSpec.outputs t) }, hnone,
      (Prod.mk.inj (Except.ok.inj hadd)).2⟩
  have hnext := h.insertNext hd hlt n
  rwa [hnone, Option.toList_none, List.append_nil, heq] at hnext

/-- A state adds its name, and its error handlers none. -/
theorem addState {t : T} {s : State} {d d' : Draft} (h : NamedOnce supply size names d.graph)
    (hd : Distinct supply count) (hlt : size + 1 < count)
    (hadd : addState c supply t d s = .ok d') :
    NamedOnce supply (size + 2) (names ++ [s.id]) d'.graph := by
  obtain ⟨raw, targets, handlers, g', -, hhandlers, rfl⟩ := addState_eq_ok hadd
  have hnext : NamedOnce supply (size + 1) (names ++ [s.id])
      (Import.insertNext supply d.graph (stateNode t s raw)).2 := by
    have hnamed := h.insertNext hd (Nat.lt_of_succ_lt hlt) (stateNode t s raw)
    rwa [stateNode, Option.toList_some] at hnamed
  rcases hhandlers with ⟨-, -, rfl⟩ | ⟨hs, node, -, -, hadded⟩
  · exact hnext.mono (by omega) (List.Sublist.refl _)
  · exact hnext.addHandlers hd hlt hadded

theorem takeState {s : State} {d d' : Draft} {trace : List Warning}
    (h : NamedOnce supply size names d.graph) (hd : Distinct supply count) (hlt : size + 1 < count)
    (htake : takeState settings c supply d s = ⟨trace, .ok d'⟩) :
    NamedOnce supply (size + 2) (names ++ [s.id]) d'.graph := by
  unfold Import.takeState at htake
  split at htake
  next t ht => exact h.addState hd hlt (Traced.mk.inj htake).2
  next =>
    have hsame : d'.graph = d.graph := by
      split at htake
      · obtain ⟨_, hpure, -⟩ := Traced.note_bind_eq_ok_iff.1 htake
        cases hpure
        rfl
      · exact absurd htake Traced.fail_ne_ok
    rw [hsame]
    exact h.mono (by omega) (List.sublist_append_left _ _)

theorem foldlM_takeState {states : List State} {d d' : Draft} {trace : List Warning}
    (h : NamedOnce supply size names d.graph) (hd : Distinct supply count)
    (hlt : size + 2 * states.length ≤ count)
    (hfold : states.foldlM (Import.takeState settings c supply) d = ⟨trace, .ok d'⟩) :
    NamedOnce supply (size + 2 * states.length) (names ++ states.map State.id) d'.graph := by
  induction states generalizing d size names trace with
  | nil =>
    cases hfold
    exact h.mono (by simp) (by simp)
  | cons s rest ih =>
    rw [List.length_cons] at hlt
    rw [List.foldlM_cons] at hfold
    obtain ⟨first, d₁, others, hfirst, hrest, rfl⟩ := Traced.bind_eq_ok_iff.1 hfold
    have hnamed := ih (h.takeState hd (by omega) hfirst) (by omega) hrest
    rw [List.append_assoc] at hnamed
    exact hnamed.mono (by rw [List.length_cons]; omega) (List.Sublist.refl _)

/-- The second pass adds edges only. -/
theorem wire {pending : List Pending} {p : Pending} (h : NamedOnce supply size names g)
    (hwire : wire pending g p = .ok g') : NamedOnce supply size names g' := by
  have hdraw : ∀ {owner source targets g g'}, NamedOnce supply size names g →
      drawEdges pending owner source g targets = .ok g' → NamedOnce supply size names g' := by
    intro owner source targets g g' h hdraw
    refine Except.foldlM_induction (P := NamedOnce supply size names) ?_ h hdraw
    rintro g₁ ⟨port, name⟩ - g₂ h₁ hadd
    obtain ⟨id, -, hadd⟩ := Except.bind_eq_ok_iff.1 hadd
    exact h₁.addEdge hadd
  unfold Import.wire at hwire
  split at hwire
  next => exact hdraw h hwire
  next => cases hwire
  next =>
    obtain ⟨g₁, hadd, hwire⟩ := Except.bind_eq_ok_iff.1 hwire
    obtain ⟨g₂, hhandlers, hwire⟩ := Except.bind_eq_ok_iff.1 hwire
    exact hdraw (hdraw (h.addEdge hadd) hhandlers) hwire

/-- No name was given to two nodes. -/
theorem namesDiffer (h : NamedOnce supply size names g) (hnd : names.Nodup) :
    (∃ edges, g.Sound edges) ∧ g.NamesDiffer := by
  obtain ⟨nodes, edges, hb, -, hnames⟩ := h
  refine ⟨⟨edges, hb.sound⟩, ?_⟩
  have hapart : nodes.Pairwise Apart :=
    (List.pairwise_filterMap.1 (hnd.sublist hnames)).imp
      fun h name ha hb => absurd rfl (h name ha name hb)
  rintro id other name ⟨n, hn, -, hname⟩ ⟨m, hm, -, hname'⟩
  rw [hb.shows.node?_eq_some_iff] at hn hm
  exact hapart.forall_of_forall (fun _ _ _ _ _ => rfl) hn hm name hname hname'

end NamedOnce

/-- The nodes of an imported graph have different names. -/
theorem toGraph_namesDiffer {d : Document} (hd : Distinct supply (1 + 2 * d.states.length))
    {r : Imported} (h : (d.toGraph settings c supply).outcome = .ok r) :
    (∃ edges, r.graph.Sound edges) ∧ r.graph.NamesDiffer := by
  obtain ⟨hrep, start, entry, g₀, _, draft, _, node, g₁, hstart, hfold, -, hentry, hwire, -⟩ :=
    toGraph_eq_ok h
  have hempty : NamedOnce supply 0 [] (.empty ⟨d.functions, d.extra⟩) :=
    ⟨[], [], ⟨Graph.shows_empty _, Graph.sound_empty _, rfl, fun _ => .nil⟩, Nat.le_refl _,
      List.nil_sublist _⟩
  have hg₀ : NamedOnce supply 1 [] g₀ := by
    unfold addStart at hstart
    obtain ⟨t, -, hstart⟩ := Except.bind_eq_ok_iff.1 hstart
    obtain ⟨⟨raw, targets⟩, hraw, hstart⟩ := Except.bind_eq_ok_iff.1 hstart
    have hnone := stateId_of_nodeOf hraw
    obtain ⟨n, hnone, heq⟩ : ∃ n : Node, n.stateId = none ∧
        (insertNext supply (.empty ⟨d.functions, d.extra⟩) n).2 = g₀ :=
      ⟨{ raw with initialized := true }, hnone,
        (Prod.mk.inj (Prod.mk.inj (Except.ok.inj hstart)).2).2⟩
    have hnext := hempty.insertNext hd (by omega) n
    rwa [hnone, Option.toList_none, heq] at hnext
  have hdraft := hg₀.foldlM_takeState hd (Nat.le_refl _) hfold
  -- Edges name no node.
  have hg₁ : NamedOnce supply (1 + 2 * d.states.length) (d.states.map State.id) g₁ := by
    rcases hentry with ⟨-, rfl⟩ | ⟨id, -, hadd⟩
    · exact hdraft
    · exact hdraft.addEdge hadd
  have hnamed : NamedOnce supply (1 + 2 * d.states.length) (d.states.map State.id) r.graph :=
    Except.foldlM_induction (P := NamedOnce supply _ _) (fun _ _ _ _ hg hw => hg.wire hw) hg₁ hwire
  exact hnamed.namesDiffer (repeatedId?_eq_none_iff.1 hrep).1

end Workflow.Import
