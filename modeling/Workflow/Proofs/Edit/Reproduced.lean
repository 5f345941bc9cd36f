import Workflow.Proofs.Edit.Exclusive
import Workflow.Proofs.Import.Reproduced

/-!
# Edited graphs that are compiled and imported

Calls that are checked keep a graph orderly: new nodes have a type, and the types of the editor have
no output that takes more than one edge (`Edit.node?_apply`, `Edit.Session.orderly`). So a document
that was compiled after a session is imported as the graph that was edited, as far as the document
tells it (`Edit.session_reproduced`).
-/

namespace Workflow

namespace Graph

/-- No node of the graph takes more than one edge on an output, and no form repeats a key. -/
def Plain (g : Graph) : Prop :=
  ∀ id n, g.node? id = some n → n.fanOut = [] ∧ Json.KeyedFields n.form

/-- While no node takes more than one edge on an output, the edges of a node leave it by different
outputs. -/
theorem Sound.nodup_outputs {g : Graph} {edges : List Edge} (h : g.Sound edges)
    (hfan : ∀ id n, g.node? id = some n → n.fanOut = []) (id : NodeId) :
    ((g.outgoing id).map Edge.output).Nodup := by
  rw [h.outgoing_eq, List.nodup_iff_count_le_one]
  intro p
  rw [List.count_eq_countP, List.countP_map, List.countP_filter, List.countP_eq_length_filter]
  have hcomm : (edges.filter fun e => (((· == p) ∘ Edge.output) e) && decide (e.source = id))
      = edges.filter fun e => e.source = id && e.output = p :=
    List.filter_congr fun e _ => by rw [Bool.and_comm, Function.comp_apply, beq_eq_decide]
  rw [hcomm]
  cases hn : g.node? id with
  | none =>
    have hnil : (edges.filter fun e => e.source = id && e.output = p) = [] := by
      rw [List.filter_eq_nil_iff]
      intro e he hout
      simp only [Bool.and_eq_true, decide_eq_true_eq] at hout
      obtain ⟨source, -, hs, -⟩ := h.exists_ends he
      rw [hout.1, hn] at hs
      cases hs
    rw [hnil]
    exact Nat.zero_le 1
  | some n => exact h.single id n p hn (by rw [Node.allowsFanOut, hfan id n hn]; rfl)

theorem Exclusive.orderly {g : Graph} {edges : List Edge} (h : g.Exclusive .standard edges)
    (hplain : g.Plain) : g.Orderly where
  consistent := h.consistent
  typed := h.typed
  keyed id n hn := (hplain id n hn).2
  single := h.nodup_outputs fun id n hn => (hplain id n hn).1

end Graph

namespace Edit

variable {g : Graph} {edges : List Edge}

/-- The forms that a call brings in repeat no key. -/
def HasKeyedForm : Edit → Prop
  | add _ _ form | setForm _ form => Json.KeyedFields form
  | insert _ n => Json.KeyedFields n.form
  | _ => True

instance (e : Edit) : Decidable e.HasKeyedForm :=
  match e with
  | add _ _ form | setForm _ form => inferInstanceAs (Decidable (Json.KeyedFields form))
  | insert _ n => inferInstanceAs (Decidable (Json.KeyedFields n.form))
  | erase _ | addEdge _ | connect _ | eraseEdge _ | rename _ _ | resizeOutputs _ _
  | setInitialized _ _ => .isTrue trivial

/-- A node after a checked call is a new one, or one that was there, with the same form unless the
call is about it. -/
theorem node?_apply {c : Catalog} (h : g.Exclusive c edges) {e : Edit} (hchecked : e.IsChecked)
    {id : NodeId} {m : Node} (hm : (e.apply c g).node? id = some m) :
    (∃ kind t form, e = .add id kind form ∧ c.get? kind = some t ∧ m = .ofType kind t form) ∨
      ∃ n, g.node? id = some n ∧ m.fanOut = n.fanOut ∧ (m.form = n.form ∨ e = .setForm id m.form) := by
  have heffect := e.effect c g
  generalize e.apply c g = g' at heffect hm
  have hold : g.node? id = some m → ∃ n, g.node? id = some n ∧ m.fanOut = n.fanOut ∧
      (m.form = n.form ∨ e = .setForm id m.form) := fun hn => ⟨m, hn, rfl, .inl rfl⟩
  have hsame : ∀ other (f : Node → Node),
      (if other = id then (g.node? id).map f else g.node? id) = some m →
      (∀ n, (f n).fanOut = n.fanOut ∧ (f n).form = n.form) →
      ∃ n, g.node? id = some n ∧ m.fanOut = n.fanOut ∧
        (m.form = n.form ∨ e = .setForm id m.form) := by
    intro other f hm hf
    split at hm
    next =>
      obtain ⟨n, hn, rfl⟩ := Option.map_eq_some_iff.1 hm
      exact ⟨n, hn, (hf n).1, .inl (hf n).2⟩
    next => exact hold hm
  cases heffect with
  | unchanged => exact .inr (hold hm)
  | @added other kind t form ht =>
    rw [h.consistent.node?_insert] at hm
    split at hm
    next heq =>
      cases hm
      exact .inl ⟨kind, t, form, by rw [heq], ht, rfl⟩
    next => exact .inr (hold hm)
  | inserted => cases hchecked
  | erased =>
    rw [h.consistent.node?_erase] at hm
    split at hm
    next => cases hm
    next => exact .inr (hold hm)
  | edgeAdded => cases hchecked
  | connected hrest hadd =>
    rw [Graph.node?_addEdge hadd] at hm
    rcases hrest with rfl | ⟨displaced, rfl⟩
    · exact .inr (hold hm)
    · exact .inr (hold (by rwa [Graph.node?_eraseEdge] at hm))
  | displaced | edgeErased => exact .inr (hold (by rwa [Graph.node?_eraseEdge] at hm))
  | resized hid =>
    rw [h.node?_resizeOutputs hid] at hm
    exact .inr (hsame _ _ hm fun n => ⟨rfl, rfl⟩)
  | renamed | initializedSet =>
    rw [h.consistent.node?_modify] at hm
    exact .inr (hsame _ _ hm fun n => ⟨rfl, rfl⟩)
  | formSet =>
    rw [h.consistent.node?_modify] at hm
    split at hm
    next heq =>
      obtain ⟨n, hn, rfl⟩ := Option.map_eq_some_iff.1 hm
      exact .inr ⟨n, hn, rfl, .inr (by rw [heq])⟩
    next => exact .inr (hold hm)

/-- Checked calls keep a graph plain. -/
theorem apply_plain (h : g.Exclusive .standard edges) (hplain : g.Plain) {e : Edit}
    (hchecked : e.IsChecked) (hkeyed : e.HasKeyedForm) : (e.apply .standard g).Plain := by
  intro id m hm
  rcases node?_apply h hchecked hm with ⟨kind, t, form, rfl, ht, rfl⟩ | ⟨n, hn, hfan, hform⟩
  · exact ⟨Import.fanOut_of_standard ht, hkeyed⟩
  · refine ⟨hfan.trans (hplain id n hn).1, ?_⟩
    rcases hform with hform | rfl
    · rw [hform]
      exact (hplain id n hn).2
    · exact hkeyed

/-- Sessions of checked calls on an empty graph end with an orderly graph. -/
theorem Session.orderly {metadata : Metadata}
    (h : Session .standard (fun g e => e.Fresh g ∧ e.IsChecked ∧ e.HasKeyedForm) (.empty metadata) g) :
    g.Orderly := by
  obtain ⟨⟨edges, hedges⟩, hplain⟩ :=
    Session.keeps (P := fun g => (∃ edges, g.Exclusive .standard edges) ∧ g.Plain)
      (fun _ _ ⟨⟨_, hg⟩, hplain⟩ ⟨hfresh, hchecked, hkeyed⟩ =>
        ⟨apply_exclusive hg hfresh hchecked, apply_plain hg hplain hchecked hkeyed⟩) h
      ⟨⟨[], .empty metadata⟩, fun _ _ hn => nomatch hn⟩
  exact hedges.orderly hplain

/-- A document that was compiled after a session on an empty graph is imported without an error, no
state is left out, and the new graph has the edges between the states of the document and their
error-catch nodes that the old one has. -/
theorem session_reproduced {metadata : Metadata} {d : Document}
    (h : Session .standard (fun g e => e.Fresh g ∧ e.IsChecked ∧ e.HasKeyedForm) (.empty metadata) g)
    (hcompile : (g.compile .standard).outcome = .ok d) (settings : Settings)
    {supply : Nat → NodeId} (hsupply : Import.Distinct supply (1 + 2 * d.states.length)) :
    ∃ r, (d.toGraph settings .standard supply).outcome = .ok r ∧ r.skipped = [] ∧
      Compile.Reproduces g r.graph (d.states.map State.id) := by
  have hg := Session.orderly h
  obtain ⟨entry, ids, hemits⟩ := Compile.emits_of_compile hg.consistent.labelled hcompile
  obtain ⟨r, hr, hskipped, -, hdrawn⟩ := hemits.toGraph_ok hg hsupply
  exact ⟨r, hr, hskipped, hemits.reproduces hg hdrawn⟩

/-- Calls that build two states which lead to each other and share an error-catch node; their forms
name states that do not exist. -/
def sharing : List Edit :=
  [.add (.ofNat 0) "start" [],
    .add (.ofNat 1) "switch"
      [("conditions", .arr [.obj [("transition", .str "stale")]]), ("defaultTransition", .str "a")],
    .add (.ofNat 2) "noop" [("transition", .str "stale")],
    .add (.ofNat 3) "error-catch" [("catch", .arr [.obj [("error", .str "E")]])],
    .rename (.ofNat 1) "a", .rename (.ofNat 2) "b", .resizeOutputs (.ofNat 1) 3,
    .connect ⟨.ofNat 0, 1, .ofNat 1, 1⟩, .connect ⟨.ofNat 1, 3, .ofNat 2, 1⟩,
    .connect ⟨.ofNat 1, 2, .ofNat 3, 1⟩, .connect ⟨.ofNat 2, 1, .ofNat 1, 1⟩,
    .connect ⟨.ofNat 2, 2, .ofNat 3, 1⟩, .connect ⟨.ofNat 3, 1, .ofNat 2, 1⟩,
    .setInitialized (.ofNat 1) true, .setInitialized (.ofNat 2) true]

/-- The graph after `sharing`. -/
def sharedGraph : Graph := run .standard (.empty .empty) sharing

/-- The document of `sharedGraph`. -/
def sharedDocument : Document :=
  ⟨[], none, some ⟨none, some "a", []⟩,
    [⟨"a", "switch", [("conditions", .arr [.obj [("transition", .str "b")]])],
        some [⟨"E", some "b", []⟩]⟩,
      ⟨"b", "noop", [("transition", .str "a")], some [⟨"E", some "b", []⟩]⟩]⟩

theorem session_reproduced_shared :
    (sharedGraph.compile .standard).outcome = .ok sharedDocument ∧
      ∃ r, (sharedDocument.toGraph {} .standard NodeId.ofNat).outcome = .ok r ∧ r.skipped = [] ∧
        Compile.Reproduces sharedGraph r.graph ["a", "b"] := by
  have hallows : Allows .standard (fun g e => e.Fresh g ∧ e.IsChecked ∧ e.HasKeyedForm)
      (.empty .empty) sharing := by decide +kernel
  have hcompile : (sharedGraph.compile .standard).outcome = .ok sharedDocument := by decide +kernel
  exact ⟨hcompile, session_reproduced (Session.run hallows) hcompile {}
    (Import.distinct_ofNat (by decide))⟩

end Edit

end Workflow
