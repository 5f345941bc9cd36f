import Workflow.Proofs.Compile.Clashes
import Workflow.Proofs.Compile.Renamed
import Workflow.Proofs.Edit.Exclusive
import Workflow.Proofs.Edit.Represents
import Workflow.Proofs.Import.Named

/-!
# The ids of states stay apart

Giving a state an id only asks whether the first state with this id is another one, and the start
node and error-catch nodes can be given ids, which nobody asks for. Still no two states ever have the
same id: new nodes have none, and where ids differ the first state with an id is the only one
(`Graph.findState?_eq_some_iff`). So every call but the insertion of a node made elsewhere keeps ids
apart (`apply_namesDiffer`), and `session_names_differ` says what this means for a search, for giving
a state an id, and for a compilation.
-/

namespace Workflow

namespace Graph

variable {g g' : Graph}

/-- Ids differ when each node has none or is a node of before with its id. -/
theorem NamesDiffer.of_nodes (h : g.NamesDiffer)
    (hnodes : ∀ id m, g'.node? id = some m → m.stateId = none ∨
      ∃ n, g.node? id = some n ∧ m.family = n.family ∧ m.stateId = n.stateId) :
    g'.NamesDiffer := by
  have hold : ∀ id name, g'.StandsFor id name → g.StandsFor id name := by
    rintro id name ⟨m, hm, hp, hname⟩
    rcases hnodes id m hm with hnone | ⟨n, hn, hfamily, hid⟩
    · cases hnone.symm.trans hname
    · refine ⟨n, hn, ?_, hid.symm.trans hname⟩
      rwa [Node.isPrimitive, ← hfamily]
  exact fun id other name hid hother => h id other name (hold _ _ hid) (hold _ _ hother)

theorem namesDiffer_empty (metadata : Metadata) : (empty metadata).NamesDiffer := by
  rintro id other name ⟨n, hn, -⟩
  cases hn

/-- A state that is found has the id that was looked for. -/
theorem Consistent.standsFor_of_findState? (hg : g.Consistent) {name : String} {id : NodeId}
    (h : g.findState? name = some id) : g.StandsFor id name := by
  obtain ⟨n, hn, hstate⟩ := listsState_of_findState? h
  exact ⟨n, hg.mem_nodes_iff.1 hn, hstate⟩

/-- Where ids differ the state that is found is the only one. -/
theorem NamesDiffer.findState?_eq_some_iff (h : g.NamesDiffer) (hg : g.Consistent) {name : String}
    {id : NodeId} : g.findState? name = some id ↔ g.StandsFor id name := by
  refine ⟨hg.standsFor_of_findState?, fun hid => ?_⟩
  obtain ⟨other, hother⟩ :=
    exists_findState? ((Compile.listsState_iff hg).2 (Compile.stateName_eq_ok_iff.2 hid))
  rw [hother, h other id name (hg.standsFor_of_findState? hother) hid]

/-- A node is given an id, whether it stands for a state or not, if no other state has it. -/
theorem NamesDiffer.rename_ok_iff (h : g.NamesDiffer) (hg : g.Consistent) {id : NodeId}
    {name : String} : (∃ g', g.rename id name = .ok g') ↔
      g.contains id = true ∧ ∀ other, g.StandsFor other name → other = id := by
  constructor
  · rintro ⟨g', hr⟩
    obtain ⟨hfree, hid, -⟩ := rename_eq_ok_iff.1 hr
    exact ⟨hid, fun other hother => hfree other ((h.findState?_eq_some_iff hg).2 hother)⟩
  · rintro ⟨hid, hfree⟩
    exact ⟨_, rename_eq_ok_iff.2
      ⟨fun other hother => hfree other (hg.standsFor_of_findState? hother), hid, rfl⟩⟩

/-! ### Changes -/

namespace NamesDiffer

theorem insert (h : g.NamesDiffer) (hg : g.Consistent) (id : NodeId) {n : Node}
    (hn : n.stateId = none) : (g.insert id n).NamesDiffer := by
  refine h.of_nodes fun other m hm => ?_
  rw [hg.node?_insert] at hm
  split at hm
  next =>
    cases hm
    exact .inl hn
  next => exact .inr ⟨m, hm, rfl, rfl⟩

/-- A change to a node that is none to its id. -/
theorem modify (h : g.NamesDiffer) (hg : g.Consistent) (id : NodeId) {f : Node → Node}
    (hf : ∀ n, (f n).family = n.family ∧ (f n).stateId = n.stateId) :
    (g.modify id f).NamesDiffer := by
  refine h.of_nodes fun other m hm => .inr ?_
  rw [hg.node?_modify] at hm
  split at hm
  next =>
    obtain ⟨n, hn, rfl⟩ := Option.map_eq_some_iff.1 hm
    exact ⟨n, hn, hf n⟩
  next => exact ⟨m, hm, rfl, rfl⟩

theorem erase (h : g.NamesDiffer) (hg : g.Consistent) (id : NodeId) :
    (g.erase id).NamesDiffer := by
  refine h.of_nodes fun other m hm => .inr ?_
  rw [hg.node?_erase] at hm
  split at hm
  next => cases hm
  next => exact ⟨m, hm, rfl, rfl⟩

/-- Edges do not matter. -/
theorem congr (h : g.NamesDiffer) (hnode : ∀ id, g'.node? id = g.node? id) : g'.NamesDiffer :=
  h.of_nodes fun id m hm => .inr ⟨m, (hnode id).symm.trans hm, rfl, rfl⟩

theorem resizeOutputs {edges : List Edge} (h : g.NamesDiffer) (hg : g.Holds edges) {id : NodeId}
    (hid : g.contains id = true) (count : PortCount) : (g.resizeOutputs id count).1.NamesDiffer := by
  refine h.of_nodes fun other m hm => .inr ?_
  rw [hg.node?_resizeOutputs hid] at hm
  split at hm
  next =>
    obtain ⟨n, hn, rfl⟩ := Option.map_eq_some_iff.1 hm
    exact ⟨n, hn, rfl, rfl⟩
  next => exact ⟨m, hm, rfl, rfl⟩

/-- A new id differs from the others when the search does not find it at another node. -/
theorem rename (h : g.NamesDiffer) (hg : g.Consistent) {id : NodeId} {name : String}
    (hfree : ∀ other, g.findState? name = some other → other = id) :
    (g.modify id fun n => { n with stateId := some name }).NamesDiffer := by
  have hsplit : ∀ x word,
      (g.modify id fun n => { n with stateId := some name }).StandsFor x word →
        x = id ∧ word = name ∨ g.StandsFor x word := by
    rintro x word ⟨m, hm, hp, hword⟩
    rw [hg.node?_modify] at hm
    split at hm
    next hx =>
      obtain ⟨n, -, rfl⟩ := Option.map_eq_some_iff.1 hm
      exact .inl ⟨hx.symm, (Option.some.inj hword).symm⟩
    next => exact .inr ⟨m, hm, hp, hword⟩
  have hother : ∀ x, g.StandsFor x name → x = id := fun x hx =>
    hfree x ((h.findState?_eq_some_iff hg).2 hx)
  intro x y word hx' hy'
  rcases hsplit x word hx' with ⟨rfl, rfl⟩ | hx <;> rcases hsplit y word hy' with ⟨rfl, hword⟩ | hy
  · rfl
  · exact (hother y hy).symm
  · exact hother x (hword ▸ hx)
  · exact h x y word hx hy

end NamesDiffer

end Graph

/-! ### Sessions -/

namespace Edit

variable {T : Type} [NodeSpec T] {c : Catalog T} {g : Graph}

/-- Nodes come from the call that looks up their type. -/
def IsNative : Edit → Prop
  | insert _ _ => False
  | _ => True

instance (e : Edit) : Decidable e.IsNative :=
  match e with
  | insert _ _ => .isFalse id
  | add _ _ _ | erase _ | addEdge _ | connect _ | eraseEdge _ | rename _ _ | resizeOutputs _ _
  | setForm _ _ | setInitialized _ _ => .isTrue trivial

/-- Every call but the insertion of a node keeps the ids of states apart. -/
theorem apply_namesDiffer {edges : List Edge} (hg : g.Sound edges) (h : g.NamesDiffer) {e : Edit}
    (hnative : e.IsNative) : (e.apply c g).NamesDiffer := by
  have heffect := e.effect c g
  generalize e.apply c g = g' at heffect
  cases heffect with
  | unchanged => exact h
  | added => exact h.insert hg.consistent _ rfl
  | inserted => cases hnative
  | erased => exact h.erase hg.consistent _
  | edgeAdded hadd => exact h.congr (Graph.node?_addEdge hadd)
  | connected hrest hadd =>
    rcases hrest with rfl | ⟨displaced, rfl⟩
    · exact h.congr (Graph.node?_addEdge hadd)
    · exact (h.congr (g.node?_eraseEdge displaced)).congr (Graph.node?_addEdge hadd)
  | displaced => exact h.congr (g.node?_eraseEdge _)
  | edgeErased => exact h.congr (g.node?_eraseEdge _)
  | resized hid => exact h.resizeOutputs hg.toHolds hid _
  | renamed hfree => exact h.rename hg.consistent hfree
  | formSet => exact h.modify hg.consistent _ fun _ => ⟨rfl, rfl⟩
  | initializedSet => exact h.modify hg.consistent _ fun _ => ⟨rfl, rfl⟩

/-- Sessions without insertions keep the ids of states apart. -/
theorem Session.namesDiffer {g' : Graph}
    (h : Session c (fun g e => e.Fresh g ∧ e.IsNative) g g')
    (hg : (∃ edges, g.Sound edges) ∧ g.NamesDiffer) :
    (∃ edges, g'.Sound edges) ∧ g'.NamesDiffer :=
  Session.keeps (P := fun g => (∃ edges, g.Sound edges) ∧ g.NamesDiffer)
    (fun _ _ ⟨⟨_, hg⟩, hnames⟩ he => ⟨apply_sound hg he.1, apply_namesDiffer hg hnames he.2⟩) h hg

/-- A graph without nodes, or an imported one. -/
def IsNativeOrigin (g : Graph) : Prop :=
  (∃ metadata, g = .empty metadata) ∨
    ∃ (T : Type) (_ : NodeSpec T) (settings : Settings) (c : Catalog T) (supply : Nat → NodeId)
      (d : Document) (r : Imported), Import.Distinct supply (1 + 2 * d.states.length) ∧
        (d.toGraph settings c supply).outcome = .ok r ∧ r.graph = g

theorem IsNativeOrigin.namesDiffer (h : IsNativeOrigin g) :
    (∃ edges, g.Sound edges) ∧ g.NamesDiffer := by
  rcases h with ⟨metadata, rfl⟩ | ⟨_, _, settings, c, supply, d, r, hd, hr, rfl⟩
  · exact ⟨⟨[], Graph.sound_empty metadata⟩, Graph.namesDiffer_empty metadata⟩
  · exact Import.toGraph_namesDiffer hd hr

/-- After any session without insertions, from a graph without nodes or an imported one, no two nodes
stand for states of one id, the search for an id finds the node that stands for this state, giving a
node an id succeeds if the node exists and no other state has the id, and no compilation, whatever
its catalog, complains about two states of one id. -/
theorem session_names_differ {start : Graph} (hstart : IsNativeOrigin start)
    (h : Session c (fun g e => e.Fresh g ∧ e.IsNative) start g) :
    (∀ id other name, g.StandsFor id name → g.StandsFor other name → id = other) ∧
      (∀ id name, g.findState? name = some id ↔ g.StandsFor id name) ∧
      (∀ id name, (∃ g', g.rename id name = .ok g') ↔
        g.contains id = true ∧ ∀ other, g.StandsFor other name → other = id) ∧
      ∀ (T' : Type) [NodeSpec T'] (c' : Catalog T') (name : String),
        (g.compile c').outcome ≠ .error (.duplicateStateId name) := by
  obtain ⟨⟨edges, hg⟩, hnames⟩ := Session.namesDiffer h hstart.namesDiffer
  refine ⟨hnames, fun id name => hnames.findState?_eq_some_iff hg.consistent,
    fun id name => hnames.rename_ok_iff hg.consistent, fun _ _ c' name hclash => ?_⟩
  exact Compile.compile_noClash hg.toHolds hnames _ hclash name rfl

/-- Calls that give nodes ids. Three of them fail: the id of another state, once for a state and once
for the start node, and an id for a node that does not exist. An error-catch node is given an id that
a state is given after it, and another id is free again when its state is gone. -/
def naming : List Edit :=
  [.add (.ofNat 9) "noop" [], .rename (.ofNat 9) "a", .rename (.ofNat 0) "a",
    .rename (.ofNat 7) "z", .rename (.ofNat 2) "c", .rename (.ofNat 9) "c", .rename (.ofNat 9) "c",
    .erase (.ofNat 3), .rename (.ofNat 9) "b", .connect ⟨.ofNat 1, 1, .ofNat 9, 1⟩]

theorem session_names_differ_naming :
    (run .standard sampleGraph naming).findState? "b" = some (.ofNat 9) ∧
      (∀ other, (run .standard sampleGraph naming).StandsFor other "b" → other = .ofNat 9) ∧
      (¬∃ g', (run .standard sampleGraph naming).rename (.ofNat 1) "b" = .ok g') ∧
      ∃ g', (run .standard sampleGraph naming).rename (.ofNat 1) "c" = .ok g' := by
  have hok : (Import.sampleDocument.toGraph {} .standard NodeId.ofNat).outcome.toOption.map
      Imported.graph = some sampleGraph := by decide +kernel
  have hstart : IsNativeOrigin sampleGraph := by
    cases hr : (Import.sampleDocument.toGraph {} .standard NodeId.ofNat).outcome with
    | error reason =>
      rw [hr] at hok
      cases hok
    | ok r =>
      rw [hr] at hok
      exact .inr ⟨_, _, {}, .standard, NodeId.ofNat, Import.sampleDocument, r,
        Import.distinct_ofNat (by decide), hr, Option.some.inj hok⟩
  have hallows : Allows .standard (fun g e => e.Fresh g ∧ e.IsNative) sampleGraph naming := by
    decide +kernel
  obtain ⟨hdiffer, hfind, hrename, -⟩ := session_names_differ hstart (Session.run hallows)
  have hb : (run .standard sampleGraph naming).findState? "b" = some (.ofNat 9) := by
    decide +kernel
  have hc : (run .standard sampleGraph naming).findState? "c" = none := by decide +kernel
  refine ⟨hb, fun other hother => hdiffer _ _ _ hother ((hfind _ _).1 hb), fun hok => ?_, ?_⟩
  · have heq := ((hrename _ _).1 hok).2 _ ((hfind _ _).1 hb)
    exact absurd heq (by decide)
  · refine (hrename _ _).2 ⟨by decide +kernel, fun other hother => ?_⟩
    cases hc.symm.trans ((hfind _ _).2 hother)

end Edit

end Workflow
