import Workflow.Proofs.Edit.Basic
import Workflow.Proofs.Import.Wiring

/-!
# Error outputs and error-catch nodes

With the types of the editor, the error outputs of states, and no other outputs, lead to error-catch
nodes, and every other edge leads to a state. `Exclusive` is the invariant behind this: every node
has the family and the inputs of its type, and no rule for edges speaks against any edge. Every call
keeps it as long as nodes and edges come from the calls that check them (`Edit.apply_exclusive`),
and a graph that was imported has it, although an import adds its edges unchecked
(`Import.exclusive_of_builds`). `Edit.session_exclusive` tells what it says about the edges.
-/

namespace Workflow

namespace Graph

variable {T : Type} [NodeSpec T]

/-- No rule for edges speaks against an edge of the graph. -/
structure Exclusive (c : Catalog T) (g : Graph) (edges : List Edge) : Prop
    extends g.Sound edges where
  typed : ∀ id n, g.node? id = some n → IsTyped c n
  allowed : ∀ e ∈ edges, ∀ source target, g.node? e.source = some source →
    g.node? e.target = some target → refusal? c source target e.output = .ok none

/-- The rules for edges only ask for the types and families of the two nodes. -/
theorem refusal?_congr {c : Catalog T} {source source' target target' : Node} {p : Port}
    (hsource : source'.kind = source.kind ∧ source'.family = source.family)
    (htarget : target'.kind = target.kind ∧ target'.family = target.family) :
    refusal? c source' target' p = refusal? c source target p := by
  have hprimitive : source'.isPrimitive = source.isPrimitive := by
    rw [Node.isPrimitive, Node.isPrimitive, hsource.2]
  have hcatch : target'.isCatch = target.isCatch := by
    rw [Node.isCatch, Node.isCatch, htarget.1, htarget.2]
  rw [refusal?, refusal?, hprimitive, hcatch, hsource.1]

namespace Exclusive

variable {c : Catalog T} {g g' : Graph} {edges edges' : List Edge}

theorem empty (metadata : Metadata) : (Graph.empty metadata).Exclusive c [] where
  toSound := sound_empty metadata
  typed _ _ hn := nomatch hn
  allowed := nofun

/-- A graph with fewer edges is exclusive when each of its nodes is one that no edge touches, or has
the type, the family and the inputs of a node there was before. -/
theorem of_nodes (h : g.Exclusive c edges) (hg' : g'.Sound edges') (hsub : edges' ⊆ edges)
    (hnodes : ∀ id m, g'.node? id = some m →
      (IsTyped c m ∧ ∀ e ∈ edges', e.source ≠ id ∧ e.target ≠ id) ∨
      ∃ n, g.node? id = some n ∧ m.kind = n.kind ∧ m.family = n.family ∧ m.inputs = n.inputs) :
    g'.Exclusive c edges' where
  toSound := hg'
  typed id m hm := by
    rcases hnodes id m hm with ⟨htyped, -⟩ | ⟨n, hn, hkind, hfamily, hinputs⟩
    · exact htyped
    · obtain ⟨t, ht, hf, hi⟩ := h.typed id n hn
      exact ⟨t, hkind ▸ ht, hfamily ▸ hf, hinputs ▸ hi⟩
  allowed e he source' target' hs' ht' := by
    rcases hnodes _ _ hs' with ⟨-, hfree⟩ | ⟨source, hs, hskind, hsfamily, -⟩
    · exact absurd rfl (hfree e he).1
    rcases hnodes _ _ ht' with ⟨-, hfree⟩ | ⟨target, ht, htkind, htfamily, -⟩
    · exact absurd rfl (hfree e he).2
    rw [refusal?_congr ⟨hskind, hsfamily⟩ ⟨htkind, htfamily⟩]
    exact h.allowed e (hsub he) source target hs ht

theorem insert (h : g.Exclusive c edges) {id : NodeId} (hid : g.contains id = false) {n : Node}
    (hn : IsTyped c n) : (g.insert id n).Exclusive c edges := by
  refine h.of_nodes (h.toSound.insert hid n) (List.Subset.refl _) fun other m hm => ?_
  rw [h.consistent.node?_insert] at hm
  split at hm
  next heq =>
    cases hm
    exact .inl ⟨hn, fun e he => heq ▸ h.toHolds.ne_of_not_contains hid he⟩
  next => exact .inr ⟨m, hm, rfl, rfl, rfl⟩

theorem modify (h : g.Exclusive c edges) (id : NodeId) {f : Node → Node}
    (hf : ∀ n, SameShape n (f n)) : (g.modify id f).Exclusive c edges := by
  have hsound := h.toSound.modify id fun n => ⟨(hf n).inputs, (hf n).outputs, (hf n).fanOut⟩
  refine h.of_nodes hsound (List.Subset.refl _) fun other m hm => .inr ?_
  rw [h.consistent.node?_modify] at hm
  split at hm
  next =>
    obtain ⟨n, hn, rfl⟩ := Option.map_eq_some_iff.1 hm
    exact ⟨n, hn, (hf n).kind, (hf n).family, (hf n).inputs⟩
  next => exact ⟨m, hm, rfl, rfl, rfl⟩

theorem eraseEdge (h : g.Exclusive c edges) (e : Edge) :
    ((g.eraseEdge? e).getD g).Exclusive c (withoutNewest e edges) := by
  refine h.of_nodes (h.toSound.eraseEdge e) (withoutNewest_sublist e edges).subset
    fun id m hm => .inr ?_
  rw [node?_eraseEdge] at hm
  exact ⟨m, hm, rfl, rfl, rfl⟩

theorem erase (h : g.Exclusive c edges) (id : NodeId) :
    (g.erase id).Exclusive c (edges.filter fun e => e.source ≠ id && e.target ≠ id) := by
  refine h.of_nodes (h.toSound.erase id) List.filter_sublist.subset fun other m hm => .inr ?_
  rw [h.consistent.node?_erase] at hm
  split at hm
  next => cases hm
  next => exact ⟨m, hm, rfl, rfl, rfl⟩

theorem resizeOutputs (h : g.Exclusive c edges) {id : NodeId} (hid : g.contains id = true)
    (count : PortCount) :
    (g.resizeOutputs id count).1.Exclusive c
      (edges.filter fun e => !(decide (e.source = id) && !e.output.isWithin count)) := by
  refine h.of_nodes (h.toSound.resizeOutputs hid count) List.filter_sublist.subset
    fun other m hm => .inr ?_
  rw [h.node?_resizeOutputs hid] at hm
  split at hm
  next =>
    obtain ⟨n, hn, rfl⟩ := Option.map_eq_some_iff.1 hm
    exact ⟨n, hn, rfl, rfl, rfl⟩
  next => exact ⟨m, hm, rfl, rfl, rfl⟩

/-- An edge that no rule speaks against may be added. -/
theorem addEdge (h : g.Exclusive c edges) {e : Edge} (he : g.addEdge e = .ok g')
    (hallowed : ∀ source target, g.node? e.source = some source → g.node? e.target = some target →
      refusal? c source target e.output = .ok none) : g'.Exclusive c (edges ++ [e]) where
  toSound := h.toSound.addEdge he
  typed id n hn := h.typed id n (by rwa [node?_addEdge he] at hn)
  allowed f hf source target hs ht := by
    rw [node?_addEdge he] at hs ht
    rcases List.mem_append.1 hf with hf | hf
    · exact h.allowed f hf source target hs ht
    · obtain rfl := List.mem_singleton.1 hf
      exact hallowed source target hs ht

/-- An edge that does not arrive at an error-catch node arrives at a state, as long as the types
that are no types of states have no inputs, that of error-catch nodes aside. -/
theorem isPrimitive_of_not_isCatch (h : g.Exclusive c edges)
    (hspecial : ∀ kind t, c.get? kind = some t → NodeSpec.family t = .special →
      NodeSpec.inputs t = 0 ∨ kind = NodeType.catchName)
    {id : NodeId} {target : Node} (ht : g.node? id = some target) {p : Port}
    (hp : p.isWithin target.inputs = true) (hcatch : target.isCatch = false) :
    target.isPrimitive = true := by
  obtain ⟨t, hkind, hfamily, hinputs⟩ := h.typed _ _ ht
  cases hf : NodeSpec.family t with
  | primitive => exact decide_eq_true (hfamily.trans hf)
  | special =>
    rcases hspecial _ t hkind hf with hnone | hname
    · rw [hinputs, hnone, Port.isWithin_iff] at hp
      exact absurd (Nat.le_trans hp.1 hp.2) (by decide)
    · rw [Node.isCatch, hname, hfamily.trans hf] at hcatch
      cases hcatch

end Exclusive

end Graph

/-! ### Imported graphs -/

namespace Import

open TransitionRule

variable {settings : Settings} {supply : Nat → NodeId} {d : Document} {g : Graph} {es : List Edge}

/-- A graph that was built from a document whose states have types of states is exclusive. -/
theorem exclusive_of_builds {entry : Option String}
    (hprimitive : ∀ s ∈ d.states, ∀ t, Catalog.standard.get? s.kind = some t →
      t.isPrimitive = true)
    (hes : entryEdges settings supply (places .standard d) entry ++
      (places .standard d).flatMap (Place.edges supply (places .standard d)) = es.map some)
    (hb : Builds supply g (nodesOf .standard supply d) es) : g.Exclusive .standard es where
  toSound := hb.sound
  typed id n hn := isTyped_nodesOf _ (hb.shows.node?_eq_some_iff.1 hn)
  allowed e he source target hs ht := by
    have hplace : ∀ p ∈ places .standard d, p.node.isPrimitive = true ∧ p.node.isCatch = false := by
      intro p hp
      obtain ⟨hkind, hmem⟩ := get?_of_mem_layout hp
      have hp := hprimitive _ hmem _ hkind
      refine ⟨hp, ?_⟩
      rw [Node.isCatch, show p.node.family = .primitive from of_decide_eq_true hp]
      rfl
    have hsource : ∀ {id n}, (id, n) ∈ nodesOf .standard supply d → e.source = id → source = n := by
      rintro id n hmem rfl
      exact Option.some.inj (hs.symm.trans (hb.shows.node?_eq_some_iff.2 hmem))
    have htarget : ∀ {id n}, (id, n) ∈ nodesOf .standard supply d → e.target = id → target = n := by
      rintro id n hmem rfl
      exact Option.some.inj (ht.symm.trans (hb.shows.node?_eq_some_iff.2 hmem))
    -- Where a name leads to there is the node of a state.
    have hnamed : ∀ {id targets}, some e ∈ edgesTo supply (places .standard d) id targets →
        e.source = id ∧ target.isCatch = false := by
      intro id targets hedge
      obtain ⟨port, name, other, -, hother, rfl⟩ := mem_edgesTo_iff.1 hedge
      obtain ⟨q, hq, -, rfl⟩ := exists_place_of_nodeNamed? hother
      exact ⟨rfl, htarget (mem_nodesOf_of_place hq) rfl ▸ (hplace q hq).2⟩
    have hmem : some e ∈ es.map some := List.mem_map_of_mem he
    rw [← hes, List.mem_append, List.mem_flatMap] at hmem
    rw [Graph.refusal?_eq_none_iff]
    rcases hmem with hentry | ⟨p, hp, hedge⟩
    · obtain rfl := hsource List.mem_cons_self (source_of_mem_entryEdges hentry)
      obtain ⟨q, hq, rfl⟩ := exists_place_of_mem_entryEdges hentry
      obtain rfl := htarget (mem_nodesOf_of_place hq) rfl
      exact (hplace q hq).2
    · obtain ⟨hkind, -⟩ := get?_of_mem_layout hp
      rcases mem_edges_iff.1 hedge with ⟨hs, port, hhs, hport, rfl⟩ | ⟨hs, hhs, hedge⟩ | hedge
      · -- From the error output of a state to its error-catch node.
        obtain rfl := hsource (mem_nodesOf_of_place hp) rfl
        obtain rfl := htarget (mem_nodesOf_of_handlers hp hhs) rfl
        rw [if_pos (hplace p hp).1]
        exact ⟨p.type, hkind, iff_of_true hport rfl⟩
      · obtain ⟨hid, hcatch⟩ := hnamed hedge
        obtain rfl := hsource (mem_nodesOf_of_handlers hp hhs) hid
        exact hcatch
      · obtain ⟨hid, hcatch⟩ := hnamed hedge
        obtain rfl := hsource (mem_nodesOf_of_place hp) hid
        obtain ⟨_, _, _, hname, -, rfl⟩ := mem_edgesTo_iff.1 hedge
        rw [if_pos (hplace p hp).1, hcatch]
        exact ⟨p.type, hkind, iff_of_false (ne_error_of_mem_targets hname) nofun⟩

end Import

/-! ### Sessions -/

namespace Edit

variable {T : Type} [NodeSpec T] {c : Catalog T} {g : Graph} {edges : List Edge}

/-- Nodes and edges come from the calls that look up types and check edges. -/
def IsChecked : Edit → Prop
  | insert _ _ | addEdge _ => False
  | _ => True

instance (e : Edit) : Decidable e.IsChecked :=
  match e with
  | insert _ _ | addEdge _ => .isFalse id
  | add _ _ _ | erase _ | connect _ | eraseEdge _ | rename _ _ | resizeOutputs _ _ | setForm _ _
  | setInitialized _ _ => .isTrue trivial

/-- Calls that are checked keep a graph exclusive. -/
theorem apply_exclusive (h : g.Exclusive c edges) {e : Edit} (hfresh : e.Fresh g)
    (hchecked : e.IsChecked) : ∃ edges', (e.apply c g).Exclusive c edges' := by
  have heffect := e.effect c g
  generalize e.apply c g = g' at heffect
  have hsame : ∀ id (f : Node → Node), (∀ n, SameShape n (f n)) →
      ∃ edges', (g.modify id f).Exclusive c edges' := fun id f hf => ⟨_, h.modify id hf⟩
  cases heffect with
  | unchanged => exact ⟨_, h⟩
  | added ht => exact ⟨_, h.insert hfresh ⟨_, ht, rfl, rfl⟩⟩
  | inserted => cases hchecked
  | erased => exact ⟨_, h.erase _⟩
  | edgeAdded => cases hchecked
  | @connected edge rest g' source target hrest hadd hs ht hallowed =>
    -- Giving way to an edge removes an edge, and no node.
    have hends : (∀ id, rest.node? id = g.node? id) → ∀ source' target',
        rest.node? edge.source = some source' → rest.node? edge.target = some target' →
          Graph.refusal? c source' target' edge.output = .ok none := by
      intro hnode source' target' hs' ht'
      rw [hnode] at hs' ht'
      cases hs.symm.trans hs'
      cases ht.symm.trans ht'
      exact hallowed
    rcases hrest with rfl | ⟨displaced, rfl⟩
    · exact ⟨_, h.addEdge hadd (hends fun _ => rfl)⟩
    · exact ⟨_, (h.eraseEdge displaced).addEdge hadd (hends (g.node?_eraseEdge displaced))⟩
  | displaced => exact ⟨_, h.eraseEdge _⟩
  | edgeErased => exact ⟨_, h.eraseEdge _⟩
  | resized hid => exact ⟨_, h.resizeOutputs hid _⟩
  | renamed => exact hsame _ _ fun n => ⟨rfl, rfl, rfl, rfl, rfl⟩
  | formSet => exact hsame _ _ fun n => ⟨rfl, rfl, rfl, rfl, rfl⟩
  | initializedSet => exact hsame _ _ fun n => ⟨rfl, rfl, rfl, rfl, rfl⟩

/-- Checked sessions keep a graph exclusive. -/
theorem Session.exclusive {g' : Graph}
    (h : Session c (fun g e => e.Fresh g ∧ e.IsChecked) g g') (hg : g.Exclusive c edges) :
    ∃ edges', g'.Exclusive c edges' :=
  Session.keeps (P := fun g => ∃ edges, g.Exclusive c edges)
    (fun _ _ ⟨_, hg⟩ he => apply_exclusive hg he.1 he.2) h ⟨edges, hg⟩

/-- A graph that a checked session can start on: one without nodes, or the import of a document
whose states all have types of states or unknown types. -/
def IsCheckedOrigin (g : Graph) : Prop :=
  (∃ metadata, g = .empty metadata) ∨
    ∃ (settings : Settings) (supply : Nat → NodeId) (d : Document) (r : Imported),
      (∀ s ∈ d.states, ∀ t, Catalog.standard.get? s.kind = some t → t.isPrimitive = true) ∧
        Import.Distinct supply (1 + 2 * d.states.length) ∧
        (d.toGraph settings .standard supply).outcome = .ok r ∧ r.graph = g

theorem IsCheckedOrigin.exclusive (h : IsCheckedOrigin g) :
    ∃ edges, g.Exclusive .standard edges := by
  rcases h with ⟨metadata, rfl⟩ | ⟨settings, supply, d, r, hprimitive, hd, hr, rfl⟩
  · exact ⟨[], .empty metadata⟩
  · obtain ⟨-, -, es, hes, hb⟩ := Import.toGraph_builds_from Import.standard_startName
      Import.standard_catchName hd hr
    exact ⟨es, Import.exclusive_of_builds hprimitive hes hb⟩

/-- The error output of the states of a type. -/
def errorOutput (kind : String) : Port := if kind = "eventXor" then 1 else 2

theorem errorPort?_of_standard {kind : String} {t : NodeType}
    (h : Catalog.standard.get? kind = some t) (ht : t.family = .primitive) :
    t.transitions.errorPort? = some (errorOutput kind) := by
  have hall : ∀ x ∈ Catalog.standard.entries, x.2.family = .primitive →
      x.2.transitions.errorPort? = some (errorOutput x.1) := by decide +kernel
  exact hall _ (Catalog.mem_of_get? h) ht

/-- The nodes that are no states are start nodes, which have no input, and error-catch nodes. -/
theorem special_of_standard {kind : String} {t : NodeType}
    (h : Catalog.standard.get? kind = some t) (ht : t.family = .special) :
    kind = NodeType.startName ∧ t.inputs = 0 ∨ kind = NodeType.catchName := by
  have hall : ∀ x ∈ Catalog.standard.entries, x.2.family = .special →
      x.1 = NodeType.startName ∧ x.2.inputs = 0 ∨ x.1 = NodeType.catchName := by decide +kernel
  exact hall _ (Catalog.mem_of_get? h) ht

/-- After any checked session every edge from the error output of a state leads to an error-catch
node, every edge to an error-catch node comes from the error output of a state, and every edge from
a start node or an error-catch node leads to a state. -/
theorem session_exclusive {start : Graph} (hstart : IsCheckedOrigin start)
    (h : Session .standard (fun g e => e.Fresh g ∧ e.IsChecked) start g) :
    ∀ e ∈ g.edges, ∃ source target,
      g.node? e.source = some source ∧ g.node? e.target = some target ∧
        (source.isPrimitive = true → e.output = errorOutput source.kind → target.isCatch = true) ∧
        (target.isCatch = true → source.isPrimitive = true ∧ e.output = errorOutput source.kind) ∧
        (source.isStart = true ∨ source.isCatch = true → target.isPrimitive = true) := by
  obtain ⟨edges, hedges⟩ := hstart.exclusive
  obtain ⟨edges, hg⟩ := Session.exclusive h hedges
  intro e he
  have he := hg.edges_perm.mem_iff.1 he
  obtain ⟨source, target, hs, ht, -, hinput⟩ := hg.inRange e he
  have hallowed := Graph.refusal?_eq_none_iff.1 (hg.allowed e he source target hs ht)
  have hstate : source.isPrimitive = true →
      (errorOutput source.kind = e.output ↔ target.isCatch = true) := by
    intro hp
    rw [if_pos hp] at hallowed
    obtain ⟨t, hkind, hiff⟩ := hallowed
    obtain ⟨t', hkind', hfamily, -⟩ := hg.typed _ _ hs
    cases hkind.symm.trans hkind'
    have hport : NodeSpec.errorPort? t = some (errorOutput source.kind) :=
      errorPort?_of_standard hkind (hfamily.symm.trans (of_decide_eq_true hp))
    rwa [hport, Option.some.injEq] at hiff
  have hspecial : source.isPrimitive ≠ true → target.isCatch = false := by
    intro hp
    rwa [if_neg hp] at hallowed
  refine ⟨source, target, hs, ht, fun hp hout => (hstate hp).1 hout.symm, fun hcatch => ?_,
    fun hsource => ?_⟩
  · by_cases hp : source.isPrimitive = true
    · exact ⟨hp, ((hstate hp).2 hcatch).symm⟩
    · rw [hspecial hp] at hcatch
      cases hcatch
  · have hp : source.isPrimitive ≠ true := by
      simp only [Node.isStart, Node.isCatch, Node.isPrimitive, Bool.and_eq_true,
        decide_eq_true_eq] at hsource ⊢
      rcases hsource with ⟨hf, -⟩ | ⟨hf, -⟩ <;> rw [hf] <;> nofun
    -- A start node has no input that the edge could arrive at.
    exact hg.isPrimitive_of_not_isCatch
      (fun _ _ hkind hf => (special_of_standard hkind hf).imp_left And.right) ht hinput
      (hspecial hp)

/-- The graph of the sample document. -/
def sampleGraph : Graph :=
  ((Import.sampleDocument.toGraph {} .standard NodeId.ofNat).outcome.toOption.map
    Imported.graph).getD (.empty .empty)

/-- Calls that add a race between events, connect its outputs, one of them first to a state and
refused, and give an output of the first state to it. -/
def redrawing : List Edit :=
  [.add (.ofNat 9) "eventXor" [], .resizeOutputs (.ofNat 9) 2,
    .connect ⟨.ofNat 9, 1, .ofNat 3, 1⟩, .connect ⟨.ofNat 9, 1, .ofNat 2, 1⟩,
    .connect ⟨.ofNat 9, 2, .ofNat 3, 1⟩, .connect ⟨.ofNat 1, 1, .ofNat 9, 1⟩, .erase (.ofNat 3),
    .rename (.ofNat 9) "race"]

theorem session_exclusive_redrawn :
    (run .standard sampleGraph redrawing).edges =
        [⟨.ofNat 0, 1, .ofNat 1, 1⟩, ⟨.ofNat 1, 2, .ofNat 2, 1⟩, ⟨.ofNat 1, 1, .ofNat 9, 1⟩,
          ⟨.ofNat 9, 1, .ofNat 2, 1⟩] ∧
      ∀ e ∈ (run .standard sampleGraph redrawing).edges, ∃ source target,
        (run .standard sampleGraph redrawing).node? e.source = some source ∧
          (run .standard sampleGraph redrawing).node? e.target = some target ∧
          (target.isCatch = true → source.isPrimitive = true ∧
            e.output = errorOutput source.kind) := by
  have hprimitive : ∀ s ∈ Import.sampleDocument.states, ∀ t,
      Catalog.standard.get? s.kind = some t → t.isPrimitive = true := by decide +kernel
  have hok : ((Import.sampleDocument.toGraph {} .standard NodeId.ofNat).outcome.toOption.map
      Imported.graph) = some sampleGraph := by decide +kernel
  have hstart : IsCheckedOrigin sampleGraph := by
    cases hr : (Import.sampleDocument.toGraph {} .standard NodeId.ofNat).outcome with
    | error reason =>
      rw [hr] at hok
      cases hok
    | ok r =>
      rw [hr] at hok
      exact .inr ⟨{}, NodeId.ofNat, Import.sampleDocument, r, hprimitive,
        Import.distinct_ofNat (by decide), hr, Option.some.inj hok⟩
  have hallows : Allows .standard (fun g e => e.Fresh g ∧ e.IsChecked) sampleGraph redrawing := by
    decide +kernel
  have h := session_exclusive hstart (Session.run hallows)
  refine ⟨by decide +kernel, fun e he => ?_⟩
  obtain ⟨source, target, hs, ht, -, hcatch, -⟩ := h e he
  exact ⟨source, target, hs, ht, hcatch⟩

end Edit

end Workflow
