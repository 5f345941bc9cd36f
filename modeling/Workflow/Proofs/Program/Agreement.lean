import Workflow.Program.Run
import Workflow.Proofs.Compile.Redrawn
import Workflow.Proofs.Graph.Stored
import Workflow.Proofs.Import.Relabelled
import Workflow.Proofs.Snapshot.ReadBack

/-!
# Checking a document, and importing and compiling it

The program takes two ways from a document to a document. `check` imports the document and compiles
the graph. `import` stores the graph as a snapshot, which `compile` loads and compiles. A graph that
was loaded lists its nodes by identifier and a compilation depends on the order of the nodes, so the
two ways agree because an import hands out ascending identifiers (`Import.toGraph_reloads`). Then
they end with the same text or with the same error, and also when each run has identifiers of its own
(`Program.compile_agrees_with_check`).
-/

namespace Workflow

/-! ### Graphs that show the same lists -/

/-- Graphs from which nothing was erased answer alike when they list the same nodes and edges. -/
theorem Graph.Shows.reordered {g g' : Graph} {nodes : List (NodeId × Node)} {edges : List Edge}
    (h : g.Shows nodes edges) (h' : g'.Shows nodes edges) (hmeta : g'.metadata = g.metadata) :
    g.Reordered g' := by
  have hnodes : g'.nodes = g.nodes := h'.nodes_eq.trans h.nodes_eq.symm
  have hnode : ∀ id, g'.node? id = g.node? id := h.consistent.node?_congr h'.consistent hnodes
  refine ⟨.of_eq hnodes, h'.nodeCount_eq.trans h.nodeCount_eq.symm, hnode, fun id => ?_,
    fun id => ?_, fun id p => ?_, ?_, hmeta⟩
  · simp only [outputsOf, node, hnode, h'.outgoing_eq, h.outgoing_eq]
  · rw [h'.incoming_eq, h.incoming_eq]
  · rw [h'.edgeOn?_eq, h.edgeOn?_eq]
  · rw [startNode?, startNode?, hnodes]

/-- A table of nodes that are listed by identifier lists them in the same order. -/
theorem NodeTable.ofList_sorted {nodes : List (NodeId × Node)}
    (h : nodes.Pairwise fun a b => a.1.bits < b.1.bits) : (ofList nodes).entries = nodes :=
  congrArg entries (ofList_entries ⟨nodes, h⟩)

namespace Import

/-- Each identifier is greater than the ones before it, as far as `count`. -/
def Ascending (supply : Nat → NodeId) (count : Nat) : Prop :=
  ∀ i j, i < j → j < count → supply i < supply j

theorem Ascending.distinct {supply : Nat → NodeId} {count : Nat} (h : Ascending supply count) :
    Distinct supply count := by
  intro i j hi hj heq
  rcases Nat.lt_trichotomy i j with hlt | rfl | hgt
  · exact absurd (heq ▸ h i j hlt hj) (BitVec.lt_irrefl _)
  · rfl
  · exact absurd (heq ▸ h j i hgt hi) (BitVec.lt_irrefl _)

theorem ascending_ofNat {count : Nat} (h : count ≤ 2 ^ 128) : Ascending NodeId.ofNat count := by
  intro i j hij hj
  show BitVec.ofNat 128 i < BitVec.ofNat 128 j
  rw [BitVec.lt_def, BitVec.toNat_ofNat, BitVec.toNat_ofNat, Nat.mod_eq_of_lt (by omega),
    Nat.mod_eq_of_lt (by omega)]
  exact hij

theorem Ascending.shift {supply : Nat → NodeId} {count : Nat} (k : Nat)
    (h : Ascending supply (k + count)) : Ascending (fun i => supply (k + i)) count :=
  fun i j hij hj => h (k + i) (k + j) (Nat.add_lt_add_left hij k) (Nat.add_lt_add_left hj k)

/-- Nodes with ascending identifiers are listed by identifier. -/
theorem Numbered.sorted {supply : Nat → NodeId} {count : Nat} {nodes : List (NodeId × Node)}
    (h : Numbered supply nodes) (hsupply : Ascending supply count) (hle : nodes.length ≤ count) :
    nodes.Pairwise fun a b => a.1.bits < b.1.bits := by
  have hids : (nodes.map Prod.fst).Pairwise fun a b => a.bits < b.bits := by
    rw [show nodes.map Prod.fst = (List.range nodes.length).map supply from h, List.pairwise_map]
    refine List.pairwise_lt_range.imp_of_mem fun _ hj hlt => hsupply _ _ hlt ?_
    exact Nat.lt_of_lt_of_le (List.mem_range.1 hj) hle
  rwa [List.pairwise_map] at hids

/-- A state takes two identifiers at most. -/
theorem length_nodesOf_le (c : Catalog) (supply : Nat → NodeId) (d : Document) :
    (nodesOf c supply d).length ≤ 1 + 2 * d.states.length := by
  have hstates : (places c d).length ≤ d.states.length := by
    rw [← List.length_map Place.state, places, map_state_layout]
    exact List.length_filter_le _ _
  have hnodes : ∀ ps : List Place, (ps.flatMap (Place.nodes supply)).length ≤ 2 * ps.length := by
    intro ps
    induction ps with
    | nil => exact Nat.le_refl 0
    | cons p rest ih =>
      have hsize : p.size ≤ 2 := by
        unfold Place.size
        split <;> omega
      rw [List.flatMap_cons, List.length_append, Place.length_nodes, List.length_cons]
      omega
  have := hnodes (places c d)
  rw [nodesOf, List.length_cons]
  omega

/-- The graph of an import can be stored and loaded, and the loaded graph is compiled to the same
document with the same warnings, or ends with the same error. -/
theorem toGraph_reloads {settings : Settings} {c : Catalog} {supply : Nat → NodeId} {d : Document}
    {r : Imported} (hstart : c.get? NodeType.startName = some startType)
    (hcatch : c.get? NodeType.catchName = some catchType)
    (hsupply : Ascending supply (1 + 2 * d.states.length))
    (h : (d.toGraph settings c supply).outcome = .ok r) :
    ∃ g, r.graph.snapshot.toGraph = .ok g ∧ g.compile c = r.graph.compile c := by
  obtain ⟨-, -, es, -, hb⟩ := toGraph_builds_from hstart hcatch hsupply.distinct h
  obtain ⟨g, hload, hshows, hmeta⟩ := hb.sound.reloads
  have hsorted := hb.numbered.sorted hsupply (length_nodesOf_le c supply d)
  -- The table sorts the nodes, and they are in this order already.
  rw [hb.shows.nodes_eq, NodeTable.ofList_sorted hsorted, hb.shows.edges_eq] at hshows
  have hnodes : g.nodes = r.graph.nodes := hshows.nodes_eq.trans hb.shows.nodes_eq.symm
  exact ⟨g, hload, (hb.shows.reordered hshows hmeta).compile_eq hnodes c⟩

end Import

namespace Program

/-! ### The program -/

/-- Two runs fail for one reason each, and the reasons are of the same kind. -/
def SameCause (causes causes' : List String) : Prop :=
  ∃ e e' : Error, e.SameKind e' ∧ causes = [causeOf e] ∧ causes' = [causeOf e']

variable {settings : Settings} {supply supply' : Nat → NodeId} {text : String} {d : Document}
  {r : Imported}

/-- The result of a compilation, with the message of an error. -/
def told (x : Except Error String) : Except (List String) String :=
  x.mapError fun e => [causeOf e]

theorem importText_eq (hread : Document.ofYamlText text = .ok d)
    (himport : (d.toGraph settings .standard supply).outcome = .ok r) :
    importText settings supply text = .ok r.graph.snapshot.jsonText := by
  simp only [importText, hread, himport]

theorem compileText_eq {s : Snapshot} {g : Graph} (hread : Snapshot.ofJsonText text = .ok s)
    (hload : s.toGraph = .ok g) :
    compileText settings text = told (g.compileText settings .standard).outcome := by
  simp only [compileText, hread, hload, told]
  cases (g.compileText settings .standard).outcome <;> rfl

theorem checkText_eq (hread : Document.ofYamlText text = .ok d)
    (himport : (d.toGraph settings .standard supply).outcome = .ok r) (hskipped : r.skipped = []) :
    checkText settings supply text = told (r.graph.compileText settings .standard).outcome := by
  simp only [checkText, hread, himport, hskipped, told]
  cases (r.graph.compileText settings .standard).outcome <;> rfl

/-- What is told of outcomes that are alike is the same text, or a cause of the same kind. -/
theorem told_alike {x x' : Except Error String} (h : Except.Alike Error.SameKind Eq x x') :
    Except.Alike SameCause Eq (told x) (told x') := by
  cases h with
  | ok h => exact .ok h
  | error h => exact .error ⟨_, _, h, rfl, rfl⟩

/-- The text of a document does not show the identifiers of its graph. -/
theorem checkText_alike (hread : Document.ofYamlText text = .ok d)
    (hd : Import.Distinct supply (1 + 2 * d.states.length))
    (hd' : Import.Distinct supply' (1 + 2 * d.states.length))
    (himport : (d.toGraph settings .standard supply).outcome = .ok r) (hskipped : r.skipped = []) :
    Except.Alike SameCause Eq (checkText settings supply text) (checkText settings supply' text) := by
  have hR := Import.biUnique_paired hd hd'
  have hgraph := (Import.toGraph_alike settings .standard d hR).outcome
  rw [himport] at hgraph
  generalize himport' : (d.toGraph settings .standard supply').outcome = x' at hgraph
  cases hgraph with
  | @ok _ r' hr =>
    rw [checkText_eq hread himport hskipped, checkText_eq hread himport' (hr.2 ▸ hskipped)]
    refine told_alike (Traced.Alike.bind (hr.1.compile_alike hR .standard) ?_).outcome
    rintro document _ rfl
    exact Traced.alike_pure rfl

/-- Checking a document comes to the same as importing it and compiling what was stored, whatever
the settings, when no state is left out and identifiers ascend. The graph that is loaded from the
snapshot is compiled to the same text with the same warnings as the graph of the import, or ends with
the same error. So if the text of the snapshot is read back, the two commands end alike; and they
still end with the same text or with errors of the same kind when `check` hands out other
identifiers. -/
theorem compile_agrees_with_check (hread : Document.ofYamlText text = .ok d)
    (hsupply : Import.Ascending supply (1 + 2 * d.states.length))
    (hsupply' : Import.Ascending supply' (1 + 2 * d.states.length))
    (himport : (d.toGraph settings .standard supply).outcome = .ok r) (hskipped : r.skipped = []) :
    (∃ g, r.graph.snapshot.toGraph = .ok g ∧
      g.compileText settings .standard = r.graph.compileText settings .standard) ∧
    (Snapshot.ofJsonText r.graph.snapshot.jsonText = .ok r.graph.snapshot →
      ∃ stored, importText settings supply text = .ok stored ∧
        compileText settings stored = checkText settings supply text ∧
        Except.Alike SameCause Eq (compileText settings stored)
          (checkText settings supply' text)) := by
  obtain ⟨g, hload, hcompile⟩ :=
    Import.toGraph_reloads Import.standard_startName Import.standard_catchName hsupply himport
  have htext : g.compileText settings .standard = r.graph.compileText settings .standard := by
    rw [Graph.compileText, Graph.compileText, hcompile]
  refine ⟨⟨g, hload, htext⟩, fun hback => ⟨_, importText_eq hread himport, ?_⟩⟩
  have hsame : compileText settings r.graph.snapshot.jsonText = checkText settings supply text := by
    rw [compileText_eq hback hload, checkText_eq hread himport hskipped, htext]
  exact ⟨hsame, hsame ▸ checkText_alike hread hsupply.distinct hsupply'.distinct himport hskipped⟩

/-- Two states, the second of which follows when the first one fails. -/
def handled : Document :=
  ⟨[], none, none, [⟨"a", "noop", [], some [⟨"E", some "b", []⟩]⟩, ⟨"b", "noop", [], none⟩]⟩

/-- A text of this document. -/
def handledText : String :=
  "states:\n- id: a\n  type: noop\n  catch: [\x7berror: E, transition: b\x7d]\n- id: b\n  type: noop\n"

theorem handled_agrees : ∃ r g stored, Document.ofYamlText handledText = .ok handled ∧
    (handled.toGraph {} .standard .ofNat).outcome = .ok r ∧ r.skipped = [] ∧
    r.graph.snapshot.toGraph = .ok g ∧
    g.compileText {} .standard = r.graph.compileText {} .standard ∧
    importText {} .ofNat handledText = .ok stored ∧
    compileText {} stored = checkText {} .ofNat handledText ∧
    Except.Alike SameCause Eq (compileText {} stored)
      (checkText {} (fun i => .ofNat (100 + i)) handledText) := by
  have hread : Document.ofYamlText handledText = .ok handled := by decide +kernel
  have hfacts : ∀ r ∈ (handled.toGraph {} .standard .ofNat).outcome.toOption,
      r.skipped = [] ∧ r.graph.snapshot.Keyed ∧ r.graph.snapshot.Legible ∧
        r.graph.snapshot.toJson.depth ≤ Json.depthLimit ∧ r.graph.snapshot.isFinite := by
    decide +kernel
  have hok : (handled.toGraph {} .standard .ofNat).outcome.toOption.isSome = true := by
    decide +kernel
  cases himport : (handled.toGraph {} .standard .ofNat).outcome with
  | error e =>
    rw [himport] at hok
    cases hok
  | ok r =>
    rw [himport] at hfacts
    obtain ⟨hskipped, hkeyed, hlegible, hdepth, hfinite⟩ := hfacts r rfl
    have hback : Snapshot.ofJsonText r.graph.snapshot.jsonText = .ok r.graph.snapshot := by
      rw [Snapshot.ofJsonText_jsonText hkeyed hlegible hdepth, if_pos hfinite]
    obtain ⟨⟨g, hload, hcompile⟩, hagree⟩ := compile_agrees_with_check hread
      (Import.ascending_ofNat (by decide)) ((Import.ascending_ofNat (by decide)).shift 100) himport
      hskipped
    obtain ⟨stored, hstored, hsame, halike⟩ := hagree hback
    exact ⟨r, g, stored, hread, rfl, hskipped, hload, hcompile, hstored, hsame, halike⟩

end Program

end Workflow
