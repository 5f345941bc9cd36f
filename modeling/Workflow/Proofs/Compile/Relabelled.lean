import Workflow.Compile
import Workflow.Proofs.Graph.Relabelled

/-!
# Compiled graphs with other identifiers

A compilation looks nodes up by their identifiers, compares these in the list of visited nodes, and
names them in errors; nothing of a document is made from them. So graphs that differ in identifiers
alone are compiled to the same document, or end with errors of the same kind
(`Graph.Relabelled.compile_alike`).
-/

namespace Workflow

open Compile Except Traced

namespace Graph.Relabelled

variable {T : Type} [NodeSpec T] {R : NodeId → NodeId → Prop} {c : Catalog T} {g g' : Graph}
  {id id' : NodeId}

/-! ### What a node amounts to -/

theorem stateName_alike (h : Relabelled R g g') (hR : Relator.BiUnique R) (hid : R id id') :
    Except.Alike Error.SameKind Eq (stateName g id) (stateName g' id') := by
  refine (h.node_alike hR hid).bind ?_
  rintro n _ rfl
  apply alike_check Iff.rfl
  · rfl
  · cases n.stateId with
    | none => exact .error rfl
    | some name => exact .ok rfl

/-- The targets of edges that match. -/
theorem targets_rel {es es' : List Edge} (h : List.Forall₂ (Edge.Relabelled R) es es') :
    List.Forall₂ R (es.map Edge.target) (es'.map Edge.target) :=
  List.forall₂_map_left_iff.2 (List.forall₂_map_right_iff.2 (h.imp fun _ _ he => he.target))

theorem connectHandler_alike (h : Relabelled R g g') (hR : Relator.BiUnique R) (t : T)
    (owner : String) (form : Fields) {output output' : Port × List Edge}
    (hport : output.1 = output'.1)
    (hes : List.Forall₂ (Edge.Relabelled R) output.2 output'.2) :
    Traced.Alike R Error.SameKind Eq (connectHandler g t owner form output)
      (connectHandler g' t owner form output') := by
  obtain ⟨p, es⟩ := output
  obtain ⟨p', es'⟩ := output'
  obtain rfl : p = p' := hport
  have htargets := targets_rel hes
  unfold connectHandler
  cases hes with
  | nil => exact alike_pure rfl
  | cons he hrest =>
    refine (alike_liftM (h.stateName_alike hR he.target)).bind ?_
    rintro name _ rfl
    dsimp only
    split
    · exact alike_fail rfl
    · exact (alike_note htargets).bind fun _ _ _ => alike_pure rfl

theorem handlersOf_alike (h : Relabelled R g g') (hR : Relator.BiUnique R) (hid : R id id')
    (owner : String) : Traced.Alike R Error.SameKind Eq (handlersOf c g id owner)
      (handlersOf c g' id' owner) := by
  refine (alike_liftM (h.node_alike hR hid)).bind ?_
  rintro n _ rfl
  refine (alike_liftM (alike_self Error.sameKind_self (c.lookup n.kind))).bind ?_
  rintro t _ rfl
  refine (alike_liftM (h.outputsOf_alike hR hid)).bind fun outputs outputs' ho => ?_
  have hfold : Traced.Alike R Error.SameKind Eq
      (outputs.foldlM (connectHandler g t owner) (NodeSpec.strip t n.form))
      (outputs'.foldlM (connectHandler g' t owner) (NodeSpec.strip t n.form)) :=
    Traced.alike_foldlM ho (fun form _ output output' hform ho =>
      hform ▸ h.connectHandler_alike hR t owner form ho.1 ho.2) rfl
  refine hfold.bind ?_
  rintro form _ rfl
  refine (alike_liftM (alike_self Error.sameKind_self (fieldsOfForm t owner form))).bind ?_
  rintro fields _ rfl
  exact alike_liftM (alike_self Error.sameKind_self _)

theorem connectOutput_alike (h : Relabelled R g g') (hR : Relator.BiUnique R) (t : T)
    (name : String) (acc : Fields × Option (List CatchEntry)) {output output' : Port × List Edge}
    (hport : output.1 = output'.1)
    (hes : List.Forall₂ (Edge.Relabelled R) output.2 output'.2) :
    Traced.Alike R Error.SameKind Eq (connectOutput c g t name acc output)
      (connectOutput c g' t name acc output') := by
  obtain ⟨p, es⟩ := output
  obtain ⟨p', es'⟩ := output'
  obtain rfl : p = p' := hport
  have htargets := targets_rel hes
  unfold connectOutput
  cases hes with
  | nil => exact alike_pure rfl
  | cons he hrest =>
    refine (alike_liftM (h.node_alike hR he.target)).bind ?_
    rintro target _ rfl
    dsimp only
    split
    next => exact alike_fail rfl
    next =>
      split
      · refine (h.handlersOf_alike hR he.target name).bind ?_
        rintro hs _ rfl
        exact alike_pure rfl
      · exact alike_fail rfl
    next =>
      split
      · refine (alike_liftM (h.stateName_alike hR he.target)).bind ?_
        rintro next _ rfl
        split
        · exact alike_fail rfl
        · exact (alike_note htargets).bind fun _ _ _ => alike_pure rfl
      · exact alike_fail rfl

/-- Nodes that are paired stand for the same state and lead to nodes that are paired. -/
theorem expand_alike (h : Relabelled R g g') (hR : Relator.BiUnique R) (hid : R id id') :
    Traced.Alike R Error.SameKind Eq (expand c g id) (expand c g' id') := by
  refine (alike_liftM (h.node_alike hR hid)).bind ?_
  rintro n _ rfl
  refine (alike_liftM (h.stateName_alike hR hid)).bind ?_
  rintro name _ rfl
  refine (alike_liftM (alike_self Error.sameKind_self (c.lookup n.kind))).bind ?_
  rintro t _ rfl
  refine (alike_liftM (h.outputsOf_alike hR hid)).bind fun outputs outputs' ho => ?_
  have hfold : Traced.Alike R Error.SameKind Eq
      (outputs.foldlM (connectOutput c g t name) (NodeSpec.strip t n.form, none))
      (outputs'.foldlM (connectOutput c g' t name) (NodeSpec.strip t n.form, none)) :=
    Traced.alike_foldlM ho (fun acc _ output output' hacc ho =>
      hacc ▸ h.connectOutput_alike hR t name acc ho.1 ho.2) rfl
  refine hfold.bind ?_
  rintro ⟨fields, handlers⟩ _ rfl
  refine (alike_liftM (alike_self Error.sameKind_self (fieldsOfForm t name fields))).bind ?_
  rintro fields _ rfl
  exact alike_pure rfl

/-! ### Documents -/

omit [NodeSpec T] in
theorem checkNames_alike {seen : List String} {nodes nodes' : List (NodeId × Node)}
    (h : List.Forall₂ (fun e e' => R e.1 e'.1 ∧ e.2 = e'.2) nodes nodes') :
    Except.Alike Error.SameKind Eq (checkNames c seen nodes) (checkNames c seen nodes') := by
  induction h generalizing seen with
  | nil => exact .ok rfl
  | @cons e e' rest rest' he _ ih =>
    obtain ⟨id, n⟩ := e
    obtain ⟨id', n'⟩ := e'
    obtain rfl : n = n' := he.2
    rw [checkNames, checkNames]
    refine (alike_self Error.sameKind_self (c.lookup n.kind)).bind fun _ _ _ => ?_
    split
    · exact ih
    · cases n.stateId with
      | none => exact .error rfl
      | some name =>
        dsimp only
        split
        · exact .error rfl
        · exact ih

omit [NodeSpec T] in
theorem validate_alike (h : Relabelled R g g') :
    Except.Alike Error.SameKind Eq (validate c g) (validate c g') := by
  have hnodes := h.nodes_rel
  have hwaiting := hnodes.filter (p := fun e => !e.2.initialized) (q := fun e => !e.2.initialized)
    fun e _ e' he => by rw [he.2]
  unfold validate
  generalize (g.nodes.filter fun e => !e.2.initialized) = waiting,
    (g'.nodes.filter fun e => !e.2.initialized) = waiting' at hwaiting
  cases hwaiting with
  | nil => exact checkNames_alike hnodes
  | cons => exact .error rfl

theorem startOf_alike (h : Relabelled R g g') (hR : Relator.BiUnique R) {start start' : NodeId}
    (hstart : R start start') (hid : R id id') :
    Except.Alike Error.SameKind Eq (startOf c g start id) (startOf c g' start' id') := by
  refine (h.node_alike hR hstart).bind ?_
  rintro n _ rfl
  refine (h.stateName_alike hR hid).bind ?_
  rintro name _ rfl
  exact alike_self Error.sameKind_self _

theorem visit_alike (h : Relabelled R g g') (hR : Relator.BiUnique R) {w w' : Walk NodeId State}
    (hw : Walk.Matches R Eq w w') (hid : R id id') :
    Except.Alike Error.SameKind (Walk.Matches R Eq) (visit c g w id) (visit c g' w' id') := by
  rw [visit, visit, h.nodeCount_eq]
  exact Walk.visit_alike hR (fun _ _ hid => h.expand_alike hR hid) rfl _ hw hid

theorem statesOf_alike (h : Relabelled R g g') (hR : Relator.BiUnique R) (hid : R id id') :
    Except.Alike Error.SameKind (Walk.Matches R Eq) (statesOf c g id) (statesOf c g' id') := by
  refine (h.visit_alike hR ⟨.nil, .nil⟩ hid).bind fun w w' hw => ?_
  refine alike_foldlM h.nodes_rel (fun w w' e e' hw he => ?_) hw.reverse
  -- A root is told by its visits and its incoming edges, and neither shows an identifier.
  have hvisited : (e.1 ∉ w.visited) = (e'.1 ∉ w'.visited) :=
    propext (List.rel_mem hR he.1 hw.visited).not
  have hincoming : (g.incoming e.1).isEmpty = (g'.incoming e'.1).isEmpty := by
    have hrel := h.incoming_rel hR he.1
    generalize g.incoming e.1 = es, g'.incoming e'.1 = es' at hrel
    cases hrel <;> rfl
  simp only [visitRoot, he.2, hvisited, hincoming]
  split
  · exact h.visit_alike hR hw he.1
  · exact .ok hw

/-- As many states are left out. -/
theorem dropped_rel (h : Relabelled R g g') (hR : Relator.BiUnique R) {visited visited' : List NodeId}
    (hvisited : List.Forall₂ R visited visited') :
    List.Forall₂ (fun _ _ => True) (dropped g visited) (dropped g' visited') := by
  refine List.forall₂_map_left_iff.2 (List.forall₂_map_right_iff.2 ?_)
  refine (h.nodes_rel.filter fun e _ e' he => ?_).imp fun _ _ _ => trivial
  rw [he.2, decide_eq_decide.2 (List.rel_mem hR he.1 hvisited).not]

/-- Graphs that differ in their identifiers alone are compiled to the same document, or end with
errors of the same kind. -/
theorem compile_alike (h : Relabelled R g g') (hR : Relator.BiUnique R) (c : Catalog T) :
    Traced.Alike (fun _ _ => True) Error.SameKind Eq (g.compile c) (g'.compile c) := by
  refine (alike_liftM h.validate_alike).bind fun _ _ _ => ?_
  have hstart := h.startNode?_rel
  generalize g.startNode? = start?, g'.startNode? = start?' at hstart
  cases hstart with
  | none => exact alike_fail rfl
  | @some start start' hstart =>
    dsimp only
    have hedge := h.edgeOn?_rel hR hstart 1
    generalize g.edgeOn? start 1 = edge?, g'.edgeOn? start' 1 = edge?' at hedge
    cases hedge with
    | none => exact alike_fail rfl
    | some he =>
      refine (alike_liftM (h.startOf_alike hR hstart he.target)).bind ?_
      rintro block _ rfl
      refine (alike_liftM (h.statesOf_alike hR he.target)).bind fun w w' hw => ?_
      refine (alike_note (h.dropped_rel hR hw.visited)).bind fun _ _ _ => alike_pure ?_
      have hstates : w.finished = w'.finished := by
        rw [← List.forall₂_eq_eq_eq]
        exact hw.finished
      rw [h.metadata, hstates]

end Graph.Relabelled

end Workflow
