import Workflow.Proofs.Compile.Relabelled
import Workflow.Proofs.Import.Described

/-!
# Imports with other identifiers

An import takes the identifiers of its nodes from a supply, one after the other, and asks nothing of
them but that they differ. Two supplies pair the identifiers that they hand out at the same time
(`Paired`), so two imports of a document go side by side: they end with graphs that are relabelled,
or with errors of the same kind (`toGraph_alike`). What such graphs are compiled to does not show
which supply it was (`compile_toGraph_unaffected`).
-/

namespace Workflow

open Except Traced

namespace Import

variable {supply supply' : Nat → NodeId} {count : Nat}

/-- Two supplies hand out these identifiers at the same time. -/
def Paired (supply supply' : Nat → NodeId) (count : Nat) (id id' : NodeId) : Prop :=
  ∃ i < count, supply i = id ∧ supply' i = id'

/-- Identifiers that differ are paired with one other each. -/
theorem biUnique_paired (hd : Distinct supply count) (hd' : Distinct supply' count) :
    Relator.BiUnique (Paired supply supply' count) := by
  constructor
  · rintro _ _ _ ⟨i, hi, rfl, rfl⟩ ⟨j, hj, rfl, heq⟩
    rw [hd' j i hj hi heq]
  · rintro _ _ _ ⟨i, hi, rfl, rfl⟩ ⟨j, hj, heq, rfl⟩
    rw [hd j i hj hi heq]

/-- Nodes for error handlers that match. -/
structure HandlerNode.Relabelled (R : NodeId → NodeId → Prop) (h h' : HandlerNode) : Prop where
  node : R h.node h'.node
  targets : h.targets = h'.targets

/-- Nodes that match wait for the same edges. -/
structure Pending.Relabelled (R : NodeId → NodeId → Prop) (p p' : Pending) : Prop where
  state : p.state = p'.state
  node : R p.node p'.node
  errorPort : p.errorPort = p'.errorPort
  targets : p.targets = p'.targets
  handlers : Option.Rel (HandlerNode.Relabelled R) p.handlers p'.handlers

/-- Two imports under way have got equally far. -/
structure Draft.Relabelled (R : NodeId → NodeId → Prop) (d d' : Draft) : Prop where
  graph : d.graph.Relabelled R d'.graph
  pending : List.Forall₂ (Pending.Relabelled R) d.pending d'.pending
  skipped : d.skipped = d'.skipped

section

variable {T : Type} [NodeSpec T] {c : Catalog T} {settings : Settings} {g g' : Graph}

/-! ### Adding nodes -/

theorem insertNext_rel (hR : Relator.BiUnique (Paired supply supply' count))
    (h : g.Relabelled (Paired supply supply' count) g') (hlt : g.nodeCount < count) (n : Node) :
    Paired supply supply' count (insertNext supply g n).1 (insertNext supply' g' n).1 ∧
      (insertNext supply g n).2.Relabelled (Paired supply supply' count)
        (insertNext supply' g' n).2 := by
  have hid : Paired supply supply' count (supply g.nodeCount) (supply' g'.nodeCount) :=
    ⟨g.nodeCount, hlt, rfl, h.nodeCount_eq ▸ rfl⟩
  exact ⟨hid, h.insert hR hid n⟩

theorem addStart_alike (hR : Relator.BiUnique (Paired supply supply' count))
    (h : g.Relabelled (Paired supply supply' count) g') (hlt : g.nodeCount < count)
    (start : Option Start) :
    Except.Alike Error.SameKind (fun r r' => Paired supply supply' count r.1 r'.1 ∧
        r.2.1 = r'.2.1 ∧ r.2.2.Relabelled (Paired supply supply' count) r'.2.2 ∧
        r.2.2.nodeCount = g.nodeCount + 1)
      (addStart c supply g start) (addStart c supply' g' start) := by
  refine (alike_self Error.sameKind_self (c.lookup NodeType.startName)).bind ?_
  rintro t _ rfl
  refine (alike_self Error.sameKind_self (nodeOf NodeType.startName t NodeType.startName _)).bind ?_
  rintro ⟨node, targets⟩ _ rfl
  obtain ⟨hid, hg⟩ := insertNext_rel hR h hlt _
  exact .ok ⟨hid, rfl, hg, rfl⟩

theorem addHandlers_alike (hR : Relator.BiUnique (Paired supply supply' count))
    (h : g.Relabelled (Paired supply supply' count) g') (hlt : g.nodeCount < count)
    (owner : String) (hs : List CatchEntry) :
    Except.Alike Error.SameKind (fun r r' => r.1.Relabelled (Paired supply supply' count) r'.1 ∧
        r.2.Relabelled (Paired supply supply' count) r'.2 ∧ r.2.nodeCount = g.nodeCount + 1)
      (addHandlers c supply g owner hs) (addHandlers c supply' g' owner hs) := by
  refine (alike_self Error.sameKind_self (c.lookup NodeType.catchName)).bind ?_
  rintro t _ rfl
  refine (alike_self Error.sameKind_self (nodeOf NodeType.catchName t owner _)).bind ?_
  rintro ⟨node, targets⟩ _ rfl
  obtain ⟨hid, hg⟩ := insertNext_rel hR h hlt _
  exact .ok ⟨⟨hid, rfl⟩, hg, rfl⟩

/-- A state adds two nodes at most, in both imports alike. -/
theorem addState_alike (hR : Relator.BiUnique (Paired supply supply' count)) {d d' : Draft}
    (h : d.Relabelled (Paired supply supply' count) d') (hle : d.graph.nodeCount + 2 ≤ count)
    (t : T) (s : State) :
    Except.Alike Error.SameKind (fun r r' => r.Relabelled (Paired supply supply' count) r' ∧
        r.graph.nodeCount ≤ d.graph.nodeCount + 2)
      (addState c supply t d s) (addState c supply' t d' s) := by
  refine (alike_self Error.sameKind_self (nodeOf s.kind t s.id s.fields)).bind ?_
  rintro ⟨node, targets⟩ _ rfl
  obtain ⟨hid, hg⟩ := insertNext_rel hR h.graph (by omega) _
  cases s.handlers with
  | none =>
    exact .ok ⟨⟨hg, List.rel_append h.pending (.cons ⟨rfl, hid, rfl, rfl, .none⟩ .nil), h.skipped⟩,
      Nat.le_succ _⟩
  | some hs =>
    -- The node of the error handlers is the second one, so it takes the identifier after the next.
    refine (addHandlers_alike hR hg ?_ s.id hs).bind fun r r' hr => ?_
    · show d.graph.nodeCount + 1 < count
      omega
    · obtain ⟨hhandlers, hgraph, hcount⟩ := hr
      refine .ok ⟨⟨hgraph, ?_, h.skipped⟩, hcount.le⟩
      exact List.rel_append h.pending (.cons ⟨rfl, hid, rfl, rfl, .some hhandlers⟩ .nil)

/-- A state is added in both imports, or left out of both, or refused by both. -/
theorem takeState_alike (hR : Relator.BiUnique (Paired supply supply' count)) {d d' : Draft}
    (h : d.Relabelled (Paired supply supply' count) d') (hle : d.graph.nodeCount + 2 ≤ count)
    (s : State) :
    Traced.Alike (fun _ _ => True) Error.SameKind
      (fun r r' => r.Relabelled (Paired supply supply' count) r' ∧
        r.graph.nodeCount ≤ d.graph.nodeCount + 2)
      (takeState settings c supply d s) (takeState settings c supply' d' s) := by
  unfold takeState
  cases c.get? s.kind with
  | some t => exact alike_liftM (addState_alike hR h hle t s)
  | none =>
    by_cases hskip : settings.skipUnregistered
    · rw [if_pos hskip, if_pos hskip]
      refine (alike_note (List.forall₂_same.2 fun _ _ => trivial)).bind fun _ _ _ => alike_pure ?_
      exact ⟨⟨h.graph, h.pending, by rw [h.skipped]⟩, Nat.le_add_right _ 2⟩
    · rw [if_neg hskip, if_neg hskip]
      exact alike_fail rfl

theorem foldlM_takeState_alike (hR : Relator.BiUnique (Paired supply supply' count))
    (states : List State) {d d' : Draft} (h : d.Relabelled (Paired supply supply' count) d')
    (hle : d.graph.nodeCount + 2 * states.length ≤ count) :
    Traced.Alike (fun _ _ => True) Error.SameKind
      (Draft.Relabelled (Paired supply supply' count))
      (states.foldlM (takeState settings c supply) d)
      (states.foldlM (takeState settings c supply') d') := by
  induction states generalizing d d' with
  | nil => exact alike_pure h
  | cons s states ih =>
    rw [List.length_cons] at hle
    rw [List.foldlM_cons, List.foldlM_cons]
    refine (takeState_alike hR h (by omega) s).bind fun r r' hr => ih hr.1 ?_
    have := hr.2
    omega

/-! ### Drawing edges -/

variable {R : NodeId → NodeId → Prop} {pending pending' : List Pending}

theorem resolve_alike (h : List.Forall₂ (Pending.Relabelled R) pending pending')
    (owner name : String) :
    Except.Alike Error.SameKind R (resolve pending owner name) (resolve pending' owner name) := by
  have hfound : Option.Rel (Pending.Relabelled R) (pending.find? (·.state = name))
      (pending'.find? (·.state = name)) := h.find?_rel fun p p' hp => by rw [hp.state]
  unfold resolve
  generalize pending.find? (·.state = name) = p?, pending'.find? (·.state = name) = p?' at hfound
  cases hfound with
  | none => exact .error rfl
  | some hp => exact .ok hp.node

theorem drawEdges_alike (hR : Relator.BiUnique R) (hg : g.Relabelled R g')
    (h : List.Forall₂ (Pending.Relabelled R) pending pending') (owner : String)
    {source source' : NodeId} (hsource : R source source') (targets : List (Port × String)) :
    Except.Alike Error.SameKind (Graph.Relabelled R) (drawEdges pending owner source g targets)
      (drawEdges pending' owner source' g' targets) := by
  refine alike_foldlM (List.forall₂_same.2 fun _ _ => rfl) ?_ hg
  rintro g g' ⟨port, name⟩ _ hg rfl
  exact (resolve_alike h owner name).bind fun _ _ htarget =>
    hg.addEdge hR ⟨hsource, rfl, htarget, rfl⟩

theorem wire_alike (hR : Relator.BiUnique R) (hg : g.Relabelled R g')
    (h : List.Forall₂ (Pending.Relabelled R) pending pending') {p p' : Pending}
    (hp : p.Relabelled R p') :
    Except.Alike Error.SameKind (Graph.Relabelled R) (wire pending g p) (wire pending' g' p') := by
  obtain ⟨state, node, errorPort, targets, handlers⟩ := p
  obtain ⟨state', node', errorPort', targets', handlers'⟩ := p'
  obtain ⟨rfl, hnode, rfl, rfl, hhandlers⟩ := hp
  cases hhandlers with
  | none => exact drawEdges_alike hR hg h state hnode targets
  | @some handler handler' hh =>
    obtain ⟨handlerNode, handlerTargets⟩ := handler
    obtain ⟨handlerNode', handlerTargets'⟩ := handler'
    obtain ⟨hhandler, rfl : handlerTargets = handlerTargets'⟩ := hh
    cases errorPort with
    | none => exact .error rfl
    | some port =>
      have hedge : (Edge.ofOutput node port handlerNode).Relabelled R
          (.ofOutput node' port handlerNode') := ⟨hnode, rfl, hhandler, rfl⟩
      refine (hg.addEdge hR hedge).bind fun g g' hg => ?_
      refine (drawEdges_alike hR hg h state hhandler handlerTargets).bind fun g g' hg => ?_
      exact drawEdges_alike hR hg h state hnode targets

theorem entryNode_alike (h : List.Forall₂ (Pending.Relabelled R) pending pending')
    (entry : Option String) :
    Traced.Alike (fun _ _ => True) Error.SameKind (Option.Rel R)
      (entryNode settings pending entry) (entryNode settings pending' entry) := by
  cases entry with
  | some name =>
    exact (alike_liftM (resolve_alike h NodeType.startName name)).bind
      fun _ _ hid => alike_pure (.some hid)
  | none =>
    cases h with
    | nil => exact alike_pure .none
    | cons hp =>
      unfold entryNode
      dsimp only
      split
      · exact (alike_note (.cons trivial .nil)).bind fun _ _ _ => alike_pure (.some hp.node)
      · exact alike_pure .none

end

/-! ### Documents -/

variable {T : Type} [NodeSpec T]

/-- Identifiers from another supply give a graph that differs in nothing else. -/
theorem toGraph_alike (settings : Settings) (c : Catalog T) (d : Document)
    (hR : Relator.BiUnique (Paired supply supply' (1 + 2 * d.states.length))) :
    Traced.Alike (fun _ _ => True) Error.SameKind
      (fun i i' => i.graph.Relabelled (Paired supply supply' (1 + 2 * d.states.length)) i'.graph ∧
        i.skipped = i'.skipped)
      (d.toGraph settings c supply) (d.toGraph settings c supply') := by
  unfold Document.toGraph
  cases repeatedId? [] d.states with
  | some id => exact alike_fail rfl
  | none =>
    have hempty := Graph.relabelled_empty (Paired supply supply' (1 + 2 * d.states.length))
      ⟨d.functions, d.extra⟩
    have hlt : (Graph.empty ⟨d.functions, d.extra⟩).nodeCount < 1 + 2 * d.states.length :=
      Nat.lt_add_right _ Nat.zero_lt_one
    refine (alike_liftM (addStart_alike hR hempty hlt d.start)).bind ?_
    rintro ⟨start, entry, g⟩ ⟨start', entry', g'⟩ ⟨hstart, hentry, hg, hcount⟩
    obtain rfl : entry = entry' := hentry
    have hdraft : Draft.Relabelled _ ⟨g, [], []⟩ ⟨g', [], []⟩ := ⟨hg, .nil, rfl⟩
    refine (foldlM_takeState_alike hR d.states hdraft ?_).bind fun draft draft' hdraft => ?_
    · exact (congrArg (· + 2 * d.states.length) hcount).le
    refine (entryNode_alike hdraft.pending entry).bind fun e? e?' he => ?_
    have hwired {g g' : Graph} (hg : g.Relabelled (Paired supply supply' _) g') :=
      Except.alike_foldlM hdraft.pending
        (fun _ _ _ _ hg hp => wire_alike hR hg hdraft.pending hp) hg
    cases he with
    | none =>
      exact (alike_liftM (hwired hdraft.graph)).bind fun g g' hg =>
        alike_pure ⟨hg, hdraft.skipped⟩
    | some he =>
      refine (alike_liftM (hdraft.graph.addEdge hR ?_)).bind fun g g' hg => ?_
      · exact ⟨hstart, rfl, he, rfl⟩
      exact (alike_liftM (hwired hg)).bind fun g g' hg => alike_pure ⟨hg, hdraft.skipped⟩

/-- The identifiers of an import do not influence its result, whatever the functions of the types
do. With others, it fails with an error of the same kind, or leaves out the same states; and its
graph is compiled to the same document, or fails to compile with an error of the same kind. -/
theorem compile_toGraph_unaffected (settings : Settings) (c : Catalog T) (d : Document)
    (hd : Distinct supply (1 + 2 * d.states.length))
    (hd' : Distinct supply' (1 + 2 * d.states.length)) :
    (∃ e e', (d.toGraph settings c supply).outcome = .error e ∧
        (d.toGraph settings c supply').outcome = .error e' ∧ e.kind = e'.kind) ∨
      ∃ r r', (d.toGraph settings c supply).outcome = .ok r ∧
        (d.toGraph settings c supply').outcome = .ok r' ∧ r.skipped = r'.skipped ∧
        ((∃ e e', (r.graph.compile c).outcome = .error e ∧
            (r'.graph.compile c).outcome = .error e' ∧ e.kind = e'.kind) ∨
          ∃ result, (r.graph.compile c).outcome = .ok result ∧
            (r'.graph.compile c).outcome = .ok result) := by
  have hR := biUnique_paired hd hd'
  have himport := (toGraph_alike settings c d hR).outcome
  generalize (d.toGraph settings c supply).outcome = x,
    (d.toGraph settings c supply').outcome = x' at himport
  cases himport with
  | error he => exact .inl ⟨_, _, rfl, rfl, he⟩
  | @ok r r' hr =>
    refine .inr ⟨r, r', rfl, rfl, hr.2, ?_⟩
    have hcompile := (hr.1.compile_alike hR c).outcome
    generalize (r.graph.compile c).outcome = y, (r'.graph.compile c).outcome = y' at hcompile
    cases hcompile with
    | error he => exact .inl ⟨_, _, rfl, rfl, he⟩
    | ok hresult => exact .inr ⟨_, rfl, congrArg Except.ok hresult.symm⟩

/-- A document with error handlers and with a state of an unknown type. -/
def partlyKnownDocument : Document :=
  ⟨[], none, some ⟨none, some "a", []⟩,
    [⟨"a", "noop", [("transition", .str "b")], some [⟨"E", some "b", []⟩]⟩, ⟨"b", "noop", [], none⟩,
      ⟨"c", "unknown", [], none⟩]⟩

/-- Identifiers may be handed out in descending order. -/
theorem compile_partlyKnownDocument_descending :
    ∃ r r' result, (partlyKnownDocument.toGraph {} .standard NodeId.ofNat).outcome = .ok r ∧
      (partlyKnownDocument.toGraph {} .standard fun i => NodeId.ofNat (6 - i)).outcome = .ok r' ∧
      r.skipped = [⟨"c", "unknown"⟩] ∧ r'.skipped = r.skipped ∧
      (r.graph.compile .standard).outcome = .ok result ∧
      (r'.graph.compile .standard).outcome = .ok result := by
  have hascending : Distinct NodeId.ofNat 7 := distinct_ofNat (by decide)
  have hdescending : Distinct (fun i => NodeId.ofNat (6 - i)) 7 := by
    intro i j hi hj heq
    have := hascending (6 - i) (6 - j) (by omega) (by omega) heq
    omega
  have hskipped : (partlyKnownDocument.toGraph {} .standard NodeId.ofNat).outcome.toOption.map
      Imported.skipped = some [⟨"c", "unknown"⟩] := by decide +kernel
  have hcompiled : ((partlyKnownDocument.toGraph {} .standard NodeId.ofNat).outcome.toOption.bind
      fun r => (r.graph.compile .standard).outcome.toOption).isSome = true := by decide +kernel
  obtain ⟨e, -, he, -⟩ | ⟨r, r', hr, hr', hsame, hresult⟩ :=
    compile_toGraph_unaffected {} .standard partlyKnownDocument hascending hdescending
  · rw [he] at hskipped
    cases hskipped
  · rw [hr] at hskipped hcompiled
    obtain ⟨e, -, he, -⟩ | ⟨result, h, h'⟩ := hresult
    · rw [Except.toOption, Option.bind_some, he] at hcompiled
      cases hcompiled
    · exact ⟨r, r', result, hr, hr', Option.some.inj hskipped, hsame.symm, h, h'⟩

end Import

end Workflow
