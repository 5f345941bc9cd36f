import Mathlib.Data.Finmap
import Workflow.Proofs.Graph.Sound

/-!
# Graphs as ledgers

A `Ledger` is what is left of a graph without arenas, cells and tables: a finite map from
identifiers to nodes, and a list of edges in the order in which they were added. Every call that adds
or removes nodes or edges has a plain meaning on a ledger (`Call.onLedger`): a new edge comes last,
of equal edges the last one is removed, a node goes with the edges that touch it.

A graph follows its ledger. `Ledger.Records` relates the two, each call keeps the relation and gives
the same answer on both sides (`Ledger.Records.step`), and a graph that follows its ledger answers
every question as the ledger does (`Ledger.Records.agrees`). `Ledger.run_agrees` puts this together
for calls one after the other, from the graph without nodes on.
-/

namespace Workflow

variable {T : Type} [NodeSpec T]

/-- The nodes and the edges of a graph. -/
structure Ledger where
  nodes : Finmap fun _ : NodeId => Node
  /-- The edges, oldest first. -/
  edges : List Edge

/-- A call that adds or removes nodes, edges or outputs. -/
inductive Call where
  /-- Adds a new node of a type in the catalog. -/
  | add (id : NodeId) (kind : String) (form : Fields)
  /-- Puts in a node that was made elsewhere. -/
  | insert (id : NodeId) (n : Node)
  | erase (id : NodeId)
  | addEdge (e : Edge)
  | eraseEdge (e : Edge)
  | resizeOutputs (id : NodeId) (count : PortCount)

/-- What a call answers. -/
inductive Answer where
  | done (outcome : Except Error Unit)
  /-- The node that was removed. -/
  | removed (node : Option Node)
  /-- Whether there was such an edge. -/
  | existed (found : Bool)
  /-- The edges that lost their output. -/
  | dropped (outcome : Except Error (List Edge))
  deriving DecidableEq

/-- The state after a call that may fail, and the answer. A call that fails changes nothing. -/
def Answer.settle {σ : Type} (s : σ) (outcome : Except Error σ) : σ × Answer :=
  (outcome.toOption.getD s, .done (outcome.map fun _ => ()))

namespace Ledger

/-- The ledger without nodes. -/
def empty : Ledger := ⟨∅, []⟩

/-! ### Questions -/

/-- The edges that leave a node. -/
def outgoing (l : Ledger) (id : NodeId) : List Edge := l.edges.filter (·.source = id)

/-- The edges that arrive at a node. -/
def incoming (l : Ledger) (id : NodeId) : List Edge := l.edges.filter (·.target = id)

/-- The outputs of a node with the edges that leave them. -/
def outputsOf (l : Ledger) (id : NodeId) : Except Error (List (Port × List Edge)) :=
  match l.nodes.lookup id with
  | some n => .ok ((Port.all n.outputs).map fun p => (p, (l.outgoing id).filter (·.output = p)))
  | none => .error (.nodeNotFound id)

/-- The inputs of a node with the edges that arrive at them. -/
def inputsOf (l : Ledger) (id : NodeId) : Except Error (List (Port × List Edge)) :=
  match l.nodes.lookup id with
  | some n => .ok ((Port.all n.inputs).map fun p => (p, (l.incoming id).filter (·.input = p)))
  | none => .error (.nodeNotFound id)

/-! ### Calls -/

/-- Adds a node. -/
def insert (l : Ledger) (id : NodeId) (n : Node) : Ledger :=
  { l with nodes := l.nodes.insert id n }

/-- Removes a node and the edges that touch it. -/
def erase (l : Ledger) (id : NodeId) : Ledger where
  nodes := l.nodes.erase id
  edges := l.edges.filter fun e => e.source ≠ id && e.target ≠ id

/-- Why an edge cannot be added. -/
def refusal? (l : Ledger) (e : Edge) : Option Error :=
  match l.nodes.lookup e.source, l.nodes.lookup e.target with
  | none, _ => some (.nodeNotFound e.source)
  | some _, none => some (.nodeNotFound e.target)
  | some source, some target =>
    if !e.output.isWithin source.outputs then some (.portOutOfRange e.source e.output)
    else if !e.input.isWithin target.inputs then some (.portOutOfRange e.target e.input)
    else if !source.allowsFanOut e.output && (l.outgoing e.source).any (·.output = e.output) then
      some (.portCapacity e.source e.output)
    else none

/-- Adds an edge, which is then the newest one. -/
def addEdge (l : Ledger) (e : Edge) : Except Error Ledger :=
  match l.refusal? e with
  | some reason => .error reason
  | none => .ok { l with edges := l.edges ++ [e] }

/-- Removes the newest of the edges equal to `e`. -/
def eraseEdge (l : Ledger) (e : Edge) : Ledger :=
  { l with edges := Graph.withoutNewest e l.edges }

/-- Changes the number of outputs of a node and removes the edges on the outputs that it loses: the
ledger after that, and those edges. -/
def resizeOutputs (l : Ledger) (id : NodeId) (count : PortCount) :
    Ledger × Except Error (List Edge) :=
  match l.nodes.lookup id with
  | some n =>
    (⟨l.nodes.insert id { n with outputs := count },
      l.edges.filter fun e => !(decide (e.source = id) && decide (count < e.output))⟩,
      .ok ((l.outgoing id).filter (count < ·.output)))
  | none => (l, .error (.nodeNotFound id))

end Ledger

namespace Call

/-- A call on a ledger. -/
def onLedger (c : Catalog T) (l : Ledger) : Call → Ledger × Answer
  | add id kind form =>
    Answer.settle l ((c.lookup kind).map fun t => l.insert id (.ofType kind t form))
  | insert id n => (l.insert id n, .done (.ok ()))
  | erase id => (l.erase id, .removed (l.nodes.lookup id))
  | addEdge e => Answer.settle l (l.addEdge e)
  | eraseEdge e => (l.eraseEdge e, .existed (l.edges.contains e))
  | resizeOutputs id count =>
    ((l.resizeOutputs id count).1, .dropped (l.resizeOutputs id count).2)

/-- A call on a graph. -/
def onGraph (c : Catalog T) (g : Graph) : Call → Graph × Answer
  | add id kind form => Answer.settle g (g.add c id kind form)
  | insert id n => (g.insert id n, .done (.ok ()))
  | erase id => (g.erase id, .removed (g.node? id))
  | addEdge e => Answer.settle g (g.addEdge e)
  | eraseEdge e => ((g.eraseEdge? e).getD g, .existed (g.eraseEdge? e).isSome)
  | resizeOutputs id count =>
    ((g.resizeOutputs id count).1, .dropped (g.resizeOutputs id count).2)

/-- A new node gets an identifier that is not in use. -/
def Fresh (g : Graph) : Call → Prop
  | add id _ _ | insert id _ => g.contains id = false
  | _ => True

instance (g : Graph) (call : Call) : Decidable (Fresh g call) :=
  match call with
  | add id _ _ | insert id _ => inferInstanceAs (Decidable (g.contains id = false))
  | erase _ | addEdge _ | eraseEdge _ | resizeOutputs _ _ => .isTrue trivial

/-- The state after calls one after the other, and their answers. -/
def run {σ : Type} (perform : σ → Call → σ × Answer) : σ → List Call → σ × List Answer
  | s, [] => (s, [])
  | s, call :: rest =>
    let (s', answer) := perform s call
    let (last, answers) := run perform s' rest
    (last, answer :: answers)

/-- Every new node gets an identifier that is not in use when it comes. -/
def AllFresh (c : Catalog T) : Graph → List Call → Prop
  | _, [] => True
  | g, call :: rest => call.Fresh g ∧ AllFresh c (call.onGraph c g).1 rest

instance (c : Catalog T) : (g : Graph) → (calls : List Call) → Decidable (AllFresh c g calls)
  | _, [] => .isTrue trivial
  | g, call :: rest =>
    have := instDecidableAllFresh c (call.onGraph c g).1 rest
    inferInstanceAs (Decidable (call.Fresh g ∧ AllFresh c (call.onGraph c g).1 rest))

end Call

namespace Ledger

/-- The graph answers every question as the ledger does; only the list of all edges may have another
order. -/
structure Agrees (l : Ledger) (g : Graph) : Prop where
  node?_eq : ∀ id, g.node? id = l.nodes.lookup id
  outgoing_eq : ∀ id, g.outgoing id = l.outgoing id
  incoming_eq : ∀ id, g.incoming id = l.incoming id
  outputsOf_eq : ∀ id, g.outputsOf id = l.outputsOf id
  inputsOf_eq : ∀ id, g.inputsOf id = l.inputsOf id
  edges_perm : g.edges.Perm l.edges
  containsEdge_iff : ∀ e, g.containsEdge e = true ↔ e ∈ l.edges

/-- The graph has the nodes and the edges of the ledger. -/
structure Records (l : Ledger) (g : Graph) : Prop where
  sound : g.Sound l.edges
  node?_eq : ∀ id, g.node? id = l.nodes.lookup id

theorem records_empty (metadata : Metadata) : Records empty (Graph.empty metadata) where
  sound := Graph.sound_empty metadata
  node?_eq _ := rfl

namespace Records

variable {l : Ledger} {g : Graph}

/-! ### Questions to a graph that follows its ledger -/

theorem contains_iff (h : l.Records g) {id : NodeId} :
    g.contains id = true ↔ (l.nodes.lookup id).isSome = true := by
  rw [h.sound.consistent.contains_iff, ← h.node?_eq, Option.isSome_iff_exists]

theorem agrees (h : l.Records g) : l.Agrees g where
  node?_eq := h.node?_eq
  outgoing_eq := h.sound.outgoing_eq
  incoming_eq := h.sound.incoming_eq
  outputsOf_eq id := by
    rw [outputsOf, ← h.node?_eq]
    cases hn : g.node? id with
    | none => simp [Graph.outputsOf, Graph.node, hn, bind, Except.bind]
    | some n => rw [h.sound.outputsOf_eq hn, h.sound.outgoing_eq, outgoing]
  inputsOf_eq id := by
    rw [inputsOf, ← h.node?_eq]
    cases hn : g.node? id with
    | none => simp [Graph.inputsOf, Graph.node, hn, bind, Except.bind]
    | some n => rw [h.sound.inputsOf_eq hn, h.sound.incoming_eq, incoming]
  edges_perm := h.sound.edges_perm
  containsEdge_iff e := by
    rw [Graph.containsEdge, h.sound.outgoing_eq]
    simp

/-! ### Calls -/

/-- An outcome on a graph follows the one on its ledger: both fail for the same reason, or the new
graph follows the new ledger. -/
inductive Follows : Except Error Ledger → Except Error Graph → Prop
  | error (reason : Error) : Follows (.error reason) (.error reason)
  | ok {l : Ledger} {g : Graph} (h : l.Records g) : Follows (.ok l) (.ok g)

/-- Two results of a call: the graph follows the ledger, and the answers are the same. -/
def SameStep (onLedger : Ledger × Answer) (onGraph : Graph × Answer) : Prop :=
  onLedger.1.Records onGraph.1 ∧ onGraph.2 = onLedger.2

theorem Follows.settle (h : l.Records g) {onLedger : Except Error Ledger}
    {onGraph : Except Error Graph} (hout : Follows onLedger onGraph) :
    SameStep (Answer.settle l onLedger) (Answer.settle g onGraph) := by
  cases hout with
  | error reason => exact ⟨h, rfl⟩
  | ok h' => exact ⟨h', rfl⟩

theorem insert (h : l.Records g) {id : NodeId} (hid : g.contains id = false) (n : Node) :
    (l.insert id n).Records (g.insert id n) where
  sound := h.sound.insert hid n
  node?_eq other := by
    rw [h.sound.consistent.node?_insert, h.node?_eq]
    split
    next heq => rw [← heq, Ledger.insert, Finmap.lookup_insert]
    next hne => rw [Ledger.insert, Finmap.lookup_insert_of_ne _ (Ne.symm hne)]

theorem erase (h : l.Records g) (id : NodeId) : (l.erase id).Records (g.erase id) where
  sound := h.sound.erase id
  node?_eq other := by
    rw [h.sound.consistent.node?_erase, h.node?_eq]
    split
    next heq => rw [← heq, Ledger.erase, Finmap.lookup_erase]
    next hne => rw [Ledger.erase, Finmap.lookup_erase_ne (Ne.symm hne)]

theorem isSome_edgeOn? (h : l.Records g) (id : NodeId) (p : Port) :
    (g.edgeOn? id p).isSome = (l.outgoing id).any (·.output = p) := by
  rw [h.sound.edgeOn?_eq, List.isSome_find?, outgoing, List.any_filter]

/-- What the ledger refuses, the graph refuses for the same reason. -/
theorem addEdge_of_refusal (h : l.Records g) {e : Edge} {reason : Error}
    (hr : l.refusal? e = some reason) : g.addEdge e = .error reason := by
  have hcell : ∀ id, g.node? id = none → g.cell? id = none := fun id hid => by
    have hnot : g.contains id = false := by
      rw [← Bool.not_eq_true, h.sound.consistent.contains_iff, hid]
      simp
    simpa [Graph.contains] using hnot
  rw [refusal?, ← h.node?_eq, ← h.node?_eq] at hr
  unfold Graph.addEdge
  -- Both ask for the ends first, then for their ports, and last for room on the output.
  cases hs : g.node? e.source with
  | none =>
    rw [hs] at hr
    cases hr
    simp [hcell _ hs, throw, throwThe, MonadExceptOf.throw]
  | some source =>
    obtain ⟨i, hi, -⟩ := Graph.node?_eq_some_iff.1 hs
    cases ht : g.node? e.target with
    | none =>
      rw [hs, ht] at hr
      cases hr
      simp [hi, hcell _ ht, throw, throwThe, MonadExceptOf.throw]
    | some target =>
      obtain ⟨j, hj, -⟩ := Graph.node?_eq_some_iff.1 ht
      simp only [hs, ht] at hr
      simp only [hi, hj, Graph.node_eq_ok_iff.2 hs, Graph.node_eq_ok_iff.2 ht,
        h.isSome_edgeOn?]
      split at hr
      next hout =>
        cases hr
        simp [hout, throw, throwThe, MonadExceptOf.throw, bind, Except.bind]
      next hout =>
        split at hr
        next hin =>
          cases hr
          simp [hout, hin, throw, throwThe, MonadExceptOf.throw, bind, Except.bind]
        next hin =>
          split at hr
          next hfull =>
            cases hr
            simp [hout, hin, hfull, throw, throwThe, MonadExceptOf.throw, bind, Except.bind]
          next => cases hr

/-- What the ledger takes, the graph takes. -/
theorem addEdge_ok (h : l.Records g) {e : Edge} (hr : l.refusal? e = none) :
    ∃ g', g.addEdge e = .ok g' := by
  rw [refusal?, ← h.node?_eq, ← h.node?_eq] at hr
  cases hs : g.node? e.source with
  | none => simp [hs] at hr
  | some source =>
    cases ht : g.node? e.target with
    | none => simp [hs, ht] at hr
    | some target =>
      obtain ⟨i, hi, -⟩ := Graph.node?_eq_some_iff.1 hs
      obtain ⟨j, hj, -⟩ := Graph.node?_eq_some_iff.1 ht
      simp only [hs, ht, ite_eq_right_iff, reduceCtorEq, imp_false, Bool.not_eq_true',
        Bool.not_eq_false, ite_eq_iff, and_false, false_or, ← h.isSome_edgeOn?] at hr
      obtain ⟨hout, hin, hfree⟩ := hr
      refine ⟨_, Graph.addEdge_eq_ok_iff.2
        ⟨i, j, source, target, hi, hj, hs, ht, hout, hin, ?_, rfl⟩⟩
      rw [← Option.not_isSome_iff_eq_none]
      by_cases hfan : source.allowsFanOut e.output = true
      · exact .inl hfan
      · exact .inr (by simpa [hfan] using hfree)

theorem addEdge (h : l.Records g) (e : Edge) : Follows (l.addEdge e) (g.addEdge e) := by
  rw [Ledger.addEdge]
  cases hr : l.refusal? e with
  | some reason =>
    rw [h.addEdge_of_refusal hr]
    exact .error reason
  | none =>
    obtain ⟨g', hg'⟩ := h.addEdge_ok hr
    rw [hg']
    refine .ok ⟨h.sound.addEdge hg', fun id => ?_⟩
    rw [Graph.node?_addEdge hg', h.node?_eq]

theorem eraseEdge (h : l.Records g) (e : Edge) :
    (l.eraseEdge e).Records ((g.eraseEdge? e).getD g) where
  sound := h.sound.eraseEdge e
  node?_eq id := by
    rw [Graph.node?_eraseEdge]
    exact h.node?_eq id

theorem isSome_eraseEdge? (h : l.Records g) (e : Edge) :
    (g.eraseEdge? e).isSome = l.edges.contains e := by
  rw [Graph.eraseEdge?, Option.isSome_map, h.sound.linkOf?_eq, Option.isSome_map,
    Bool.eq_iff_iff, List.find?_isSome, List.contains_iff_mem]
  constructor
  · rintro ⟨x, hx, hxe⟩
    obtain ⟨f, hf, hxf⟩ := h.sound.exists_edge hx
    rw [of_decide_eq_true hxe] at hxf
    rwa [Option.some.inj hxf]
  · intro he
    obtain ⟨x, hx, hxe⟩ := h.sound.exists_link he
    exact ⟨x, hx, decide_eq_true hxe⟩

theorem resizeOutputs (h : l.Records g) (id : NodeId) (count : PortCount) :
    (l.resizeOutputs id count).1.Records (g.resizeOutputs id count).1 ∧
      (g.resizeOutputs id count).2 = (l.resizeOutputs id count).2 := by
  -- Every edge is on an output from the first on, so it goes exactly when its output is too great.
  have hlost : ∀ e ∈ l.edges, (!e.output.isWithin count) = decide (count < e.output) := by
    intro e he
    obtain ⟨source, -, -, -, ho, -⟩ := h.sound.inRange e he
    have hfirst := ((Port.isWithin_iff _ _).1 ho).1
    rw [Bool.eq_iff_iff, Bool.not_eq_true', ← Bool.not_eq_true, Port.isWithin_iff,
      decide_eq_true_iff, UInt16.lt_iff_toNat_lt]
    omega
  cases hn : l.nodes.lookup id with
  | none =>
    have hid : g.contains id = false := by
      rw [← Bool.not_eq_true, h.contains_iff, hn]
      simp
    rw [Graph.resizeOutputs_of_not_contains hid, Ledger.resizeOutputs, hn]
    exact ⟨h, rfl⟩
  | some n =>
    have hid : g.contains id = true := by rw [h.contains_iff, hn]; rfl
    have hkept : (l.edges.filter fun e => !(decide (e.source = id) && !e.output.isWithin count))
        = l.edges.filter fun e => !(decide (e.source = id) && decide (count < e.output)) :=
      List.filter_congr fun e he => by rw [hlost e he]
    have hdropped : (l.edges.filter fun e => e.source = id && !e.output.isWithin count)
        = (l.outgoing id).filter (count < ·.output) := by
      rw [outgoing, List.filter_filter]
      exact List.filter_congr fun e he => by rw [hlost e he, Bool.and_comm]
    have hsound := h.sound.resizeOutputs hid count
    rw [hkept] at hsound
    rw [Ledger.resizeOutputs, hn]
    refine ⟨⟨hsound, fun other => ?_⟩, ?_⟩
    · rw [h.sound.node?_resizeOutputs hid, h.node?_eq]
      split
      next heq => rw [← heq, hn, Finmap.lookup_insert, Option.map_some]
      next hne => rw [Finmap.lookup_insert_of_ne _ (Ne.symm hne)]
    · obtain ⟨links, heq, -⟩ := h.sound.resizeOutputs_eq hid count
      rw [heq, hdropped]

/-- Each call keeps a graph with its ledger, and gives the same answer on both. -/
theorem step (c : Catalog T) (h : l.Records g) {call : Call} (hfresh : call.Fresh g) :
    SameStep (call.onLedger c l) (call.onGraph c g) := by
  cases call with
  | add id kind form =>
    refine Follows.settle h ?_
    rw [Graph.add]
    cases c.lookup kind with
    | error reason => exact .error reason
    | ok t => exact .ok (h.insert hfresh _)
  | insert id n => exact ⟨h.insert hfresh n, rfl⟩
  | erase id => exact ⟨h.erase id, congrArg _ (h.node?_eq id)⟩
  | addEdge e => exact Follows.settle h (h.addEdge e)
  | eraseEdge e => exact ⟨h.eraseEdge e, congrArg _ (h.isSome_eraseEdge? e)⟩
  | resizeOutputs id count =>
    obtain ⟨hrecords, hdropped⟩ := h.resizeOutputs id count
    exact ⟨hrecords, congrArg _ hdropped⟩

/-- So do calls one after the other. -/
theorem run {c : Catalog T} {calls : List Call} (h : l.Records g)
    (hfresh : Call.AllFresh c g calls) :
    (Call.run (Call.onLedger c) l calls).1.Records (Call.run (Call.onGraph c) g calls).1 ∧
      (Call.run (Call.onGraph c) g calls).2 = (Call.run (Call.onLedger c) l calls).2 := by
  induction calls generalizing l g with
  | nil => exact ⟨h, rfl⟩
  | cons call rest ih =>
    obtain ⟨hstep, hanswer⟩ := h.step c hfresh.1
    obtain ⟨hrest, hanswers⟩ := ih hstep hfresh.2
    exact ⟨hrest, congrArg₂ List.cons hanswer hanswers⟩

end Records

/-- After any calls on the graph without nodes, the graph answers every question as its ledger does,
and each call gave the same answer on both. -/
theorem run_agrees {c : Catalog T} (metadata : Metadata) {calls : List Call}
    (hfresh : Call.AllFresh c (.empty metadata) calls) :
    (Call.run (Call.onLedger c) empty calls).1.Agrees
        (Call.run (Call.onGraph c) (.empty metadata) calls).1 ∧
      (Call.run (Call.onGraph c) (.empty metadata) calls).2 =
        (Call.run (Call.onLedger c) empty calls).2 := by
  obtain ⟨hrecords, hanswers⟩ := (records_empty metadata).run hfresh
  exact ⟨hrecords.agrees, hanswers⟩

/-- A node of which the first output takes more than one edge. -/
def hub : Node :=
  ⟨"hub", .primitive, none, [], true, 1, 2, [1], none⟩

/-- Calls after which freed places are used again: there is a loop, there are equal edges, and an
output is lost. -/
def busyCalls : List Call :=
  [.add (.ofNat 0) "start" [], .insert (.ofNat 1) hub, .add (.ofNat 2) "noop" [],
    .addEdge ⟨.ofNat 1, 1, .ofNat 2, 1⟩, .addEdge ⟨.ofNat 1, 1, .ofNat 1, 1⟩,
    .addEdge ⟨.ofNat 1, 1, .ofNat 2, 1⟩, .eraseEdge ⟨.ofNat 1, 1, .ofNat 2, 1⟩,
    .addEdge ⟨.ofNat 0, 1, .ofNat 1, 1⟩, .erase (.ofNat 2), .add (.ofNat 3) "noop" [],
    .addEdge ⟨.ofNat 1, 2, .ofNat 3, 1⟩, .addEdge ⟨.ofNat 1, 1, .ofNat 3, 1⟩,
    .resizeOutputs (.ofNat 1) 1, .addEdge ⟨.ofNat 1, 1, .ofNat 3, 1⟩]

/-- The newest edge stands first among all edges, where the edge on the lost output was, and last
among the edges of its node. -/
theorem run_agrees_busyCalls :
    let g := (Call.run (Call.onGraph .standard) (.empty .empty) busyCalls).1
    g.edges = [⟨.ofNat 1, 1, .ofNat 3, 1⟩, ⟨.ofNat 1, 1, .ofNat 1, 1⟩, ⟨.ofNat 0, 1, .ofNat 1, 1⟩,
        ⟨.ofNat 1, 1, .ofNat 3, 1⟩] ∧
      g.outputsOf (.ofNat 1) = .ok [(1, [⟨.ofNat 1, 1, .ofNat 1, 1⟩, ⟨.ofNat 1, 1, .ofNat 3, 1⟩,
        ⟨.ofNat 1, 1, .ofNat 3, 1⟩])] ∧
      (Call.run (Call.onGraph .standard) (.empty .empty) busyCalls).2[12]? =
        some (.dropped (.ok [⟨.ofNat 1, 2, .ofNat 3, 1⟩])) := by
  intro g
  have hfresh : Call.AllFresh .standard (.empty .empty) busyCalls := by decide +kernel
  obtain ⟨hagrees, hanswers⟩ := run_agrees .empty hfresh
  refine ⟨by decide +kernel, ?_, ?_⟩
  · rw [hagrees.outputsOf_eq]
    decide +kernel
  · rw [hanswers]
    decide +kernel

end Ledger

end Workflow
