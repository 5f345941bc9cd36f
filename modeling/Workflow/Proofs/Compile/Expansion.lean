import Mathlib.Data.List.Forall2
import Workflow.Compile
import Workflow.Proofs.Graph.Ports
import Workflow.Proofs.Traced

/-!
# What a node is compiled to

`Compile.expand` takes the transitions out of a form and writes one name for each connected output.
This file says what one output adds (`connectOutput_eq_ok_iff`, `connectHandler_eq_ok_iff`) and from
that what all of them add: `handlersOf_eq_ok_iff` and `expand_eq_ok_iff` describe the outcome by the
names that are written (`written`) and the nodes that have to follow (`followers`).
-/

namespace Workflow.Compile

variable {T : Type} [NodeSpec T]

theorem stateName_eq_ok_iff {g : Graph} {id : NodeId} {name : String} :
    stateName g id = .ok name ↔
      ∃ n, g.node? id = some n ∧ n.isPrimitive = true ∧ n.stateId = some name := by
  unfold stateName
  cases hn : g.node? id with
  | none => simp [Graph.node, hn, bind, Except.bind]
  | some n =>
    rw [Graph.node_eq_ok_iff.2 hn]
    cases hp : n.isPrimitive with
    | false => simp [hp, bind, Except.bind, throw, throwThe, MonadExceptOf.throw]
    | true =>
      cases hs : n.stateId with
      | none => simp [hp, hs, bind, Except.bind, throw, throwThe, MonadExceptOf.throw]
      | some s => simp [hp, hs, bind, Except.bind, pure, Except.pure]

theorem fieldsOfForm_eq_ok_iff {t : T} {owner : String} {form fields : Fields} :
    fieldsOfForm t owner form = .ok fields ↔ NodeSpec.ofForm t owner form = .ok fields := by
  unfold fieldsOfForm
  split
  next hok =>
    rw [hok]
    exact ⟨fun h => congrArg _ (Except.ok.inj h), fun h => congrArg _ (Except.ok.inj h)⟩
  next herror =>
    rw [herror]
    exact ⟨nofun, nofun⟩

/-- The id of the state that a node stands for. -/
def nameOf (g : Graph) (id : NodeId) : String := ((g.node? id).bind Node.stateId).getD ""

theorem nameOf_of_stateName {g : Graph} {id : NodeId} {name : String}
    (h : stateName g id = .ok name) : nameOf g id = name := by
  obtain ⟨n, hn, -, hs⟩ := stateName_eq_ok_iff.1 h
  simp [nameOf, hn, hs]

/-- The name that is written for an output: that of the target of its oldest edge, with the slot of
the output. Nothing is written for the error output. -/
def writtenBehind (g : Graph) (t : T) (output : Port × List Edge) :
    Option (TransitionSlot × String) :=
  match output.2, NodeSpec.slot? t output.1 with
  | e :: _, some s => if s = .error then none else some (s, nameOf g e.target)
  | _, _ => none

/-- The names that are written for outputs. -/
def written (g : Graph) (t : T) (outputs : List (Port × List Edge)) :
    List (TransitionSlot × String) :=
  outputs.filterMap (writtenBehind g t)

/-- The names that are written for the outputs of a node. -/
def writtenFor (c : Catalog T) (g : Graph) (id : NodeId) : List (TransitionSlot × String) :=
  match g.node? id, g.outputsOf id with
  | some n, .ok outputs =>
    match c.get? n.kind with
    | some t => written g t outputs
    | none => []
  | _, _ => []

theorem writtenFor_eq {c : Catalog T} {g : Graph} {id : NodeId} {n : Node} {t : T}
    {outputs : List (Port × List Edge)} (hn : g.node? id = some n) (ht : c.get? n.kind = some t)
    (ho : g.outputsOf id = .ok outputs) : writtenFor c g id = written g t outputs := by
  simp only [writtenFor, hn, ho, ht]

/-- Writes names into their slots one after the other. -/
def writeAll (fields : Fields) (names : List (TransitionSlot × String)) : Option Fields :=
  names.foldlM (fun acc w => w.1.write acc w.2) fields

/-- The nodes that the outputs of an error-catch node lead to. -/
def handlerFollowers (g : Graph) (id : NodeId) : List NodeId :=
  match g.outputsOf id with
  | .ok outputs => outputs.flatMap fun output => output.2.map Edge.target
  | .error _ => []

/-- The nodes that have to follow for the outputs of a state: those behind the error-catch node on
the oldest edge of the error output, and the targets of all other edges. -/
def followers (g : Graph) (t : T) (outputs : List (Port × List Edge)) : List NodeId :=
  outputs.flatMap fun output =>
    match output.2 with
    | [] => []
    | e :: _ =>
      if NodeSpec.slot? t output.1 = some .error then handlerFollowers g e.target
      else output.2.map Edge.target

/-! ### Error handlers -/

/-- Writing one output of an error-catch node: nothing for an unconnected one, else the name of the
state on its oldest edge. -/
theorem connectHandler_eq_ok_iff {g : Graph} {t : T} {owner : String} {form form' : Fields}
    {output : Port × List Edge} {trace : List NodeId} :
    connectHandler g t owner form output = ⟨trace, .ok form'⟩ ↔
      trace = output.2.map Edge.target ∧
        (output.2 = [] ∧ form' = form ∨
          ∃ e es name s, output.2 = e :: es ∧ stateName g e.target = .ok name ∧
            NodeSpec.slot? t output.1 = some s ∧ s.write form name = some form') := by
  obtain ⟨p, es⟩ := output
  unfold connectHandler
  cases es with
  | nil =>
    simp only [Traced.pure_eq, Traced.mk.injEq, Except.ok.injEq, List.map_nil, true_and,
      reduceCtorEq, false_and, exists_false, or_false]
    exact ⟨fun h => ⟨h.1.symm, h.2.symm⟩, fun h => ⟨h.1.symm, h.2.symm⟩⟩
  | cons e es =>
    simp only [reduceCtorEq, false_and, false_or, List.cons.injEq]
    rw [Traced.liftM_bind_eq_ok_iff]
    constructor
    · rintro ⟨name, hname, h⟩
      cases hw : (NodeSpec.slot? t p).bind (·.write form name) with
      | none => simp [hw, Traced.fail] at h
      | some f =>
        simp only [hw] at h
        obtain ⟨s, hs, hf⟩ := Option.bind_eq_some_iff.1 hw
        obtain ⟨rest, hrest, rfl⟩ := Traced.note_bind_eq_ok_iff.1 h
        obtain ⟨rfl, hok⟩ := Traced.mk.inj hrest
        cases hok
        exact ⟨by simp, e, es, name, s, ⟨rfl, rfl⟩, hname, hs, hf⟩
    · rintro ⟨rfl, _, _, name, s, ⟨rfl, rfl⟩, hname, hs, hf⟩
      refine ⟨name, hname, ?_⟩
      simp only [hs, Option.bind_some, hf]
      exact Traced.note_bind_eq_ok_iff.2 ⟨[], rfl, by simp⟩

/-- Every connected output of an error-catch node stands for a place for a name, and its oldest edge
leads to a state. -/
def HandlersFit (g : Graph) (t : T) (outputs : List (Port × List Edge)) : Prop :=
  ∀ output ∈ outputs, ∀ e es, output.2 = e :: es →
    (∃ name, stateName g e.target = .ok name) ∧
      ∃ s, NodeSpec.slot? t output.1 = some s ∧ s ≠ .error

theorem ne_error_of_write {s : TransitionSlot} {fields fields' : Fields} {name : String}
    (h : s.write fields name = some fields') : s ≠ .error := by
  rintro rfl
  cases h

theorem written_cons_of_slot {g : Graph} {t : T} {p : Port} {s : TransitionSlot}
    (hs : NodeSpec.slot? t p = some s) (hne : s ≠ .error) (e : Edge) (es : List Edge)
    (outputs : List (Port × List Edge)) :
    written g t ((p, e :: es) :: outputs) = (s, nameOf g e.target) :: written g t outputs := by
  rw [written, List.filterMap_cons]
  simp only [writtenBehind, hs, if_neg hne]
  rfl

theorem written_cons_of_error {g : Graph} {t : T} {p : Port}
    (hs : NodeSpec.slot? t p = some .error) (es : List Edge) (outputs : List (Port × List Edge)) :
    written g t ((p, es) :: outputs) = written g t outputs := by
  rw [written, List.filterMap_cons]
  cases es <;> simp only [writtenBehind, hs, if_true] <;> rfl

theorem foldlM_connectHandler_eq_ok_iff {g : Graph} {t : T} {owner : String}
    {form form' : Fields} {outputs : List (Port × List Edge)} {trace : List NodeId} :
    outputs.foldlM (connectHandler g t owner) form = ⟨trace, .ok form'⟩ ↔
      trace = outputs.flatMap (fun output => output.2.map Edge.target) ∧
        HandlersFit g t outputs ∧
        writeAll form (written g t outputs) = some form' := by
  induction outputs generalizing form trace with
  | nil =>
    rw [List.foldlM_nil, Traced.pure_eq, Traced.mk.injEq, Except.ok.injEq]
    constructor
    · rintro ⟨rfl, rfl⟩
      exact ⟨rfl, nofun, rfl⟩
    · rintro ⟨rfl, -, hw⟩
      exact ⟨rfl, Option.some.inj hw⟩
  | cons output outputs ih =>
    obtain ⟨p, es⟩ := output
    rw [List.foldlM_cons, Traced.bind_eq_ok_iff, List.flatMap_cons]
    constructor
    · rintro ⟨first, mid, rest, hfirst, hrest, rfl⟩
      obtain ⟨rfl, hcase⟩ := connectHandler_eq_ok_iff.1 hfirst
      obtain ⟨rfl, hfit, hw⟩ := ih.1 hrest
      refine ⟨rfl, ?_, ?_⟩
      · intro output ho e es' hes
        rcases List.mem_cons.1 ho with rfl | ho
        · rcases hcase with ⟨hnil, -⟩ | ⟨e', es'', name, s, heq, hname, hs, hwrite⟩
          · rw [hnil] at hes
            cases hes
          · rw [heq] at hes
            cases hes
            exact ⟨⟨name, hname⟩, s, hs, ne_error_of_write hwrite⟩
        · exact hfit output ho e es' hes
      · rcases hcase with ⟨hnil, rfl⟩ | ⟨e, es', name, s, heq, hname, hs, hwrite⟩
        · cases hnil
          exact hw
        · cases heq
          rw [written_cons_of_slot hs (ne_error_of_write hwrite), nameOf_of_stateName hname,
            writeAll, List.foldlM_cons]
          simp only [hwrite]
          exact hw
    · rintro ⟨rfl, hfit, hw⟩
      have hfit' : HandlersFit g t outputs :=
        fun output ho => hfit output (List.mem_cons_of_mem _ ho)
      cases es with
      | nil =>
        exact ⟨[], form, _, connectHandler_eq_ok_iff.2 ⟨rfl, .inl ⟨rfl, rfl⟩⟩,
          ih.2 ⟨rfl, hfit', hw⟩, rfl⟩
      | cons e es =>
        obtain ⟨⟨name, hname⟩, s, hs, hne⟩ := hfit _ List.mem_cons_self e es rfl
        rw [written_cons_of_slot hs hne, nameOf_of_stateName hname, writeAll,
          List.foldlM_cons] at hw
        obtain ⟨mid, hmid, hw⟩ := Option.bind_eq_some_iff.1 hw
        exact ⟨_, mid, _, connectHandler_eq_ok_iff.2
          ⟨rfl, .inr ⟨e, es, name, s, rfl, hname, hs, hmid⟩⟩, ih.2 ⟨rfl, hfit', hw⟩, rfl⟩

/-- The error handlers `hs` are what an error-catch node amounts to for the state `owner`. -/
def IsHandlerList (c : Catalog T) (g : Graph) (id : NodeId) (owner : String)
    (hs : List CatchEntry) : Prop :=
  ∃ n t outputs form fields, g.node? id = some n ∧ c.get? n.kind = some t ∧
    g.outputsOf id = .ok outputs ∧ HandlersFit g t outputs ∧
    writeAll (NodeSpec.strip t n.form) (writtenFor c g id) = some form ∧
    fieldsOfForm t owner form = .ok fields ∧ readHandlers fields = .ok hs

theorem handlersOf_eq_ok_iff {c : Catalog T} {g : Graph} {id : NodeId} {owner : String}
    {hs : List CatchEntry} {trace : List NodeId} :
    handlersOf c g id owner = ⟨trace, .ok hs⟩ ↔
      trace = handlerFollowers g id ∧ IsHandlerList c g id owner hs := by
  unfold handlersOf
  simp only [Traced.liftM_bind_eq_ok_iff, Graph.node_eq_ok_iff, Catalog.lookup_eq_ok_iff]
  constructor
  · rintro ⟨n, hn, t, ht, outputs, ho, h⟩
    obtain ⟨first, form, rest, hfold, hrest, rfl⟩ := Traced.bind_eq_ok_iff.1 h
    obtain ⟨rfl, hfit, hw⟩ := foldlM_connectHandler_eq_ok_iff.1 hfold
    obtain ⟨fields, hf, hread⟩ := Traced.liftM_bind_eq_ok_iff.1 hrest
    obtain ⟨rfl, hr⟩ := Traced.mk.inj hread
    refine ⟨?_, n, t, outputs, form, fields, hn, ht, ho, hfit, ?_, hf, hr⟩
    · rw [handlerFollowers, ho, List.append_nil]
    · rw [writtenFor_eq hn ht ho, hw]
  · rintro ⟨rfl, n, t, outputs, form, fields, hn, ht, ho, hfit, hw, hf, hr⟩
    rw [writtenFor_eq hn ht ho] at hw
    refine ⟨n, hn, t, ht, outputs, ho, Traced.bind_eq_ok_iff.2
      ⟨outputs.flatMap fun output => output.2.map Edge.target, form, [], ?_, ?_, ?_⟩⟩
    · exact foldlM_connectHandler_eq_ok_iff.2 ⟨rfl, hfit, hw⟩
    · exact Traced.liftM_bind_eq_ok_iff.2 ⟨fields, hf, by rw [Traced.liftM_eq, hr]⟩
    · rw [handlerFollowers, ho, List.append_nil]

/-! ### States -/

/-- Writing one output of a state: nothing for an unconnected one, the error handlers for the error
output, the name of the state on the oldest edge for any other. -/
theorem connectOutput_eq_ok_iff {c : Catalog T} {g : Graph} {t : T} {name : String}
    {acc acc' : Fields × Option (List CatchEntry)} {output : Port × List Edge}
    {trace : List NodeId} :
    connectOutput c g t name acc output = ⟨trace, .ok acc'⟩ ↔
      output.2 = [] ∧ trace = [] ∧ acc' = acc ∨
      (∃ e es target hs, output.2 = e :: es ∧ g.node? e.target = some target ∧
        NodeSpec.slot? t output.1 = some .error ∧ target.isCatch = true ∧
        trace = handlerFollowers g e.target ∧ IsHandlerList c g e.target name hs ∧
        acc' = (acc.1, some hs)) ∨
      ∃ e es next s fields, output.2 = e :: es ∧ stateName g e.target = .ok next ∧
        NodeSpec.slot? t output.1 = some s ∧ s.write acc.1 next = some fields ∧
        trace = output.2.map Edge.target ∧ acc' = (fields, acc.2) := by
  obtain ⟨p, es⟩ := output
  unfold connectOutput
  cases es with
  | nil =>
    simp only [Traced.pure_eq, Traced.mk.injEq, Except.ok.injEq, true_and, reduceCtorEq, false_and,
      exists_false, or_false]
    exact ⟨fun h => ⟨h.1.symm, h.2.symm⟩, fun h => ⟨h.1.symm, h.2.symm⟩⟩
  | cons e es =>
    simp only [reduceCtorEq, false_and, false_or, Traced.liftM_bind_eq_ok_iff,
      Graph.node_eq_ok_iff, List.cons.injEq]
    constructor
    · rintro ⟨target, htarget, h⟩
      split at h
      next => exact absurd h Traced.fail_ne_ok
      next hs =>
        by_cases hc : target.isCatch = true
        · simp only [hc, if_true] at h
          obtain ⟨first, hs', rest, hh, hrest, rfl⟩ := Traced.bind_eq_ok_iff.1 h
          obtain ⟨rfl, hlist⟩ := handlersOf_eq_ok_iff.1 hh
          obtain ⟨rfl, hok⟩ := Traced.mk.inj hrest
          cases hok
          exact .inl ⟨e, es, target, hs', ⟨rfl, rfl⟩, htarget, hs, hc, by simp, hlist, rfl⟩
        · simp [hc, Traced.fail] at h
      next s hne hs =>
        by_cases hp : target.isPrimitive = true
        · simp only [hp, if_true] at h
          obtain ⟨next, hnext, h⟩ := Traced.liftM_bind_eq_ok_iff.1 h
          split at h
          next => exact absurd h Traced.fail_ne_ok
          next fields hw =>
            obtain ⟨rest, hrest, rfl⟩ := Traced.note_bind_eq_ok_iff.1 h
            obtain ⟨rfl, hok⟩ := Traced.mk.inj hrest
            cases hok
            exact .inr ⟨e, es, next, s, fields, ⟨rfl, rfl⟩, hnext, hs, hw, by simp, rfl⟩
        · simp [hp, Traced.fail] at h
    · rintro (⟨_, _, target, hs, ⟨rfl, rfl⟩, htarget, hslot, hc, rfl, hlist, rfl⟩ |
        ⟨_, _, next, s, fields, ⟨rfl, rfl⟩, hnext, hslot, hw, rfl, rfl⟩)
      · refine ⟨target, htarget, ?_⟩
        simp only [hslot, hc, if_true]
        exact Traced.bind_eq_ok_iff.2
          ⟨_, hs, [], handlersOf_eq_ok_iff.2 ⟨rfl, hlist⟩, rfl, by simp⟩
      · obtain ⟨target, htarget, hp, hid⟩ := stateName_eq_ok_iff.1 hnext
        refine ⟨target, htarget, ?_⟩
        have hne := ne_error_of_write hw
        split
        next hnone => simp [hslot] at hnone
        next herr => exact absurd (Option.some.inj (hslot.symm.trans herr)) hne
        next s' _ hs' =>
          cases Option.some.inj (hslot.symm.trans hs')
          simp only [hp, if_true]
          refine Traced.liftM_bind_eq_ok_iff.2 ⟨next, hnext, ?_⟩
          simp only [hw]
          exact Traced.note_bind_eq_ok_iff.2 ⟨[], rfl, by simp⟩

/-- The error-catch nodes on the oldest edges of the error outputs. -/
def catchNodes (t : T) (outputs : List (Port × List Edge)) : List NodeId :=
  outputs.filterMap fun output =>
    if NodeSpec.slot? t output.1 = some .error then output.2.head?.map Edge.target else none

/-- Every connected output of a state leads to where its slot allows: the error output to an
error-catch node, any other to a state. -/
def OutputsFit (g : Graph) (t : T) (outputs : List (Port × List Edge)) : Prop :=
  ∀ output ∈ outputs, ∀ e es, output.2 = e :: es →
    (NodeSpec.slot? t output.1 = some .error ∧ ∃ target, g.node? e.target = some target ∧
      target.isCatch = true) ∨
    (∃ name, stateName g e.target = .ok name) ∧ ∃ s, NodeSpec.slot? t output.1 = some s ∧ s ≠ .error

theorem catchNodes_cons_nil (t : T) (p : Port) (outputs : List (Port × List Edge)) :
    catchNodes t ((p, []) :: outputs) = catchNodes t outputs := by
  simp [catchNodes]

theorem catchNodes_cons_of_error {t : T} {p : Port} (hs : NodeSpec.slot? t p = some .error)
    (e : Edge) (es : List Edge) (outputs : List (Port × List Edge)) :
    catchNodes t ((p, e :: es) :: outputs) = e.target :: catchNodes t outputs := by
  simp [catchNodes, hs]

theorem catchNodes_cons_of_slot {t : T} {p : Port} {s : TransitionSlot}
    (hs : NodeSpec.slot? t p = some s) (hne : s ≠ .error) (es : List Edge)
    (outputs : List (Port × List Edge)) :
    catchNodes t ((p, es) :: outputs) = catchNodes t outputs := by
  simp [catchNodes, hs, hne]

theorem followers_cons_of_error {g : Graph} {t : T} {p : Port}
    (hs : NodeSpec.slot? t p = some .error) (e : Edge) (es : List Edge)
    (outputs : List (Port × List Edge)) :
    followers g t ((p, e :: es) :: outputs) =
      handlerFollowers g e.target ++ followers g t outputs := by
  simp [followers, hs]

theorem followers_cons_of_slot {g : Graph} {t : T} {p : Port} {s : TransitionSlot}
    (hs : NodeSpec.slot? t p = some s) (hne : s ≠ .error) (es : List Edge)
    (outputs : List (Port × List Edge)) :
    followers g t ((p, es) :: outputs) = es.map Edge.target ++ followers g t outputs := by
  cases es <;> simp [followers, hs, hne]

/-- Writing all outputs of a state. Where several outputs lead to error handlers, those of the last
one count. -/
theorem foldlM_connectOutput_eq_ok_iff {c : Catalog T} {g : Graph} {t : T} {name : String}
    {acc acc' : Fields × Option (List CatchEntry)} {outputs : List (Port × List Edge)}
    {trace : List NodeId} :
    outputs.foldlM (connectOutput c g t name) acc = ⟨trace, .ok acc'⟩ ↔
      trace = followers g t outputs ∧ OutputsFit g t outputs ∧
        writeAll acc.1 (written g t outputs) = some acc'.1 ∧
        ∃ lists, List.Forall₂ (IsHandlerList c g · name) (catchNodes t outputs) lists ∧
          acc'.2 = lists.getLast?.or acc.2 := by
  induction outputs generalizing acc trace with
  | nil =>
    rw [List.foldlM_nil, Traced.pure_eq, Traced.mk.injEq, Except.ok.injEq]
    constructor
    · rintro ⟨rfl, rfl⟩
      exact ⟨rfl, nofun, rfl, [], .nil, rfl⟩
    · rintro ⟨rfl, -, hw, lists, hl, hh⟩
      cases hl
      exact ⟨rfl, Prod.ext (Option.some.inj hw) hh.symm⟩
  | cons output outputs ih =>
    obtain ⟨p, es⟩ := output
    rw [List.foldlM_cons, Traced.bind_eq_ok_iff]
    constructor
    · rintro ⟨first, mid, rest, hfirst, hrest, rfl⟩
      obtain ⟨rfl, hfit, hw, lists, hl, hh⟩ := ih.1 hrest
      rcases connectOutput_eq_ok_iff.1 hfirst with ⟨hnil, rfl, rfl⟩ |
        ⟨e, es', target, hs, heq, htarget, hslot, hc, rfl, hlist, rfl⟩ |
        ⟨e, es', next, s, fields, heq, hnext, hslot, hwrite, rfl, rfl⟩
      · cases hnil
        exact ⟨rfl, List.forall_mem_cons.2 ⟨nofun, hfit⟩, hw, lists, by rwa [catchNodes_cons_nil],
          hh⟩
      · cases heq
        refine ⟨by rw [followers_cons_of_error hslot], List.forall_mem_cons.2 ⟨?_, hfit⟩,
          by rwa [written_cons_of_error hslot], hs :: lists, ?_, ?_⟩
        · intro e' es'' hes
          cases hes
          exact .inl ⟨hslot, target, htarget, hc⟩
        · rw [catchNodes_cons_of_error hslot]
          exact .cons hlist hl
        · rw [hh]
          cases lists <;> simp [List.getLast?_cons]
      · cases heq
        have hne := ne_error_of_write hwrite
        refine ⟨by rw [followers_cons_of_slot hslot hne], List.forall_mem_cons.2 ⟨?_, hfit⟩, ?_,
          lists, ?_, hh⟩
        · intro e' es'' hes
          cases hes
          exact .inr ⟨⟨next, hnext⟩, s, hslot, hne⟩
        · rw [written_cons_of_slot hslot hne, nameOf_of_stateName hnext, writeAll,
            List.foldlM_cons]
          simp only [hwrite]
          exact hw
        · rwa [catchNodes_cons_of_slot hslot hne]
    · rintro ⟨rfl, hfit, hw, lists, hl, hh⟩
      have hfit' : OutputsFit g t outputs :=
        fun output ho => hfit output (List.mem_cons_of_mem _ ho)
      cases es with
      | nil =>
        rw [catchNodes_cons_nil] at hl
        exact ⟨[], acc, _, connectOutput_eq_ok_iff.2 (.inl ⟨rfl, rfl, rfl⟩),
          ih.2 ⟨rfl, hfit', hw, lists, hl, hh⟩, rfl⟩
      | cons e es =>
        rcases hfit _ List.mem_cons_self e es rfl with ⟨hslot, target, htarget, hc⟩ |
          ⟨⟨next, hnext⟩, s, hslot, hne⟩
        · rw [written_cons_of_error hslot] at hw
          rw [catchNodes_cons_of_error hslot] at hl
          obtain ⟨hs, lists, hlist, hrest, rfl⟩ := List.forall₂_cons_left_iff.1 hl
          refine ⟨_, (acc.1, some hs), _, connectOutput_eq_ok_iff.2 (.inr (.inl
            ⟨e, es, target, hs, rfl, htarget, hslot, hc, rfl, hlist, rfl⟩)),
            ih.2 ⟨rfl, hfit', hw, lists, hrest, ?_⟩, followers_cons_of_error hslot e es outputs⟩
          rw [hh]
          cases lists <;> simp [List.getLast?_cons]
        · rw [written_cons_of_slot hslot hne, nameOf_of_stateName hnext, writeAll,
            List.foldlM_cons] at hw
          obtain ⟨fields, hwrite, hw⟩ := Option.bind_eq_some_iff.1 hw
          rw [catchNodes_cons_of_slot hslot hne] at hl
          exact ⟨_, (fields, acc.2), _, connectOutput_eq_ok_iff.2 (.inr (.inr
            ⟨e, es, next, s, fields, rfl, hnext, hslot, hwrite, rfl, rfl⟩)),
            ih.2 ⟨rfl, hfit', hw, lists, hl, hh⟩, followers_cons_of_slot hslot hne _ outputs⟩

/-- The state `s` is what a node stands for: its fields are the form with the names of the outputs
written into it, its error handlers those of the error-catch node that the error output leads to. -/
def IsStateOf (c : Catalog T) (g : Graph) (id : NodeId) (s : State) : Prop :=
  ∃ n t outputs form lists, g.node? id = some n ∧ n.isPrimitive = true ∧ n.stateId = some s.id ∧
    c.get? n.kind = some t ∧ g.outputsOf id = .ok outputs ∧ OutputsFit g t outputs ∧
    writeAll (NodeSpec.strip t n.form) (writtenFor c g id) = some form ∧
    fieldsOfForm t s.id form = .ok s.fields ∧ s.kind = n.kind ∧
    List.Forall₂ (IsHandlerList c g · s.id) (catchNodes t outputs) lists ∧
    s.handlers = lists.getLast?.filter fun hs => !hs.isEmpty

theorem expand_eq_ok_iff {c : Catalog T} {g : Graph} {id : NodeId} {s : State}
    {trace : List NodeId} :
    expand c g id = ⟨trace, .ok s⟩ ↔
      IsStateOf c g id s ∧ ∃ n t outputs, g.node? id = some n ∧ c.get? n.kind = some t ∧
        g.outputsOf id = .ok outputs ∧ trace = followers g t outputs := by
  unfold expand
  simp only [Traced.liftM_bind_eq_ok_iff, Graph.node_eq_ok_iff, Catalog.lookup_eq_ok_iff]
  constructor
  · rintro ⟨n, hn, name, hname, t, ht, outputs, ho, h⟩
    obtain ⟨first, ⟨form, handlers⟩, rest, hfold, hrest, rfl⟩ := Traced.bind_eq_ok_iff.1 h
    obtain ⟨rfl, hfit, hw, lists, hl, hh⟩ := foldlM_connectOutput_eq_ok_iff.1 hfold
    obtain ⟨fields, hf, hpure⟩ := Traced.liftM_bind_eq_ok_iff.1 hrest
    obtain ⟨rfl, hs⟩ := Traced.mk.inj hpure
    cases hs
    obtain ⟨n', hn', hp, hid⟩ := stateName_eq_ok_iff.1 hname
    cases hn.symm.trans hn'
    simp only [Option.or_none] at hh
    refine ⟨⟨n, t, outputs, form, lists, hn, hp, hid, ht, ho, hfit, ?_, hf, rfl, hl, ?_⟩,
      n, t, outputs, hn, ht, ho, List.append_nil _⟩
    · rw [writtenFor_eq hn ht ho, hw]
    · rw [hh]
  · rintro ⟨⟨n, t, outputs, form, lists, hn, hp, hid, ht, ho, hfit, hw, hf, hk, hl, hh⟩,
      n', t', outputs', hn', ht', ho', rfl⟩
    cases hn.symm.trans hn'
    cases ht.symm.trans ht'
    cases ho.symm.trans ho'
    rw [writtenFor_eq hn ht ho] at hw
    refine ⟨n, hn, s.id, stateName_eq_ok_iff.2 ⟨n, hn, hp, hid⟩, t, ht, outputs, ho,
      Traced.bind_eq_ok_iff.2 ⟨followers g t outputs, (form, lists.getLast?), [],
        foldlM_connectOutput_eq_ok_iff.2 ⟨rfl, hfit, hw, lists, hl, (Option.or_none).symm⟩,
        Traced.liftM_bind_eq_ok_iff.2 ⟨s.fields, hf, ?_⟩, (List.append_nil _).symm⟩⟩
    rw [Traced.pure_eq, ← hh, ← hk]

end Workflow.Compile
