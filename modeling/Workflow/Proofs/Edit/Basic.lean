import Mathlib.Logic.Relation
import Workflow.Proofs.Graph.Connect

/-!
# Editing sessions

An `Edit` is one call that an editor makes to change a graph; `Edit.apply` is the graph after the
call, also when the call fails. A session (`Edit.Session`) is any number of calls, one after the
other, of which each is allowed in the graph that it finds. What every allowed call keeps holds at
the end of a session (`Session.keeps`). `Edit.effect` lists what a call can do to a graph.
-/

namespace Workflow

/-- Two nodes differ in nothing but the state, the form, the position, and whether the form was
confirmed. -/
structure SameShape (n m : Node) : Prop where
  kind : m.kind = n.kind
  family : m.family = n.family
  inputs : m.inputs = n.inputs
  outputs : m.outputs = n.outputs
  fanOut : m.fanOut = n.fanOut

/-- A call that changes a graph. -/
inductive Edit where
  /-- Adds a new node of a type in the catalog. -/
  | add (id : NodeId) (kind : String) (form : Fields)
  /-- Puts in a node that was made elsewhere. -/
  | insert (id : NodeId) (n : Node)
  | erase (id : NodeId)
  /-- Adds an edge without asking what it may lead to. -/
  | addEdge (e : Edge)
  /-- Adds an edge where the rules for edges allow it. -/
  | connect (e : Edge)
  | eraseEdge (e : Edge)
  | rename (id : NodeId) (name : String)
  | resizeOutputs (id : NodeId) (count : PortCount)
  | setForm (id : NodeId) (form : Fields)
  | setInitialized (id : NodeId) (initialized : Bool)

namespace Edit

variable {T : Type} [NodeSpec T]

/-- The graph after a call. -/
def apply (c : Catalog T) (g : Graph) : Edit → Graph
  | add id kind form => (g.add c id kind form).toOption.getD g
  | insert id n => g.insert id n
  | erase id => g.erase id
  | addEdge e => (g.addEdge e).toOption.getD g
  | connect e => (g.connect c e).1
  | eraseEdge e => (g.eraseEdge? e).getD g
  | rename id name => (g.rename id name).toOption.getD g
  | resizeOutputs id count => (g.resizeOutputs id count).1
  | setForm id form => g.modify id fun n => { n with form }
  | setInitialized id initialized => g.modify id fun n => { n with initialized }

/-- A new node gets an identifier that is not in use. -/
def Fresh (g : Graph) : Edit → Prop
  | add id _ _ | insert id _ => g.contains id = false
  | _ => True

instance (g : Graph) (e : Edit) : Decidable (Fresh g e) :=
  match e with
  | add id _ _ | insert id _ => inferInstanceAs (Decidable (g.contains id = false))
  | erase _ | addEdge _ | connect _ | eraseEdge _ | rename _ _ | resizeOutputs _ _ | setForm _ _
  | setInitialized _ _ => .isTrue trivial

/-- A session: calls one after the other, each of them allowed in the graph that it finds. -/
def Session (c : Catalog T) (allowed : Graph → Edit → Prop) : Graph → Graph → Prop :=
  Relation.ReflTransGen fun g g' => ∃ e, allowed g e ∧ g' = apply c g e

/-- What every allowed call keeps holds at the end of a session. -/
theorem Session.keeps {c : Catalog T} {allowed : Graph → Edit → Prop} {P : Graph → Prop}
    (hstep : ∀ g e, P g → allowed g e → P (apply c g e)) {g g' : Graph}
    (h : Session c allowed g g') (hg : P g) : P g' := by
  induction h with
  | refl => exact hg
  | tail _ hlast ih =>
    obtain ⟨e, he, rfl⟩ := hlast
    exact hstep _ e ih he

/-- The graph after calls one after the other. -/
def run (c : Catalog T) (g : Graph) (edits : List Edit) : Graph := edits.foldl (apply c) g

/-- Every call is allowed in the graph that it finds. -/
def Allows (c : Catalog T) (allowed : Graph → Edit → Prop) : Graph → List Edit → Prop
  | _, [] => True
  | g, e :: rest => allowed g e ∧ Allows c allowed (apply c g e) rest

instance (c : Catalog T) (allowed : Graph → Edit → Prop) [∀ g e, Decidable (allowed g e)] :
    (g : Graph) → (edits : List Edit) → Decidable (Allows c allowed g edits)
  | _, [] => .isTrue trivial
  | g, e :: rest =>
    have := instDecidableAllows c allowed (apply c g e) rest
    inferInstanceAs (Decidable (allowed g e ∧ Allows c allowed (apply c g e) rest))

theorem Session.run {c : Catalog T} {allowed : Graph → Edit → Prop} {g : Graph} {edits : List Edit}
    (h : Allows c allowed g edits) : Session c allowed g (run c g edits) := by
  induction edits generalizing g with
  | nil => exact .refl
  | cons e rest ih => exact .head ⟨e, h.1, rfl⟩ (ih h.2)

/-- What a call did to a graph. A call that failed left it as it was. -/
inductive Effect (c : Catalog T) (g : Graph) : Edit → Graph → Prop
  | unchanged {e : Edit} : Effect c g e g
  | added {id : NodeId} {kind : String} {t : T} {form : Fields} (ht : c.get? kind = some t) :
      Effect c g (.add id kind form) (g.insert id (.ofType kind t form))
  | inserted {id : NodeId} {n : Node} : Effect c g (.insert id n) (g.insert id n)
  | erased {id : NodeId} : Effect c g (.erase id) (g.erase id)
  | edgeAdded {e : Edge} {g' : Graph} (h : g.addEdge e = .ok g') : Effect c g (.addEdge e) g'
  /-- The edge was added to the graph, or to what was left without an edge that gave way. -/
  | connected {e : Edge} {rest g' : Graph} {source target : Node}
      (hrest : rest = g ∨ ∃ displaced, rest = (g.eraseEdge? displaced).getD g)
      (h : rest.addEdge e = .ok g') (hs : g.node? e.source = some source)
      (ht : g.node? e.target = some target)
      (hallowed : Graph.refusal? c source target e.output = .ok none) :
      Effect c g (.connect e) g'
  /-- An edge gave way, but the new one could not be added. -/
  | displaced {e displaced : Edge} : Effect c g (.connect e) ((g.eraseEdge? displaced).getD g)
  | edgeErased {e : Edge} : Effect c g (.eraseEdge e) ((g.eraseEdge? e).getD g)
  | renamed {id : NodeId} {name : String}
      (hfree : ∀ other, g.findState? name = some other → other = id) :
      Effect c g (.rename id name) (g.modify id fun n => { n with stateId := some name })
  | resized {id : NodeId} {count : PortCount} (hid : g.contains id = true) :
      Effect c g (.resizeOutputs id count) (g.resizeOutputs id count).1
  | formSet {id : NodeId} {form : Fields} :
      Effect c g (.setForm id form) (g.modify id fun n => { n with form })
  | initializedSet {id : NodeId} {initialized : Bool} :
      Effect c g (.setInitialized id initialized) (g.modify id fun n => { n with initialized })

/-- Every call has one of the effects. -/
theorem effect (c : Catalog T) (g : Graph) (e : Edit) : Effect c g e (apply c g e) := by
  cases e with
  | add id kind form =>
    show Effect c g _ ((g.add c id kind form).toOption.getD g)
    unfold Graph.add Catalog.lookup
    cases ht : c.get? kind with
    | none => exact .unchanged
    | some t => exact .added ht
  | insert id n => exact .inserted
  | erase id => exact .erased
  | addEdge e =>
    show Effect c g _ ((g.addEdge e).toOption.getD g)
    cases h : g.addEdge e with
    | error reason => exact .unchanged
    | ok g' => exact .edgeAdded h
  | connect e =>
    rcases g.connect_cases c e with h | ⟨rest, hrest, h | ⟨h, source, target, hs, ht, hallowed⟩⟩
    · rw [apply, h]
      exact .unchanged
    · rw [apply, h]
      rcases hrest with rfl | ⟨displaced, rfl⟩
      · exact .unchanged
      · exact .displaced
    · exact .connected hrest h hs ht hallowed
  | eraseEdge e => exact .edgeErased
  | rename id name =>
    show Effect c g _ ((g.rename id name).toOption.getD g)
    unfold Graph.rename
    split
    next => exact .unchanged
    next hfree =>
      split
      next =>
        refine .renamed fun other hother => ?_
        simpa [hother] using hfree
      next => exact .unchanged
  | resizeOutputs id count =>
    cases hid : g.contains id with
    | true => exact .resized hid
    | false =>
      rw [apply, Graph.resizeOutputs_of_not_contains hid]
      exact .unchanged
  | setForm id form => exact .formSet
  | setInitialized id initialized => exact .initializedSet

end Edit

end Workflow
