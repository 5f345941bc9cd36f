import Workflow.Proofs.Compile.Emitted
import Workflow.Proofs.Import.RoundTrip
import Workflow.Proofs.Import.Success
import Workflow.Proofs.NodeType.Spared

/-!
# Types that are registered with the editor

A type of states can be added to those of the editor: it has one of the rules for names, and its
transforms stand at places of its own (`CustomType`). It is not enough that no two of these places
interfere. A transform in the place of a name finds a name there when the graph is compiled, and a
type in place of that of start nodes or of error-catch nodes makes these nodes states
(`compile_flowDocument_fails`). Without such types (`CustomType.IsSound`) every graph of a document
that has an entry edge is compiled, and the states lead where they led in the document, port by port
(`compile_toGraph_targets`). Nothing is asked of how many ports the names of a state need.
-/

namespace Workflow

/-- A type of states that is registered with the editor. -/
structure CustomType where
  name : String
  transitions : TransitionRule
  /-- Where the transforms stand. -/
  places : List TransformPlace
  deriving DecidableEq, Repr

namespace CustomType

/-- What the states of the type are like. -/
def type (x : CustomType) : NodeType :=
  (NodeType.primitive x.transitions).withForm (.transforms x.places)

/-- The type does not replace a type of nodes that are no states, and its transforms neither
interfere nor stand in the places of names. -/
structure IsSound (x : CustomType) : Prop where
  ne_start : x.name ≠ NodeType.startName
  ne_catch : x.name ≠ NodeType.catchName
  independent : TransformPlace.Independent x.places
  spares : ∀ p ∈ x.places, p.sparesNames x.transitions = true

theorem IsSound.portable {x : CustomType} (h : x.IsSound) : x.type.Portable where
  places := h.independent
  spares := h.spares
  retries _ _ := List.not_mem_nil
  prepared _ _ _ := rfl

end CustomType

namespace Catalog

/-- The catalog with more types; of two with the same name the later one counts. -/
def register (c : Catalog) (xs : List CustomType) : Catalog :=
  xs.foldl (fun c x => c.insert x.name x.type) c

/-- A type of the catalog is one of those that were registered, or was there before. -/
theorem of_get?_register {c : Catalog} {xs : List CustomType} {name : String} {t : NodeType}
    (h : (c.register xs).get? name = some t) :
    c.get? name = some t ∨ ∃ x ∈ xs, x.name = name ∧ x.type = t := by
  induction xs generalizing c with
  | nil => exact .inl h
  | cons x rest ih =>
    rcases ih h with hbefore | ⟨y, hy, hrest⟩
    · rw [get?_insert] at hbefore
      split at hbefore
      next hname => exact .inr ⟨x, List.mem_cons_self, hname, Option.some.inj hbefore⟩
      next => exact .inl hbefore
    · exact .inr ⟨y, List.mem_cons_of_mem _ hy, hrest⟩

theorem get?_register_of_ne {c : Catalog} {xs : List CustomType} {name : String}
    (h : ∀ x ∈ xs, x.name ≠ name) : (c.register xs).get? name = c.get? name := by
  induction xs generalizing c with
  | nil => rfl
  | cons x rest ih =>
    refine (ih fun y hy => h y (List.mem_cons_of_mem _ hy)).trans ?_
    rw [get?_insert, if_neg (h x List.mem_cons_self)]

theorem portable_of_register {xs : List CustomType} (hxs : ∀ x ∈ xs, x.IsSound) {name : String}
    {t : NodeType} (h : (standard.register xs).get? name = some t) : t.Portable := by
  rcases of_get?_register h with hstandard | ⟨x, hx, -, rfl⟩
  · exact .of_apart (apart_of_standard hstandard) (separate_of_standard hstandard)
  · exact (hxs x hx).portable

end Catalog

namespace Import

open Compile

theorem hasSpecials_register {xs : List CustomType} (hxs : ∀ x ∈ xs, x.IsSound) :
    HasSpecials (Catalog.standard.register xs) where
  get?_start :=
    (Catalog.get?_register_of_ne fun x hx => (hxs x hx).ne_start).trans standard_startName
  get?_catch :=
    (Catalog.get?_register_of_ne fun x hx => (hxs x hx).ne_catch).trans standard_catchName

namespace Drawn

variable {settings : Settings} {c : Catalog} {supply : Nat → NodeId} {d : Document} {g : Graph}
  {p : Place}

/-- The entry edge leads to the node of a state. -/
theorem exists_place_of_entry (h : Drawn settings c supply d g) {e : Edge}
    (he : g.edgeOn? (supply 0) 1 = some e) :
    ∃ q ∈ places c d, e = .ofOutput (supply 0) 1 (q.id supply) := by
  obtain ⟨es, hes, hshows⟩ := h.shows
  rw [hshows.edgeOn?_eq] at he
  have hfound := List.find?_some he
  have hsource : e.source = supply 0 := of_decide_eq_true (Bool.and_eq_true_iff.1 hfound).1
  have hmem : some e ∈ edgesOf settings c supply d :=
    hes ▸ List.mem_map_of_mem (List.mem_of_find?_eq_some he)
  rcases List.mem_append.1 hmem with hmem | hmem
  · exact exists_place_of_mem_entryEdges hmem
  · obtain ⟨q, hq, hmem⟩ := List.mem_flatMap.1 hmem
    obtain ⟨i, hi, hedge⟩ := source_of_mem_edges hmem
    exact absurd (hedge.symm.trans hsource) (ne_start_of_mem_places h.distinct hq hi)

/-- A state of a portable type is compiled to one with the same names behind the same ports. -/
theorem exists_state_targets [HasSpecials c] (h : Drawn settings c supply d g) (hw : d.WellFormed)
    (hp : p ∈ places c d) (ht : p.type.Portable)
    (hr : ∀ v ∈ p.type.transforms p.state.fields, Transform.ReadsBack v) :
    ∃ s, IsStateOf c g (p.id supply) s ∧ s.id = p.state.id ∧ s.kind = p.state.kind ∧
      p.type.transitions.targets s.fields = p.type.transitions.targets p.state.fields := by
  obtain ⟨-, hmem⟩ := get?_of_mem_layout hp
  obtain ⟨form, fields, hform, hfields, htargets⟩ :=
    NodeType.targets_restored ht (hw.states _ hmem).fields.1 hr p.state.id
  rw [← h.writtenFor_id hp] at hform
  exact ⟨_, h.isStateOf hp (hw.states _ hmem).handlers hform hfields, rfl, rfl, htargets⟩

end Drawn

/-- With registered types that are sound, a graph with an entry edge that a document was imported to
is compiled, and every state has the names that the state of its id has in the document, behind the
same ports. -/
theorem compile_toGraph_targets {xs : List CustomType} (hxs : ∀ x ∈ xs, x.IsSound)
    {settings : Settings} {supply : Nat → NodeId} {d : Document} {r : Imported} (hw : d.WellFormed)
    (hstates : ∀ s ∈ d.states, ∃ t, (Catalog.standard.register xs).get? s.kind = some t ∧
      t.isPrimitive = true ∧ ∀ v ∈ t.transforms s.fields, Transform.ReadsBack v)
    (hsupply : Distinct supply (1 + 2 * d.states.length))
    (h : (d.toGraph settings (Catalog.standard.register xs) supply).outcome = .ok r)
    {start : NodeId} {e : Edge} (hstart : r.graph.startNode? = some start)
    (he : r.graph.edgeOn? start 1 = some e) :
    ∃ result, (r.graph.compile (Catalog.standard.register xs)).outcome = .ok result ∧
      ∀ s' ∈ result.states, ∃ s t, d.state? s'.id = some s ∧
        (Catalog.standard.register xs).get? s.kind = some t ∧ s'.kind = s.kind ∧
        t.transitions.targets s'.fields = t.transitions.targets s.fields := by
  have hspecials := hasSpecials_register hxs
  have hportable : ∀ {name t}, (Catalog.standard.register xs).get? name = some t → t.Portable :=
    Catalog.portable_of_register hxs
  generalize Catalog.standard.register xs = c at *
  obtain ⟨hrep, -, es, hes, hb⟩ := toGraph_builds hspecials.get?_start hspecials.get?_catch hsupply
    (entryName?_eq hw.start) h
  have hplaces : ∀ p ∈ places c d, p.type.isPrimitive = true ∧
      ∀ v ∈ p.type.transforms p.state.fields, Transform.ReadsBack v := by
    intro p hp
    obtain ⟨hkind, hmem⟩ := get?_of_mem_layout hp
    obtain ⟨t, ht, hrest⟩ := hstates _ hmem
    obtain rfl := Option.some.inj (hkind.symm.trans ht)
    exact hrest
  have hdrawn : Drawn settings c supply d r.graph :=
    ⟨(repeatedId?_eq_none_iff.1 hrep).1, hsupply, fun p hp => (hplaces p hp).1, es, hes, hb.shows⟩
  have hstate := fun p hp => hdrawn.exists_state_targets hw hp
    (hportable (get?_of_mem_layout hp).1) (hplaces p hp).2
  obtain rfl := Option.some.inj (hdrawn.startNode?_eq.symm.trans hstart)
  obtain ⟨p, hp, rfl⟩ := hdrawn.exists_place_of_entry he
  obtain ⟨w, -, hcompile⟩ := hdrawn.compile_ok_of_entry hw.start
    (fun p hp => (hstate p hp).imp fun _ => And.left) hp he
  refine ⟨_, hcompile, fun s' hs' => ?_⟩
  obtain ⟨x, hx⟩ := exists_isStateOf hcompile hs'
  obtain ⟨n, hn, hprimitive, -⟩ := stateName_eq_ok_iff.1 hx.stateName_eq
  obtain ⟨q, hq, rfl, -⟩ := hdrawn.exists_place hn hprimitive
  obtain ⟨s, hs, hid, hkind, htargets⟩ := hstate q hq
  obtain rfl := hs.unique hx
  obtain ⟨htype, hmem⟩ := get?_of_mem_layout hq
  exact ⟨q.state, q.type, hid ▸ state?_of_mem hdrawn.ids hmem, htype, hkind, htargets⟩

/-- A type with a transform in each entry of its list of names, and one more where a record may
stand in place of the list. -/
def routeType : CustomType :=
  ⟨"route", .conditional, [.eachIn "conditions" "transform", .nested "conditions" "transition"]⟩

/-- A document with a state of that type. -/
def routeDocument : Document :=
  ⟨[], none, some ⟨none, some "a", []⟩,
    [⟨"a", "route", [
        ("conditions", .arr [.obj [("transform", .str ".x"), ("transition", .str "b")]]),
        ("defaultTransition", .str "a")], none⟩,
      ⟨"b", "noop", [], none⟩]⟩

theorem routeType_isSound : routeType.IsSound :=
  ⟨by decide, by decide, by decide, by decide⟩

theorem routeDocument_wellFormed : routeDocument.WellFormed where
  extra := ⟨trivial, nofun⟩
  functions := nofun
  start := by
    intro s hs
    cases hs
    exact ⟨trivial, nofun⟩
  states := by
    have hfields : ∀ s ∈ routeDocument.states, s.fields.Beside ["id", "type", "catch"] := by
      refine List.forall_mem_cons.2 ⟨⟨by decide, by decide⟩,
        List.forall_mem_singleton.2 ⟨trivial, nofun⟩⟩
    have hhandlers : ∀ s ∈ routeDocument.states, s.handlers = none := by decide
    intro s hs
    refine ⟨hfields s hs, fun handlers hsome => ?_⟩
    rw [hhandlers s hs] at hsome
    cases hsome

theorem compile_routeDocument_targets :
    ∃ r result, (routeDocument.toGraph {} (Catalog.standard.register [routeType])
        NodeId.ofNat).outcome = .ok r ∧
      (r.graph.compile (Catalog.standard.register [routeType])).outcome = .ok result ∧
      ∀ s' ∈ result.states, ∃ s t, routeDocument.state? s'.id = some s ∧
        (Catalog.standard.register [routeType]).get? s.kind = some t ∧ s'.kind = s.kind ∧
        t.transitions.targets s'.fields = t.transitions.targets s.fields := by
  have hxs : ∀ x ∈ [routeType], x.IsSound := List.forall_mem_singleton.2 routeType_isSound
  have hstates : ∀ s ∈ routeDocument.states, ∃ t,
      (Catalog.standard.register [routeType]).get? s.kind = some t ∧ t.isPrimitive = true ∧
        ∀ v ∈ t.transforms s.fields, Transform.ReadsBack v := by
    refine List.forall_mem_cons.2 ⟨⟨routeType.type, by decide +kernel, rfl, ?_⟩,
      List.forall_mem_singleton.2 ⟨.primitive .single, by decide +kernel, rfl, nofun⟩⟩
    intro v hv
    have hv : v ∈ [Json.str ".x"] := hv
    obtain rfl := List.mem_singleton.1 hv
    exact nofun
  have hok : (routeDocument.toGraph {} (Catalog.standard.register [routeType])
      NodeId.ofNat).outcome.toOption.map
        (fun r => (r.graph.startNode?, r.graph.edgeOn? (.ofNat 0) 1))
      = some (some (.ofNat 0), some (.ofOutput (.ofNat 0) 1 (.ofNat 1))) := by decide +kernel
  cases h : (routeDocument.toGraph {} (Catalog.standard.register [routeType])
      NodeId.ofNat).outcome with
  | error e =>
    rw [h] at hok
    cases hok
  | ok r =>
    rw [h] at hok
    obtain ⟨hstart, he⟩ := Prod.mk.inj (Option.some.inj hok)
    obtain ⟨result, hcompile, htargets⟩ := compile_toGraph_targets hxs routeDocument_wellFormed
      hstates (distinct_ofNat (by decide)) h hstart he
    exact ⟨r, result, rfl, hcompile, htargets⟩

/-- The edge to the entry state of the graph of a document, and what this graph is compiled to, when
one type is registered. -/
def throughGraph (settings : Settings) (x : CustomType) (d : Document) :
    Except Error (Option Edge × Except Error Document) :=
  (d.toGraph settings (Catalog.standard.register [x]) NodeId.ofNat).outcome.map fun r =>
    (r.graph.edgeOn? (.ofNat 0) 1, (r.graph.compile (Catalog.standard.register [x])).outcome)

/-- A document with a state that leads to another one by its fields and by an error handler. -/
def flowDocument (kind : String) (fields : Fields) : Document :=
  ⟨[], none, some ⟨none, some "a", []⟩,
    [⟨"a", kind, fields, some [⟨"E", some "b", []⟩]⟩, ⟨"b", "noop", [], none⟩]⟩

/-- The entry edge of `flowDocument`. -/
def flowEntry : Edge := .ofOutput (.ofNat 0) 1 (.ofNat 1)

/-- Transforms that do not interfere are not enough: the only transform of a type may be in the
place of a name, of the list of names or of the name of an entry. Neither are they when a type
replaces that of start nodes or of error-catch nodes. -/
theorem compile_flowDocument_fails :
    (TransformPlace.Independent [.field "transition"] ∧
      throughGraph {} ⟨"custom", .single, [.field "transition"]⟩
          (flowDocument "custom" [("transition", .str "b")])
        = .ok (some flowEntry, .error (.codec ⟨"a.transition", .notSelection
            (.invalidType (.str "b") "internally tagged enum TransformSelection")⟩))) ∧
    (TransformPlace.Independent [.field "events"] ∧
      throughGraph {} ⟨"custom", .race, [.field "events"]⟩
          (flowDocument "custom" [("events", .arr [.obj [("transition", .str "b")]])])
        = .ok (some flowEntry, .error (.danglingPort "a" 2))) ∧
    (TransformPlace.Independent [.eachIn "events" "transition"] ∧
      throughGraph {} ⟨"custom", .race, [.eachIn "events" "transition"]⟩
          (flowDocument "custom" [("events", .arr [.obj [("transition", .str "b")]])])
        = .ok (some flowEntry, .error (.codec ⟨"a.events[0].transition", .notSelection
            (.invalidType (.str "b") "internally tagged enum TransformSelection")⟩))) ∧
    throughGraph {} ⟨NodeType.startName, .single, []⟩
        (flowDocument "noop" [("transition", .str "b")])
      = .ok (some flowEntry, .error (.missingStateId (.ofNat 0))) ∧
    throughGraph {} ⟨NodeType.catchName, .single, []⟩
        (flowDocument "noop" [("transition", .str "b")])
      = .ok (some flowEntry, .error (.uninitializedNodes
          [.anonymous NodeType.catchName (.ofNat 2)])) := by
  decide +kernel

end Import

end Workflow
