import Workflow.Proofs.Import.Success

/-!
# What an import does with each state

An import that succeeds leaves out the states of unknown types, in their order, and makes the same
nodes for the others as if these were all (`foldlM_takeState_known`). A node stands for its state only
when the type is one of states: a state that is written with the type of start nodes or of error-catch
nodes becomes a node of that type, which is not found by the id of the state
(`toGraph_keeps_states`, `toGraph_catchDocument_loses_state`).
-/

namespace Workflow.Import

variable {settings : Settings} {supply : Nat → NodeId} {d : Document}

/-! ### States that are left out -/

section

variable {T : Type} [NodeSpec T] {c : Catalog T}

/-- The first pass ends only when states of unknown types may be left out, or there are none. -/
theorem known_of_foldlM_takeState {states : List State} {dr dr' : Draft} {trace : List Warning}
    (h : states.foldlM (takeState settings c supply) dr = ⟨trace, .ok dr'⟩) :
    settings.skipUnregistered = true ∨ ∀ s ∈ states, c.contains s.kind = true := by
  rw [or_iff_not_imp_left]
  intro hskip
  induction states generalizing dr trace with
  | nil => exact nofun
  | cons s rest ih =>
    rw [List.foldlM_cons] at h
    obtain ⟨first, dr₁, others, hfirst, hrest, -⟩ := Traced.bind_eq_ok_iff.1 h
    refine List.forall_mem_cons.2 ⟨?_, ih hrest⟩
    unfold takeState at hfirst
    unfold Catalog.contains
    cases ht : c.get? s.kind with
    | some t => rfl
    | none =>
      simp only [ht, if_neg hskip] at hfirst
      exact absurd hfirst Traced.fail_ne_ok

/-- The draft with another list of states that were left out. -/
def Draft.withSkipped (skipped : List SkippedState) (dr : Draft) : Draft :=
  { dr with skipped }

/-- A node is made in the same way whatever was left out before. -/
theorem addState_withSkipped (t : T) (skipped : List SkippedState) (dr : Draft) (s : State) :
    addState c supply t (dr.withSkipped skipped) s
      = Draft.withSkipped skipped <$> addState c supply t dr s := by
  unfold addState
  rw [map_bind]
  refine bind_congr fun ⟨raw, targets⟩ => ?_
  cases s.handlers with
  | none => rfl
  | some hs =>
    simp only [map_bind]
    rfl

theorem takeState_withSkipped {s : State} (hs : c.contains s.kind = true)
    (skipped : List SkippedState) (dr : Draft) :
    (takeState settings c supply (dr.withSkipped skipped) s).outcome
      = Draft.withSkipped skipped <$> (takeState settings c supply dr s).outcome := by
  obtain ⟨t, ht⟩ := Option.isSome_iff_exists.1 hs
  simp only [takeState, ht, Traced.outcome_liftM, addState_withSkipped]

theorem foldlM_takeState_withSkipped {states : List State}
    (hstates : ∀ s ∈ states, c.contains s.kind = true) (skipped : List SkippedState) (dr : Draft) :
    (states.foldlM (takeState settings c supply) (dr.withSkipped skipped)).outcome
      = Draft.withSkipped skipped <$> (states.foldlM (takeState settings c supply) dr).outcome :=
  Traced.outcome_foldlM_map (fun dr s hs => takeState_withSkipped (hstates s hs) skipped dr) dr

/-- A state of a known type is not left out. -/
theorem skipped_of_takeState {s : State} (hs : c.contains s.kind = true) {dr dr' : Draft}
    (h : (takeState settings c supply dr s).outcome = .ok dr') : dr'.skipped = dr.skipped := by
  have hsame : (takeState settings c supply dr s).outcome
      = Draft.withSkipped dr.skipped <$> (takeState settings c supply dr s).outcome :=
    takeState_withSkipped hs dr.skipped dr
  rw [h] at hsame
  have hdraft : dr' = dr'.withSkipped dr.skipped := Except.ok.inj hsame
  exact (congrArg Draft.skipped hdraft).trans rfl

/-- A state of an unknown type is left out, and nothing else happens. -/
theorem takeState_unknown (hskip : settings.skipUnregistered = true) {s : State}
    (hs : c.contains s.kind = false) (dr : Draft) :
    (takeState settings c supply dr s).outcome
      = .ok (dr.withSkipped (dr.skipped ++ [⟨s.id, s.kind⟩])) := by
  have hnone : c.get? s.kind = none := by simpa [Catalog.contains] using hs
  simp only [takeState, hnone, hskip, if_true]
  rfl

/-- The first pass over all states is the one over the states of known types, aside from the list of
those that are left out. -/
theorem foldlM_takeState_known (hskip : settings.skipUnregistered = true) (states : List State)
    (dr : Draft) :
    (states.foldlM (takeState settings c supply) dr).outcome
      = Draft.withSkipped (dr.skipped ++
          (states.filter fun s => !c.contains s.kind).map fun s => ⟨s.id, s.kind⟩) <$>
        ((states.filter fun s => c.contains s.kind).foldlM (takeState settings c supply)
          dr).outcome := by
  induction states generalizing dr with
  | nil =>
    rw [List.filter_nil, List.map_nil, List.append_nil]
    rfl
  | cons s rest ih =>
    cases hs : c.contains s.kind with
    | true =>
      simp only [List.filter_cons, hs, Bool.not_true, if_true, Bool.false_eq_true, if_false,
        List.foldlM_cons, Traced.outcome_bind, map_bind]
      cases hfirst : (takeState settings c supply dr s).outcome with
      | error e => rfl
      | ok dr' =>
        rw [← skipped_of_takeState hs hfirst]
        exact ih dr'
    | false =>
      have hrest := ih (dr.withSkipped (dr.skipped ++ [⟨s.id, s.kind⟩]))
      rw [foldlM_takeState_withSkipped fun s hs => (List.mem_filter.1 hs).2] at hrest
      simp only [List.filter_cons, hs, Bool.not_false, if_true, Bool.false_eq_true, if_false,
        List.foldlM_cons, Traced.outcome_bind, takeState_unknown hskip hs]
      refine hrest.trans ?_
      rw [← comp_map, List.map_cons]
      simp only [Draft.withSkipped, List.append_assoc]
      rfl

theorem foldlM_takeState_skipped {states : List State} {dr dr' : Draft} {trace : List Warning}
    (h : states.foldlM (takeState settings c supply) dr = ⟨trace, .ok dr'⟩) :
    dr'.skipped = dr.skipped ++
      (states.filter fun s => !c.contains s.kind).map fun s => ⟨s.id, s.kind⟩ := by
  have houtcome : (states.foldlM (takeState settings c supply) dr).outcome = .ok dr' := by rw [h]
  rcases known_of_foldlM_takeState h with hskip | hstates
  · rw [foldlM_takeState_known hskip] at houtcome
    obtain ⟨dr₁, -, rfl⟩ := Except.map_eq_ok_iff.1 houtcome
    rfl
  · have hsame : (states.foldlM (takeState settings c supply) dr).outcome
        = Draft.withSkipped dr.skipped <$> (states.foldlM (takeState settings c supply) dr).outcome :=
      foldlM_takeState_withSkipped hstates dr.skipped dr
    have hnone : states.filter (fun s => !c.contains s.kind) = [] := by simpa using hstates
    obtain ⟨dr₁, -, rfl⟩ := Except.map_eq_ok_iff.1 (hsame.symm.trans houtcome)
    rw [hnone, List.map_nil, List.append_nil]
    rfl

/-- An import leaves out the states of unknown types. -/
theorem toGraph_skipped {r : Imported} (h : (d.toGraph settings c supply).outcome = .ok r) :
    r.skipped = (d.states.filter fun s => !c.contains s.kind).map fun s => ⟨s.id, s.kind⟩ := by
  obtain ⟨-, _, _, _, _, draft, _, _, _, -, hfold, -, -, -, hskipped⟩ := toGraph_eq_ok h
  rw [hskipped, foldlM_takeState_skipped hfold]
  rfl

end

/-! ### States that have a node -/

variable {c : Catalog}

/-- The only node that can be found by the id of a state is that of its place. -/
theorem eq_of_mem_nodesOf (hids : (d.states.map State.id).Nodup) {p : Place} (hp : p ∈ places c d)
    {x : NodeId × Node} (hx : x ∈ nodesOf c supply d) (hprimitive : x.2.isPrimitive = true)
    (hid : x.2.stateId = some p.state.id) : x = (p.id supply, p.node) := by
  rcases mem_nodesOf hx with rfl | ⟨q, hq, rfl | ⟨hs, -, rfl⟩⟩
  · cases hprimitive
  · obtain rfl := eq_of_nodup_ids hids hq hp (Option.some.inj hid)
    rfl
  · cases hprimitive

/-- A state of a type of states is found by its id; a state of another type is not. -/
theorem find?_nodesOf (hids : (d.states.map State.id).Nodup) {p : Place} (hp : p ∈ places c d) :
    (nodesOf c supply d).find? (fun e => e.2.isPrimitive && e.2.stateId = some p.state.id)
      = if p.type.isPrimitive then some (p.id supply, p.node) else none := by
  have hunique : ∀ x ∈ nodesOf c supply d,
      (x.2.isPrimitive && decide (x.2.stateId = some p.state.id)) = true →
        x = (p.id supply, p.node) := fun x hx h => by
    obtain ⟨hprimitive, hid⟩ := Bool.and_eq_true_iff.1 h
    exact eq_of_mem_nodesOf hids hp hx hprimitive (of_decide_eq_true hid)
  have hnode : p.node.isPrimitive = p.type.isPrimitive := rfl
  split
  next hprimitive =>
    obtain ⟨x, hx⟩ : ∃ x, (nodesOf c supply d).find?
        (fun e => e.2.isPrimitive && e.2.stateId = some p.state.id) = some x := by
      refine Option.isSome_iff_exists.1 (List.find?_isSome.2 ⟨_, mem_nodesOf_of_place hp, ?_⟩)
      rw [hnode, hprimitive]
      exact decide_eq_true rfl
    have hfound := List.find?_some hx
    rw [hx, hunique x (List.mem_of_find?_eq_some hx) hfound]
  next hspecial =>
    refine List.find?_eq_none.2 fun x hx h => hspecial ?_
    obtain rfl := hunique x hx h
    exact hnode ▸ (Bool.and_eq_true_iff.1 h).1

/-- An import that succeeds leaves out exactly the states of unknown types, in their order. Every
other state has one node, with its id and its type; the node is found by the id of the state exactly
when the type is one of states. -/
theorem toGraph_keeps_states (hsupply : Distinct supply (1 + 2 * d.states.length)) {r : Imported}
    (h : (d.toGraph settings .standard supply).outcome = .ok r) :
    r.skipped = (d.states.filter fun s => !Catalog.standard.contains s.kind).map
        (fun s => ⟨s.id, s.kind⟩) ∧
      ∀ s ∈ d.states, ∀ t, Catalog.standard.get? s.kind = some t →
        ∃ id n, r.graph.node? id = some n ∧ n.stateId = some s.id ∧ n.kind = s.kind ∧
          n.isPrimitive = t.isPrimitive ∧
          r.graph.findState? s.id = if t.isPrimitive then some id else none := by
  obtain ⟨hrep, -, es, -, hb⟩ := toGraph_builds_from standard_startName standard_catchName hsupply h
  have hids := (repeatedId?_eq_none_iff.1 hrep).1
  refine ⟨toGraph_skipped h, fun s hs t ht => ?_⟩
  obtain ⟨p, hp, rfl, rfl⟩ := exists_place_of_mem hs ht
  refine ⟨p.id supply, p.node, hb.shows.node?_eq_some_iff.2 (mem_nodesOf_of_place hp), rfl, rfl, rfl,
    ?_⟩
  rw [Graph.findState?, hb.shows.nodes_eq, find?_nodesOf hids hp]
  split <;> rfl

/-- A document of which the second state has the type of error-catch nodes. -/
def catchDocument : Document :=
  ⟨[], none, some ⟨none, some "a", []⟩, [⟨"a", "noop", [], none⟩, ⟨"b", "error-catch", [], none⟩]⟩

/-- The second state is not left out, but its node is not found by its id. -/
theorem toGraph_catchDocument_loses_state :
    ∃ r, (catchDocument.toGraph {} .standard NodeId.ofNat).outcome = .ok r ∧ r.skipped = [] ∧
      r.graph.findState? "b" = none ∧
      ∃ id n, r.graph.node? id = some n ∧ n.stateId = some "b" ∧ n.isPrimitive = false := by
  have hok : (catchDocument.toGraph {} .standard NodeId.ofNat).outcome.toOption.isSome = true := by
    decide +kernel
  cases h : (catchDocument.toGraph {} .standard NodeId.ofNat).outcome with
  | error e =>
    rw [h] at hok
    cases hok
  | ok r =>
    obtain ⟨hskipped, hkept⟩ := toGraph_keeps_states (distinct_ofNat (by decide)) h
    obtain ⟨id, n, hn, hid, -, hprimitive, hfind⟩ :=
      hkept catchDocument.states[1] (List.getElem_mem _) catchType standard_catchName
    exact ⟨r, rfl, hskipped, hfind, id, n, hn, hid, hprimitive⟩

end Workflow.Import
