import Workflow.Proofs.Compile.Order
import Workflow.Proofs.Import.Expanded

/-!
# What a document reaches

A document reaches the states that are named, over any number of steps, from the entry state or from
a state that no state names (`Document.Reaches`). In the graph of the document these are the nodes
that a compilation visits (`Drawn.reaches_iff`).
-/

namespace Workflow

/-! ### Names -/

namespace Document

/-- A state names another one, in a transition or in an error handler. -/
def PointsTo (d : Document) (a b : String) : Prop :=
  ∃ s ∈ d.states, ∃ t, Catalog.standard.get? s.kind = some t ∧ s.id = a ∧ b ∈ s.names t

/-- The id of the entry state: the one that the start block names, or that of the first state. -/
def entryState? (d : Document) : Option String :=
  (Import.entryName? d).or (d.states.head?.map State.id)

/-- A state that no state names. -/
def IsRoot (d : Document) (id : String) : Prop :=
  id ∈ d.states.map State.id ∧ ∀ a, ¬d.PointsTo a id

/-- The state with a given id is named, over any number of steps, from the entry state or from one
that no state names. -/
def Reaches (d : Document) (id : String) : Prop :=
  ∃ root, (d.entryState? = some root ∨ d.IsRoot root) ∧ Relation.ReflTransGen d.PointsTo root id

end Document

namespace Import

open Compile

section

variable {c : Catalog} {d : Document} {p : Place}

theorem pointsTo_iff {a b : String} : d.PointsTo a b ↔
    ∃ p ∈ places .standard d, p.state.id = a ∧ b ∈ p.state.names p.type := by
  constructor
  · rintro ⟨s, hs, t, ht, rfl, hb⟩
    obtain ⟨p, hp, rfl, rfl⟩ := exists_place_of_mem hs ht
    exact ⟨p, hp, rfl, hb⟩
  · rintro ⟨p, hp, rfl, hb⟩
    obtain ⟨hkind, hmem⟩ := get?_of_mem_layout hp
    exact ⟨p.state, hmem, p.type, hkind, rfl, hb⟩

end

namespace Drawn

variable {settings : Settings} {supply : Nat → NodeId} {d : Document} {g : Graph} {p q : Place}

/-- One state leads to another one when it names it. -/
theorem leadsTo_iff_pointsTo (h : Drawn settings .standard supply d g) (hw : d.WellFormed)
    (hkeeps : ∀ p ∈ places .standard d, p.state.Keeps p.type) (hp : p ∈ places .standard d)
    (hq : q ∈ places .standard d) :
    LeadsTo .standard g (p.id supply) (q.id supply) ↔ d.PointsTo p.state.id q.state.id := by
  rw [h.leadsTo_iff hw hp (hkeeps p hp), pointsTo_iff]
  constructor
  · rintro ⟨name, hname, hstate⟩
    obtain rfl := Except.ok.inj ((h.stateName_id hq).symm.trans hstate)
    exact ⟨p, hp, rfl, hname⟩
  · rintro ⟨p', hp', he, hname⟩
    obtain rfl := h.eq_of_id_eq hp' hp he
    exact ⟨q.state.id, hname, h.stateName_id hq⟩

/-- Over any number of steps, a node leads to those that stand for what its state names. -/
theorem reflTransGen_iff (h : Drawn settings .standard supply d g) (hw : d.WellFormed)
    (hkeeps : ∀ p ∈ places .standard d, p.state.Keeps p.type) (hp : p ∈ places .standard d)
    (hq : q ∈ places .standard d) :
    Relation.ReflTransGen (LeadsTo .standard g) (p.id supply) (q.id supply) ↔
      Relation.ReflTransGen d.PointsTo p.state.id q.state.id := by
  constructor
  · intro hpath
    suffices hall : ∀ x, Relation.ReflTransGen (LeadsTo .standard g) (p.id supply) x →
        ∃ q' ∈ places .standard d, q'.id supply = x ∧
          Relation.ReflTransGen d.PointsTo p.state.id q'.state.id by
      obtain ⟨q', hq', he, hpath'⟩ := hall _ hpath
      obtain rfl := Place.id_injective h.distinct hq' hq he
      exact hpath'
    intro x hx
    induction hx with
    | refl => exact ⟨p, hp, rfl, .refl⟩
    | @tail _ z _ hyz ih =>
      obtain ⟨r, hr, rfl, hpath'⟩ := ih
      obtain ⟨name, -, hstate⟩ := (h.leadsTo_iff hw hr (hkeeps r hr)).1 hyz
      obtain ⟨q', hq', rfl, -⟩ := h.exists_place_of_stateName hstate
      exact ⟨q', hq', rfl, hpath'.tail ((h.leadsTo_iff_pointsTo hw hkeeps hr hq').1 hyz)⟩
  · intro hpath
    suffices hall : ∀ b, Relation.ReflTransGen d.PointsTo p.state.id b →
        ∃ q' ∈ places .standard d, q'.state.id = b ∧
          Relation.ReflTransGen (LeadsTo .standard g) (p.id supply) (q'.id supply) by
      obtain ⟨q', hq', he, hpath'⟩ := hall _ hpath
      obtain rfl := h.eq_of_id_eq hq' hq he
      exact hpath'
    intro b hb
    induction hb with
    | refl => exact ⟨p, hp, rfl, .refl⟩
    | @tail _ z _ hyz ih =>
      obtain ⟨r, hr, rfl, hpath'⟩ := ih
      obtain ⟨r', hr', he, hname⟩ := pointsTo_iff.1 hyz
      obtain rfl := h.eq_of_id_eq hr' hr he
      obtain ⟨x, hstate, hleads⟩ := h.exists_leadsTo hw hr (hkeeps r' hr) hname
      obtain ⟨q', hq', rfl, hid⟩ := h.exists_place_of_stateName hstate
      exact ⟨q', hq', hid, hpath'.tail hleads⟩

/-- An edge to the node of a state is that of the entry state, or another state leads there. -/
theorem leadsTo_of_incoming (h : Drawn settings .standard supply d g)
    (hq : q ∈ places .standard d) {e : Edge} (he : e ∈ g.incoming (q.id supply)) :
    some e ∈ entryEdges settings supply (places .standard d) (entryName? d) ∨
      ∃ p ∈ places .standard d, LeadsTo .standard g (p.id supply) (q.id supply) := by
  obtain ⟨es, hes, hshows⟩ := h.shows
  rw [hshows.incoming_eq] at he
  obtain ⟨he, htarget⟩ := List.mem_filter.1 he
  have htarget := of_decide_eq_true htarget
  have hout : e ∈ g.outgoing e.source := by
    rw [hshows.outgoing_eq]
    exact List.mem_filter.2 ⟨he, by simp⟩
  have hmem : some e ∈ edgesOf settings .standard supply d := hes ▸ List.mem_map_of_mem he
  rcases List.mem_append.1 hmem with hmem | hmem
  · exact .inl hmem
  · obtain ⟨p, hp, hmem⟩ := List.mem_flatMap.1 hmem
    refine .inr ⟨p, hp, ?_⟩
    rw [← htarget]
    rcases mem_edges_iff.1 hmem with ⟨hs, port, hhs, -, rfl⟩ | ⟨hs, hhs, hmem⟩ | hmem
    · exact absurd htarget.symm
        (Place.id_ne_catchId h.distinct hq hp (Place.size_of_handlers hhs))
    · obtain ⟨hsource, -⟩ := h.named_of_edgesTo hmem
      exact .handler ((h.isCatchOf_iff hp).2 ⟨hs, hhs, rfl⟩) (hsource ▸ hout)
    · obtain ⟨hsource, name, hname, -⟩ := h.named_of_edgesTo hmem
      exact .output (h.node?_id hp) (get?_of_mem_layout hp).1 (hsource ▸ hout)
        (TransitionRule.slot?_ne_error_of_mem_targets hname)

/-! ### The entry state and the roots -/

/-- The node of the entry state. -/
def IsEntry (settings : Settings) (supply : Nat → NodeId) (d : Document) (p : Place) : Prop :=
  p ∈ places .standard d ∧ d.entryState? = some p.state.id ∧
    entryEdges settings supply (places .standard d) (entryName? d)
      = [some (.ofOutput (supply 0) 1 (p.id supply))]

/-- The entry state that a start block names has a node. -/
theorem exists_isEntry_of_name (h : Drawn settings .standard supply d g) {name : String}
    (hname : entryName? d = some name) : ∃ p, IsEntry settings supply d p ∧ p.state.id = name := by
  unfold IsEntry Document.entryState?
  obtain ⟨es, hes, -⟩ := h.shows
  have hmem : (nodeNamed? supply (places .standard d) name).map (Edge.ofOutput (supply 0) 1)
      ∈ edgesOf settings .standard supply d := by
    refine List.mem_append_left _ ?_
    rw [hname]
    exact List.mem_cons_self
  rw [hes] at hmem
  obtain ⟨e, -, he⟩ := List.mem_map.1 hmem
  obtain ⟨id, hid, -⟩ := Option.map_eq_some_iff.1 he.symm
  obtain ⟨p, hp, rfl, rfl⟩ := exists_place_of_nodeNamed? hid
  rw [hname]
  refine ⟨p, ⟨hp, rfl, ?_⟩, rfl⟩
  show [(nodeNamed? supply (places .standard d) p.state.id).map (Edge.ofOutput (supply 0) 1)] = _
  rw [hid]
  rfl

/-- A document with states, all of known types, has an entry state. -/
theorem exists_isEntry (h : Drawn settings .standard supply d g)
    (hfallback : settings.entryFallback = true) (hne : d.states ≠ [])
    (hall : (places .standard d).map Place.state = d.states) :
    ∃ p, IsEntry settings supply d p := by
  cases hname : entryName? d with
  | none =>
    unfold IsEntry Document.entryState?
    rw [hname]
    cases hps : places .standard d with
    | nil => exact absurd (by rw [← hall, hps]; rfl) hne
    | cons p rest =>
      refine ⟨p, List.mem_cons_self, ?_, ?_⟩
      · rw [← hall, hps]
        rfl
      · rw [entryEdges, if_pos hfallback]
  | some name =>
    obtain ⟨p, hp, -⟩ := h.exists_isEntry_of_name hname
    exact ⟨p, hp⟩

theorem edgeOn?_start (h : Drawn settings .standard supply d g) (hp : IsEntry settings supply d p) :
    g.edgeOn? (supply 0) 1 = some (.ofOutput (supply 0) 1 (p.id supply)) := by
  obtain ⟨es, hes, hshows⟩ := h.shows
  rw [edgesOf, hp.2.2] at hes
  cases es with
  | nil => cases hes
  | cons e rest =>
    obtain rfl := Option.some.inj (List.cons.inj hes).1
    rw [hshows.edgeOn?_eq, List.find?_cons_of_pos]
    simp only [Edge.ofOutput, decide_true, Bool.and_self]

/-- The node of a state is a root, unless the state is the entry state or follows another one. -/
theorem mem_roots_iff (h : Drawn settings .standard supply d g) (hp : IsEntry settings supply d p)
    (hq : q ∈ places .standard d) : q.id supply ∈ roots g ↔
      q ≠ p ∧ ∀ p' ∈ places .standard d, ¬LeadsTo .standard g (p'.id supply) (q.id supply) := by
  obtain ⟨es, -, hshows⟩ := h.shows
  constructor
  · intro hroot
    obtain ⟨-, -, -, hi⟩ := mem_roots.1 hroot
    refine ⟨?_, fun p' _ hleads => hleads.incoming_ne_nil hshows.holds hi⟩
    rintro rfl
    have hedge := h.edgeOn?_start hp
    rw [hshows.edgeOn?_eq] at hedge
    rw [hshows.incoming_eq, List.filter_eq_nil_iff] at hi
    exact hi _ (List.mem_of_find?_eq_some hedge) (by simp [Edge.ofOutput])
  · rintro ⟨hne, hnone⟩
    refine mem_roots.2 ⟨q.node, hshows.consistent.mem_nodes_iff.2 (h.node?_id hq), h.primitive q hq,
      List.eq_nil_iff_forall_not_mem.2 fun e he => ?_⟩
    rcases h.leadsTo_of_incoming hq he with hmem | ⟨p', hp', hleads⟩
    · rw [hp.2.2, List.mem_singleton] at hmem
      have htarget : e.target = p.id supply := congrArg Edge.target (Option.some.inj hmem)
      rw [hshows.incoming_eq] at he
      exact hne (Place.id_injective h.distinct hq hp.1
        ((of_decide_eq_true (List.mem_filter.1 he).2).symm.trans htarget))
    · exact hnone p' hp' hleads

/-- A node that stands for a state which no state names is a root, or the entry node. -/
theorem isRoot_of_isRoot (h : Drawn settings .standard supply d g) (hw : d.WellFormed)
    (hp : IsEntry settings supply d p) (hq : q ∈ places .standard d)
    (hroot : d.IsRoot q.state.id) : q = p ∨ Compile.IsRoot g (q.id supply) := by
  obtain ⟨es, -, hshows⟩ := h.shows
  by_cases he : q = p
  · exact .inl he
  have hnone : ∀ r ∈ places .standard d, ¬LeadsTo .standard g (r.id supply) (q.id supply) := by
    intro r hr hleads
    obtain ⟨name, hname, hstate⟩ := h.mem_names_of_leadsTo hw hr hleads
    obtain rfl := Except.ok.inj (hstate.symm.trans (h.stateName_id hq))
    exact hroot.2 r.state.id (pointsTo_iff.2 ⟨r, hr, rfl, hname⟩)
  obtain ⟨n, hn, hprimitive, hin⟩ := mem_roots.1 ((h.mem_roots_iff hp hq).2 ⟨he, hnone⟩)
  exact .inr ⟨⟨n, hshows.consistent.mem_nodes_iff.1 hn, hprimitive⟩, hin⟩

/-- No state names the state of a node that is a root. -/
theorem isRoot_of_root (h : Drawn settings .standard supply d g) (hw : d.WellFormed)
    (hkeeps : ∀ p ∈ places .standard d, p.state.Keeps p.type) (hq : q ∈ places .standard d)
    (hroot : Compile.IsRoot g (q.id supply)) : d.IsRoot q.state.id := by
  refine ⟨List.mem_map_of_mem (get?_of_mem_layout hq).2, fun a ha => ?_⟩
  obtain ⟨r, hr, rfl, hname⟩ := pointsTo_iff.1 ha
  obtain ⟨x, hstate, hleads⟩ := h.exists_leadsTo hw hr (hkeeps r hr) hname
  obtain rfl := h.eq_of_stateName hstate (h.stateName_id hq)
  obtain ⟨es, -, hshows⟩ := h.shows
  exact hleads.incoming_ne_nil hshows.holds hroot.2

/-- What a state names is a state. -/
theorem exists_place_of_pointsTo (h : Drawn settings .standard supply d g) (hw : d.WellFormed)
    (hkeeps : ∀ p ∈ places .standard d, p.state.Keeps p.type) {a b : String}
    (hab : d.PointsTo a b) : ∃ q ∈ places .standard d, q.state.id = b := by
  obtain ⟨r, hr, -, hname⟩ := pointsTo_iff.1 hab
  obtain ⟨x, hstate, -⟩ := h.exists_leadsTo hw hr (hkeeps r hr) hname
  obtain ⟨q, hq, -, hid⟩ := h.exists_place_of_stateName hstate
  exact ⟨q, hq, hid⟩

theorem exists_place_of_reaches (h : Drawn settings .standard supply d g) (hw : d.WellFormed)
    (hkeeps : ∀ p ∈ places .standard d, p.state.Keeps p.type)
    (hall : (places .standard d).map Place.state = d.states)
    (hp : IsEntry settings supply d p) {id : String} (hreaches : d.Reaches id) :
    ∃ q ∈ places .standard d, q.state.id = id := by
  obtain ⟨root, hroot, hpath⟩ := hreaches
  rcases hpath.cases_tail with rfl | ⟨a, -, hab⟩
  · rcases hroot with hentry | hroot
    · exact ⟨p, hp.1, Option.some.inj (hp.2.1.symm.trans hentry)⟩
    · obtain ⟨s, hs, rfl⟩ := List.mem_map.1 hroot.1
      rw [← hall] at hs
      obtain ⟨q, hq, rfl⟩ := List.mem_map.1 hs
      exact ⟨q, hq, rfl⟩
  · exact h.exists_place_of_pointsTo hw hkeeps hab

/-- A compilation of the graph goes to the nodes of the states that the document reaches. -/
theorem reaches_iff (h : Drawn settings .standard supply d g) (hw : d.WellFormed)
    (hkeeps : ∀ p ∈ places .standard d, p.state.Keeps p.type)
    (hall : (places .standard d).map Place.state = d.states)
    (hp : IsEntry settings supply d p) (hq : q ∈ places .standard d) :
    (∃ root, (root = p.id supply ∨ Compile.IsRoot g root) ∧
      Relation.ReflTransGen (LeadsTo .standard g) root (q.id supply)) ↔ d.Reaches q.state.id := by
  constructor
  · rintro ⟨root, rfl | hroot, hpath⟩
    · exact ⟨p.state.id, .inl hp.2.1, (h.reflTransGen_iff hw hkeeps hp.1 hq).1 hpath⟩
    · obtain ⟨n, hn, hprimitive⟩ := hroot.1
      obtain ⟨r, hr, rfl, -⟩ := h.exists_place hn hprimitive
      exact ⟨r.state.id, .inr (h.isRoot_of_root hw hkeeps hr hroot),
        (h.reflTransGen_iff hw hkeeps hr hq).1 hpath⟩
  · rintro ⟨root, hentry | hroot, hpath⟩
    · obtain rfl := Option.some.inj (hp.2.1.symm.trans hentry)
      exact ⟨p.id supply, .inl rfl, (h.reflTransGen_iff hw hkeeps hp.1 hq).2 hpath⟩
    · obtain ⟨s, hs, rfl⟩ := List.mem_map.1 hroot.1
      rw [← hall] at hs
      obtain ⟨r, hr, rfl⟩ := List.mem_map.1 hs
      refine ⟨r.id supply, ?_, (h.reflTransGen_iff hw hkeeps hr hq).2 hpath⟩
      exact (h.isRoot_of_isRoot hw hp hr hroot).imp_left (congrArg (Place.id supply))

end Drawn

end Import

end Workflow
