import Workflow.Proofs.Import.Kept

/-!
# Which documents are imported

An import ends with a graph exactly when the document is `Importable`: its ids are different, its
types are known or may be left out, and every name is that of a state of a known type
(`toGraph_ok_iff`). Otherwise it ends with an `Objection`, an error that says which of these is
missing. The edges are no reason: while they are drawn there is always `Room` for those that are
still to come, since each of them fits its ports and no two leave the same output.
-/

namespace Workflow.Import

variable {settings : Settings} {c : Catalog} {supply : Nat → NodeId} {d : Document}

/-- A state of a known type has this id. -/
def Named (c : Catalog) (d : Document) (name : String) : Prop :=
  ∃ s ∈ d.states, s.id = name ∧ c.contains s.kind = true

instance (name : String) : Decidable (Named c d name) :=
  inferInstanceAs (Decidable (∃ s ∈ d.states, s.id = name ∧ c.contains s.kind = true))

/-- The documents that can be imported. -/
structure Importable (settings : Settings) (c : Catalog) (d : Document) : Prop where
  /-- No two states have the same id, left out or not. -/
  ids : (d.states.map State.id).Nodup
  /-- Types are known, or states of other types may be left out. -/
  known : settings.skipUnregistered = true ∨ ∀ s ∈ d.states, c.contains s.kind = true
  entry : ∀ name ∈ entryName? d, Named c d name
  transitions : ∀ s ∈ d.states, ∀ t ∈ c.get? s.kind,
    ∀ x ∈ t.transitions.targets s.fields, Named c d x.2
  handlers : ∀ s ∈ d.states, c.contains s.kind = true → ∀ hs ∈ s.handlers,
    ∀ x ∈ catchType.transitions.targets (handlerFields hs), Named c d x.2

instance : Decidable (Importable settings c d) :=
  decidable_of_iff
    ((d.states.map State.id).Nodup ∧
      (settings.skipUnregistered = true ∨ ∀ s ∈ d.states, c.contains s.kind = true) ∧
      (∀ name ∈ entryName? d, Named c d name) ∧
      (∀ s ∈ d.states, ∀ t ∈ c.get? s.kind,
        ∀ x ∈ t.transitions.targets s.fields, Named c d x.2) ∧
      ∀ s ∈ d.states, c.contains s.kind = true → ∀ hs ∈ s.handlers,
        ∀ x ∈ catchType.transitions.targets (handlerFields hs), Named c d x.2)
    ⟨fun ⟨ids, known, entry, transitions, handlers⟩ =>
      ⟨ids, known, entry, transitions, handlers⟩,
      fun h => ⟨h.ids, h.known, h.entry, h.transitions, h.handlers⟩⟩

/-- An error that tells why a document is not imported. -/
inductive Objection (settings : Settings) (c : Catalog) (d : Document) : Error → Prop
  | repeated {id : String} (h : ¬(d.states.map State.id).Nodup) :
      Objection settings c d (.duplicateStateId id)
  | unknown {s : State} (hs : s ∈ d.states) (h : c.contains s.kind = false)
      (hskip : settings.skipUnregistered = false) :
      Objection settings c d (.unregisteredType s.kind)
  | unresolved {owner name : String} (h : ¬Named c d name) :
      Objection settings c d (.unresolvedTransition owner name)

/-! ### Names -/

theorem exists_place_iff {name : String} :
    (∃ q ∈ places c d, q.state.id = name) ↔ Named c d name := by
  constructor
  · rintro ⟨q, hq, rfl⟩
    obtain ⟨hkind, hmem⟩ := get?_of_mem_layout hq
    exact ⟨q.state, hmem, rfl, by rw [Catalog.contains, hkind]; rfl⟩
  · rintro ⟨s, hs, rfl, hknown⟩
    obtain ⟨t, ht⟩ := Option.isSome_iff_exists.1 hknown
    obtain ⟨q, hq, rfl, -⟩ := exists_place_of_mem hs ht
    exact ⟨q, hq, rfl⟩

theorem nodeNamed?_eq_none_iff {name : String} :
    nodeNamed? supply (places c d) name = none ↔ ¬Named c d name := by
  rw [nodeNamed?, Option.map_eq_none_iff, List.find?_eq_none, ← exists_place_iff]
  simp

theorem edgesTo_cons {ps : List Place} {source id : NodeId} {name : String}
    (h : nodeNamed? supply ps name = some id) (port : Port) (rest : List (Port × String)) :
    edgesTo supply ps source ((port, name) :: rest) =
      some (.ofOutput source port id) :: edgesTo supply ps source rest := by
  show (nodeNamed? supply ps name).map _ :: _ = _
  rw [h]
  rfl

/-- Edges to names have ends when the names are those of states. -/
theorem none_not_mem_edgesTo_iff {source : NodeId} {targets : List (Port × String)} :
    none ∉ edgesTo supply (places c d) source targets ↔ ∀ x ∈ targets, Named c d x.2 := by
  simp only [edgesTo, List.mem_map, Option.map_eq_none_iff, nodeNamed?_eq_none_iff, not_exists,
    not_and, not_not]

/-- When every edge that a document describes has ends, every name is that of a state. -/
theorem Importable.of_none_not_mem (hids : (d.states.map State.id).Nodup)
    (hknown : settings.skipUnregistered = true ∨ ∀ s ∈ d.states, c.contains s.kind = true)
    (hends : none ∉ edgesOf settings c supply d) : Importable settings c d := by
  rw [edgesOf, List.mem_append, not_or] at hends
  have hplace : ∀ s ∈ d.states, ∀ t, c.get? s.kind = some t →
      ∃ p ∈ places c d, p.state = s ∧ p.type = t ∧ none ∉ p.edges supply (places c d) := by
    intro s hs t ht
    obtain ⟨p, hp, hstate, htype⟩ := exists_place_of_mem hs ht
    exact ⟨p, hp, hstate, htype, fun hmem => hends.2 (List.mem_flatMap.2 ⟨p, hp, hmem⟩)⟩
  refine ⟨hids, hknown, fun name hname => ?_, fun s hs t ht => ?_, fun s hs hkind hlist hh => ?_⟩
  · have hentry : none ∉ edgesTo supply (places c d) (supply 0) [(1, name)] := by
      rw [Option.mem_def.1 hname] at hends
      exact hends.1
    exact none_not_mem_edgesTo_iff.1 hentry _ (List.mem_singleton_self _)
  · obtain ⟨p, -, rfl, rfl, hnone⟩ := hplace s hs t ht
    exact none_not_mem_edgesTo_iff.1 fun hmem => hnone (List.mem_append_right _ hmem)
  · obtain ⟨t, ht⟩ := Option.isSome_iff_exists.1 hkind
    obtain ⟨p, -, rfl, rfl, hnone⟩ := hplace s hs t ht
    have hnone : none ∉ edgesTo supply (places c d) (p.catchId supply)
        (catchType.transitions.targets (handlerFields hlist)) := by
      intro hmem
      refine hnone (List.mem_append_left _ ?_)
      rw [Option.mem_def.1 hh]
      exact List.mem_cons_of_mem _ hmem
    exact none_not_mem_edgesTo_iff.1 hnone

/-- Every edge that an importable document describes has ends, when all states have an error output.
-/
theorem Importable.none_not_mem_edgesOf (h : Importable settings c d)
    (herror : ∀ p ∈ places c d, p.type.transitions.errorPort? ≠ none) :
    none ∉ edgesOf settings c supply d := by
  refine Import.none_not_mem_edgesOf (fun name hname => exists_place_iff.2 (h.entry name hname))
    (fun p hp x hx => ?_) fun p hp hs hhs => ⟨herror p hp, fun x hx => ?_⟩
  · obtain ⟨hkind, hmem⟩ := get?_of_mem_layout hp
    exact exists_place_iff.2 (h.transitions _ hmem _ hkind x hx)
  · obtain ⟨hkind, hmem⟩ := get?_of_mem_layout hp
    have hknown : c.contains p.state.kind = true := by rw [Catalog.contains, hkind]; rfl
    exact exists_place_iff.2 (h.handlers _ hmem hknown hs hhs x hx)

/-! ### Room for edges -/

/-- What is described as `xs` can be added to a graph with `edges`, as far as it has ends: each edge
fits the ports of its nodes, and no two of all these edges leave the same output. -/
structure Room (nodes : List (NodeId × Node)) (edges : List Edge) (xs : List (Option Edge)) :
    Prop where
  fits : ∀ e, some e ∈ xs → Fits nodes e
  apart : (edges.map some ++ xs).Pairwise OutputsApart

namespace Room

variable {nodes : List (NodeId × Node)} {edges es : List Edge} {xs ys : List (Option Edge)}

theorem left (h : Room nodes edges (xs ++ ys)) : Room nodes edges xs where
  fits e he := h.fits e (List.mem_append_left _ he)
  apart := h.apart.sublist ((List.sublist_append_left xs ys).append_left _)

/-- There is room for the rest once the first edges were added. -/
theorem after (h : Room nodes edges (es.map some ++ xs)) : Room nodes (edges ++ es) xs where
  fits e he := h.fits e (List.mem_append_right _ he)
  apart := by
    rw [List.map_append, List.append_assoc]
    exact h.apart

theorem after_head {e : Edge} (h : Room nodes edges (some e :: xs)) :
    Room nodes (edges ++ [e]) xs :=
  after (show Room nodes edges ([e].map some ++ xs) from h)

theorem addEdge_ok {e : Edge} (h : Room nodes edges (some e :: xs)) {g : Graph}
    (hb : Builds supply g nodes edges) :
    ∃ g', g.addEdge e = .ok g' ∧ Builds supply g' nodes (edges ++ [e]) := by
  refine hb.addEdge_ok (h.fits e List.mem_cons_self) fun f hf => ?_
  exact (List.pairwise_append.1 h.apart).2.2 _ (List.mem_map_of_mem hf) _ List.mem_cons_self _ _
    rfl rfl

end Room

section

variable {nodes : List (NodeId × Node)} {edges : List Edge} {g : Graph}

open Except

theorem resolve_fails (owner name : String) :
    (resolve ((places c d).map (Place.pending supply)) owner name).Fails
      (Objection settings c d) := by
  intro e he
  have hnone : nodeNamed? supply (places c d) name = none := by
    rw [Option.eq_none_iff_forall_ne_some]
    intro id hid
    rw [resolve_eq_ok_iff.2 hid] at he
    cases he
  unfold resolve at he
  split at he
  next => cases he
  next =>
    cases he
    exact .unresolved (nodeNamed?_eq_none_iff.1 hnone)

/-- While there is room for edges, they fail to be drawn only for want of a state. -/
theorem drawEdges_fails {owner : String} {source : NodeId} {targets : List (Port × String)}
    (hb : Builds supply g nodes edges)
    (hroom : Room nodes edges (edgesTo supply (places c d) source targets)) :
    (drawEdges ((places c d).map (Place.pending supply)) owner source g targets).Fails
      (Objection settings c d) := by
  unfold drawEdges
  induction targets generalizing g edges with
  | nil => exact fails_pure g
  | cons target rest ih =>
    obtain ⟨port, name⟩ := target
    have hhead : ∀ id, resolve ((places c d).map (Place.pending supply)) owner name = .ok id →
        Room nodes edges (some (.ofOutput source port id) ::
          edgesTo supply (places c d) source rest) := by
      intro id hid
      rwa [edgesTo_cons (resolve_eq_ok_iff.1 hid)] at hroom
    rw [List.foldlM_cons]
    refine Fails.bind ((resolve_fails owner name).bind fun id hid => ?_) fun g₁ h₁ => ?_
    · obtain ⟨g', hg', -⟩ := (hhead id hid).addEdge_ok hb
      rw [hg']
      exact fails_ok g'
    · obtain ⟨id, hid, hadd⟩ := bind_eq_ok_iff.1 h₁
      exact ih (hb.addEdge hadd).1 ((hhead id hid).after_head)

theorem wire_fails {p : Place} (herror : p.type.transitions.errorPort? ≠ none)
    (hb : Builds supply g nodes edges) (hroom : Room nodes edges (p.edges supply (places c d))) :
    (wire ((places c d).map (Place.pending supply)) g (p.pending supply)).Fails
      (Objection settings c d) := by
  unfold Place.edges at hroom
  unfold wire
  cases hs : p.state.handlers with
  | none =>
    have hp : (p.pending supply).handlers = none := by rw [Place.pending, hs]; rfl
    rw [hs] at hroom
    simp only [hp]
    exact drawEdges_fails hb hroom
  | some hlist =>
    have hp : (p.pending supply).handlers =
        some ⟨p.catchId supply, catchType.transitions.targets (handlerFields hlist)⟩ := by
      rw [Place.pending, hs]; rfl
    obtain ⟨port, hport⟩ := Option.ne_none_iff_exists'.1 herror
    have hpending : (p.pending supply).errorPort = some port := hport
    rw [hs, hport] at hroom
    simp only [hp, hpending]
    obtain ⟨g', hg', -⟩ := hroom.addEdge_ok hb
    refine Fails.bind (hg' ▸ fails_ok g') fun g₁ h₁ => ?_
    -- The edges of the error handlers leave room for those of the state itself.
    have hroom₁ := hroom.after_head
    have hb₁ := (hb.addEdge h₁).1
    refine (drawEdges_fails hb₁ hroom₁.left).bind fun g₂ h₂ => ?_
    obtain ⟨es, hes, hb₂, -⟩ := drawEdges_builds hb₁ h₂
    rw [hes] at hroom₁
    exact drawEdges_fails hb₂ hroom₁.after

theorem foldlM_wire_fails {qs : List Place}
    (herror : ∀ q ∈ qs, q.type.transitions.errorPort? ≠ none) (hb : Builds supply g nodes edges)
    (hroom : Room nodes edges (qs.flatMap (Place.edges supply (places c d)))) :
    ((qs.map (Place.pending supply)).foldlM
      (wire ((places c d).map (Place.pending supply))) g).Fails (Objection settings c d) := by
  induction qs generalizing g edges with
  | nil => exact fails_pure g
  | cons q rest ih =>
    rw [List.flatMap_cons] at hroom
    rw [List.map_cons, List.foldlM_cons]
    refine (wire_fails (herror q List.mem_cons_self) hb hroom.left).bind fun g₁ h₁ => ?_
    obtain ⟨es, hes, hb₁, -⟩ := wire_builds hb h₁
    rw [hes] at hroom
    exact ih (fun q hq => herror q (List.mem_cons_of_mem _ hq)) hb₁ hroom.after

/-! ### The whole import -/

open Traced

theorem takeState_within (hcatch : c.get? NodeType.catchName = some catchType) (dr : Draft)
    {s : State} (hs : s ∈ d.states) :
    (takeState settings c supply dr s).Within (fun _ => True) (Objection settings c d) := by
  unfold takeState
  split
  next t ht =>
    obtain ⟨dr', hadd, -⟩ : ∃ dr', addState c supply t dr s = .ok dr' ∧ _ := addState_ok hcatch t dr s
    rw [hadd]
    exact within_liftM (fails_ok dr')
  next ht =>
    split
    · exact (within_note fun _ _ => trivial).bind fun _ _ => within_pure _
    next hskip =>
      have hunknown : c.contains s.kind = false := by rw [Catalog.contains, ht]; rfl
      exact within_fail (.unknown hs hunknown (Bool.eq_false_iff.2 hskip))

theorem entryNode_within (entry : Option String) :
    (entryNode settings ((places c d).map (Place.pending supply)) entry).Within (fun _ => True)
      (Objection settings c d) := by
  unfold entryNode
  split
  next name =>
    rw [map_eq_pure_bind]
    exact within_liftM_bind (resolve_fails _ name) fun _ _ => within_pure _
  next =>
    split
    · exact within_pure none
    · split
      · exact (within_note fun _ _ => trivial).bind fun _ _ => within_pure _
      · exact within_pure none

/-- An import that ends with an error ends with an objection to the document, when every state has an
input and an error output. -/
theorem toGraph_fails (hstart : c.get? NodeType.startName = some startType)
    (hcatch : c.get? NodeType.catchName = some catchType)
    (hd : Distinct supply (1 + 2 * d.states.length))
    (hentry : ((startType.transitions.targets (startFields d)).head?).map Prod.snd = entryName? d)
    (hinputs : ∀ p ∈ places c d, (1 : Port).isWithin p.type.inputs = true)
    (herror : ∀ p ∈ places c d, p.type.transitions.errorPort? ≠ none) :
    (d.toGraph settings c supply).outcome.Fails (Objection settings c d) := by
  refine Within.fails (M := fun _ => True) ?_
  unfold Document.toGraph
  cases hrep : repeatedId? [] d.states with
  | some id =>
    refine (within_fail (.repeated fun hids => ?_)).bind fun _ h => nomatch h
    rw [repeatedId?_eq_none_iff.2 ⟨hids, fun _ _ => List.not_mem_nil⟩] at hrep
    cases hrep
  | none =>
    obtain ⟨⟨start, entry, g₀⟩, hadd⟩ : ∃ r,
      addStart c supply (.empty ⟨d.functions, d.extra⟩) d.start = .ok r := addStart_ok hstart _ _
    obtain ⟨rfl, rfl, hb₀, -⟩ := addStart_builds hstart hd (by omega) hadd
    refine within_liftM_bind (hadd ▸ fails_ok _) fun r hr => ?_
    obtain rfl := Except.ok.inj (hadd.symm.trans hr)
    refine (within_foldlM (fun dr s hs => takeState_within hcatch dr hs) _).bind fun draft hfold => ?_
    obtain ⟨hb₁, hpending, -⟩ :=
      foldlM_takeState_builds hcatch hd hb₀ (by simp) (Traced.eq_of_outcome hfold)
    have hpending : draft.pending = (places c d).map (Place.pending supply) := hpending
    rw [hpending]
    refine (entryNode_within _).bind fun node hnode => ?_
    have hroom : Room (nodesOf c supply d) [] (edgesOf settings c supply d) :=
      ⟨fun e => fits_of_mem_edgesOf hinputs, outputsApart_edgesOf hd⟩
    rw [edgesOf, ← hentry, entryNode_eq (Traced.eq_of_outcome hnode)] at hroom
    cases node with
    | none =>
      simp only [pure_bind]
      exact within_liftM_bind (foldlM_wire_fails herror hb₁ hroom) fun _ _ => within_pure _
    | some entry =>
      obtain ⟨g₂, hg₂, hb₂⟩ := hroom.addEdge_ok hb₁
      refine within_liftM_bind (hg₂ ▸ fails_ok g₂) fun g h => ?_
      obtain rfl := Except.ok.inj (hg₂.symm.trans h)
      have hroom₂ := hroom.after_head
      exact within_liftM_bind (foldlM_wire_fails herror hb₂ hroom₂) fun _ _ => within_pure _

end

theorem Importable.of_toGraph (hstart : c.get? NodeType.startName = some startType)
    (hcatch : c.get? NodeType.catchName = some catchType)
    (hd : Distinct supply (1 + 2 * d.states.length))
    (hentry : ((startType.transitions.targets (startFields d)).head?).map Prod.snd = entryName? d)
    {r : Imported} (h : (d.toGraph settings c supply).outcome = .ok r) :
    Importable settings c d := by
  obtain ⟨hrep, -, es, hes, -⟩ := toGraph_builds hstart hcatch hd hentry h
  obtain ⟨-, _, _, _, _, _, _, _, _, -, hfold, -⟩ := toGraph_eq_ok h
  have hends : none ∉ edgesOf settings c supply d := by
    rw [hes]
    simp
  exact .of_none_not_mem (repeatedId?_eq_none_iff.1 hrep).1 (known_of_foldlM_takeState hfold) hends

/-- With the types of the editor, a document whose states have types of states or unknown types is
imported exactly when its ids are different, its types are known or may be left out, and every name
is that of a state of a known type. If it is not imported, the error tells what is missing; no edge
is ever refused.

The other fields of the start block must not repeat the key of the entry state. In a document that is
read they do not, since that key is read as the entry state; in one that was put together otherwise
the value under it would be taken for the entry state in its place. -/
theorem toGraph_ok_iff (hstart : ∀ s, d.start = some s → "state" ∉ s.fields.keys)
    (hprimitive : ∀ s ∈ d.states, ∀ t, Catalog.standard.get? s.kind = some t →
      t.isPrimitive = true)
    (hsupply : Distinct supply (1 + 2 * d.states.length)) :
    ((∃ r, (d.toGraph settings .standard supply).outcome = .ok r) ↔
        Importable settings .standard d) ∧
      ∀ e, (d.toGraph settings .standard supply).outcome = .error e →
        Objection settings .standard d e := by
  have hentry := entryName?_eq_of_not_mem hstart
  have hports : ∀ p ∈ places .standard d,
      p.type.inputs = 1 ∧ p.type.transitions.errorPort? ≠ none := by
    intro p hp
    obtain ⟨hkind, hmem⟩ := get?_of_mem_layout hp
    exact primitive_of_standard hkind (hprimitive _ hmem _ hkind)
  have hinputs : ∀ p ∈ places .standard d, (1 : Port).isWithin p.type.inputs = true := by
    intro p hp
    rw [(hports p hp).1]
    decide
  have herror : ∀ p ∈ places .standard d, p.type.transitions.errorPort? ≠ none :=
    fun p hp => (hports p hp).2
  refine ⟨⟨?_, fun h => ?_⟩,
    toGraph_fails standard_startName standard_catchName hsupply hentry hinputs herror⟩
  · rintro ⟨r, hr⟩
    exact .of_toGraph standard_startName standard_catchName hsupply hentry hr
  · obtain ⟨r, hr, -⟩ := toGraph_ok standard_startName standard_catchName hsupply hentry h.ids
      h.known hinputs (h.none_not_mem_edgesOf herror)
    exact ⟨r, hr⟩

/-- A document with an entry state, a state with error handlers, and a state of an unknown type that
has the id `unknown`. The second of the error handlers leads to the state with the id `last`. -/
def handledDocument (unknown last : String) : Document :=
  ⟨[], none, some ⟨none, some "a", []⟩,
    [⟨"a", "switch", [("defaultTransition", .str "b"),
        ("conditions", .arr [.obj [("transition", .str "a")]])],
        some [⟨"E", none, []⟩, ⟨"F", some last, []⟩]⟩,
      ⟨unknown, "unknown", [("transition", .str "nowhere")], none⟩, ⟨"b", "noop", [], none⟩]⟩

/-- The document is imported unless the last name is that of the state that is left out, or that
state has an id that another state has. -/
theorem toGraph_handledDocument_ok_iff :
    (∃ r, ((handledDocument "x" "b").toGraph {} .standard NodeId.ofNat).outcome = .ok r) ∧
      ¬(∃ r, ((handledDocument "x" "x").toGraph {} .standard NodeId.ofNat).outcome = .ok r) ∧
      ¬∃ r, ((handledDocument "a" "b").toGraph {} .standard NodeId.ofNat).outcome = .ok r := by
  have hiff : ∀ unknown last, ((∃ r, ((handledDocument unknown last).toGraph {} .standard
      NodeId.ofNat).outcome = .ok r) ↔ Importable {} .standard (handledDocument unknown last)) := by
    intro unknown last
    have hcount : 1 + 2 * (handledDocument unknown last).states.length ≤ 2 ^ 128 :=
      show 1 + 2 * 3 ≤ 2 ^ 128 by decide
    refine (toGraph_ok_iff ?_ ?_ (distinct_ofNat hcount)).1
    · rintro s ⟨⟩
      exact nofun
    · have hkinds : ∀ kind ∈ ["switch", "unknown", "noop"], ∀ t,
          Catalog.standard.get? kind = some t → t.isPrimitive = true := by decide +kernel
      exact fun s hs => hkinds s.kind (List.mem_map_of_mem hs)
  simp only [hiff]
  decide +kernel

end Workflow.Import
