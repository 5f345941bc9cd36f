import Workflow.Proofs.Import.Kept

/-!
# States that are left out were never there

An import that leaves out the states of unknown types ends as the import of the document without
them does: with the same graph, or with the same error (`toGraph_without_unknown`). The two imports
make the same nodes in the same order, because a state that is left out takes no identifier
(`foldlM_takeState_known`), and what is drawn afterwards depends on the nodes alone (`drawn`). When
unknown types are refused, an import succeeds just when it would leave nothing out.
-/

namespace Workflow

variable {T : Type}

/-- The document without its states of unknown types. -/
def Document.known (c : Catalog T) (d : Document) : Document :=
  { d with states := d.states.filter fun s => c.contains s.kind }

/-- The states of unknown types, in order. -/
def Document.unknown (c : Catalog T) (d : Document) : List SkippedState :=
  (d.states.filter fun s => !c.contains s.kind).map fun s => ⟨s.id, s.kind⟩

theorem Document.unknown_eq_nil_iff {c : Catalog T} {d : Document} :
    d.unknown c = [] ↔ ∀ s ∈ d.states, c.contains s.kind = true := by
  simp [unknown]

namespace Import

variable [NodeSpec T] {settings settings' : Settings} {c : Catalog T} {supply : Nat → NodeId}
  {d : Document}

/-! ### Nodes and edges -/

/-- A state of a known type is taken under all settings alike. -/
theorem takeState_congr {s : State} (hs : c.contains s.kind = true) (dr : Draft) :
    takeState settings c supply dr s = takeState settings' c supply dr s := by
  obtain ⟨t, ht⟩ := Option.isSome_iff_exists.1 hs
  simp only [takeState, ht]

/-- The graph with the edges of an import: the one to the entry state, and those of the states that
have a node. -/
def drawn (settings : Settings) (start : NodeId) (entry : Option String) (g : Graph)
    (pending : List Pending) : Except Error Graph := do
  let g ← match ← (entryNode settings pending entry).outcome with
    | some entry => g.addEdge (.ofOutput start 1 entry)
    | none => pure g
  pending.foldlM (wire pending) g

theorem drawn_congr (h : settings.entryFallback = settings'.entryFallback) :
    drawn settings = drawn settings' := by
  funext start entry g pending
  unfold drawn entryNode
  rw [h]

/-- The outcome of an import: the nodes, and then the edges. -/
theorem toGraph_outcome (hids : (d.states.map State.id).Nodup) :
    (d.toGraph settings c supply).outcome = (do
      let (start, entry, g) ← addStart c supply (.empty ⟨d.functions, d.extra⟩) d.start
      let draft ← (d.states.foldlM (takeState settings c supply) ⟨g, [], []⟩).outcome
      let g ← drawn settings start entry draft.graph draft.pending
      return ⟨g, draft.skipped⟩) := by
  have hrep : repeatedId? [] d.states = none := repeatedId?_eq_none_iff.2 ⟨hids, nofun⟩
  unfold Document.toGraph drawn
  simp only [hrep, pure_bind, Traced.outcome_bind, Traced.outcome_liftM, bind_assoc]
  refine bind_congr fun x => bind_congr fun draft => bind_congr fun node => ?_
  cases node <;> simp only [Traced.outcome_bind, Traced.outcome_liftM, bind_assoc] <;> rfl

/-! ### Imports -/

theorem toGraph_known (hskip : settings.skipUnregistered = true)
    (hids : (d.states.map State.id).Nodup) :
    (d.toGraph settings c supply).outcome = ((d.known c).toGraph settings c supply).outcome.map
      fun r => { r with skipped := d.unknown c } := by
  have hknown : ((d.known c).states.map State.id).Nodup :=
    hids.sublist (List.filter_sublist.map _)
  show _ = _ <$> _
  rw [toGraph_outcome hids, toGraph_outcome hknown, map_bind]
  refine bind_congr fun ⟨start, entry, g⟩ => ?_
  dsimp only
  rw [foldlM_takeState_known hskip, bind_map_left, map_bind]
  refine bind_congr fun draft => ?_
  rw [map_bind]
  rfl

/-- Without states of unknown types it does not matter whether these may be left out. -/
theorem toGraph_congr (hids : (d.states.map State.id).Nodup)
    (hstates : ∀ s ∈ d.states, c.contains s.kind = true)
    (h : settings.entryFallback = settings'.entryFallback) :
    (d.toGraph settings c supply).outcome = (d.toGraph settings' c supply).outcome := by
  have hfold : ∀ dr, d.states.foldlM (takeState settings c supply) dr
      = d.states.foldlM (takeState settings' c supply) dr :=
    List.foldlM_congr fun dr s hs => takeState_congr (hstates s hs) dr
  rw [toGraph_outcome hids, toGraph_outcome hids, drawn_congr h]
  simp only [hfold]

/-- Leaving out the states of unknown types is as if they had never been there: the import of a
document and that of the document without them end with the same graph or the same error, and the
first one lists these states, in order. When they may not be left out, an import succeeds just when
it would leave out nothing, with the same result. -/
theorem toGraph_without_unknown (settings : Settings) (c : Catalog T) (supply : Nat → NodeId)
    {d : Document} (hids : (d.states.map State.id).Nodup) :
    (settings.skipUnregistered = true →
      (d.toGraph settings c supply).outcome = ((d.known c).toGraph settings c supply).outcome.map
        fun r => { r with skipped := d.unknown c }) ∧
      ∀ r, (d.toGraph { settings with skipUnregistered := false } c supply).outcome = .ok r ↔
        (d.toGraph { settings with skipUnregistered := true } c supply).outcome = .ok r ∧
          r.skipped = [] := by
  have hsame : (∀ s ∈ d.states, c.contains s.kind = true) →
      (d.toGraph { settings with skipUnregistered := false } c supply).outcome
        = (d.toGraph { settings with skipUnregistered := true } c supply).outcome :=
    fun hstates => toGraph_congr hids hstates rfl
  refine ⟨fun hskip => toGraph_known hskip hids, fun r => ⟨fun h => ?_, fun ⟨h, hskipped⟩ => ?_⟩⟩
  · obtain ⟨-, _, _, _, _, _, _, _, _, -, hfold, -⟩ := toGraph_eq_ok h
    have hstates := (known_of_foldlM_takeState hfold).resolve_left nofun
    have h := (hsame hstates).symm.trans h
    exact ⟨h, (toGraph_skipped h).trans (Document.unknown_eq_nil_iff.2 hstates)⟩
  · have hstates := Document.unknown_eq_nil_iff.1
      ((toGraph_skipped h).symm.trans hskipped)
    exact (hsame hstates).trans h

/-- A document without an entry state, of which the first state has an unknown type. -/
def strayDocument : Document :=
  ⟨[], none, none,
    [⟨"x", "unknown", [("transition", .str "a")], none⟩,
      ⟨"a", "noop", [("transition", .str "b")], some [⟨"E", some "b", []⟩]⟩,
      ⟨"y", "other", [], none⟩, ⟨"b", "noop", [], none⟩]⟩

theorem strayDocument_without_unknown :
    (strayDocument.states.map State.id).Nodup ∧
    ∃ r, ((strayDocument.known .standard).toGraph {} .standard NodeId.ofNat).outcome = .ok r ∧
      (strayDocument.toGraph {} .standard NodeId.ofNat).outcome
        = .ok ⟨r.graph, [⟨"x", "unknown"⟩, ⟨"y", "other"⟩]⟩ ∧
      ∀ r, (strayDocument.toGraph { skipUnregistered := false } .standard NodeId.ofNat).outcome
        ≠ .ok r := by
  have hids : (strayDocument.states.map State.id).Nodup := by decide
  have hok : ((strayDocument.known .standard).toGraph {} .standard
      NodeId.ofNat).outcome.toOption.isSome = true := by decide +kernel
  obtain ⟨hsame, hstrict⟩ := toGraph_without_unknown {} .standard NodeId.ofNat hids
  have hunknown : strayDocument.unknown .standard = [⟨"x", "unknown"⟩, ⟨"y", "other"⟩] := by
    decide +kernel
  cases h : ((strayDocument.known .standard).toGraph {} .standard NodeId.ofNat).outcome with
  | error e =>
    rw [h] at hok
    cases hok
  | ok r =>
    have hfirst := hsame rfl
    rw [h, hunknown] at hfirst
    refine ⟨hids, r, rfl, hfirst, fun r' hr' => ?_⟩
    obtain ⟨hlenient, hnil⟩ := (hstrict r').1 hr'
    obtain rfl := Except.ok.inj (hfirst.symm.trans hlenient)
    cases hnil

end Import

end Workflow
