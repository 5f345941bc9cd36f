import Workflow.Proofs.Document.Entries
import Workflow.Proofs.Import.Layout
import Workflow.Proofs.NodeType.Slots

/-!
# The start block as fields

The fields of a start node are the entries of the start block. The only name among them is that of
the entry state.
-/

namespace Workflow

namespace Import

theorem startFields_eq {d : Document} (h : ∀ s, d.start = some s → s.WellFormed) :
    startFields d = (d.start.map Start.entries).getD [] := by
  unfold startFields
  cases hs : d.start with
  | none => rfl
  | some s => exact Fields.ofEntries_of_nodup (Start.keyed_entries (h s hs)).nodup

/-- The fields of a start node repeat no key, since the entries of the start block are put in one
after the other. -/
theorem keyed_startFields {d : Document}
    (h : ∀ s, d.start = some s → Json.KeyedFields s.fields) :
    Json.KeyedFields (startFields d) := by
  rw [startFields]
  cases hs : d.start with
  | none => trivial
  | some s =>
    have hvalues : ∀ e ∈ s.entries, e.2.Keyed := by
      unfold Start.entries
      refine List.forall_mem_append.2 ⟨List.forall_mem_append.2 ⟨?_, ?_⟩,
        (Json.keyedFields_iff.1 (h s hs)).2⟩
      · cases s.kind with
        | none => exact List.forall_mem_nil _
        | some kind => exact List.forall_mem_singleton.2 trivial
      · cases s.state with
        | none => exact List.forall_mem_nil _
        | some state => exact List.forall_mem_singleton.2 trivial
    have hempty : Json.KeyedFields [] := trivial
    exact hempty.insertAll hvalues

theorem targets_entry (fields : Fields) :
    startType.transitions.targets fields
      = ((TransitionSlot.startState.read fields).map ((1 : Port), ·)).toList := by
  show TransitionRule.targets .entry fields = _
  rw [TransitionRule.targets]
  show ([((1 : Port), TransitionSlot.startState.read fields)].filterMap _) = _
  cases TransitionSlot.startState.read fields <;> rfl

/-- The name behind the output of the start node is that of the entry state, unless another field of
the start block takes its place. -/
theorem entryName?_eq_of_not_mem {d : Document}
    (h : ∀ s, d.start = some s → "state" ∉ s.fields.keys) :
    ((startType.transitions.targets (startFields d)).head?).map Prod.snd = entryName? d := by
  have hread : TransitionSlot.startState.read (startFields d) = entryName? d := by
    show ((startFields d).get? "state").bind Json.str? = _
    rw [startFields, entryName?]
    cases hs : d.start with
    | none => rfl
    | some s =>
      show (Fields.get? (Fields.ofEntries s.entries) "state").bind Json.str? = s.state
      unfold Start.entries
      rw [Fields.ofEntries_append, Fields.get?_insertAll_of_not_mem _ (h s hs)]
      cases s.kind <;> cases s.state <;> rfl
  rw [targets_entry, hread]
  cases entryName? d <;> rfl

/-- The name behind the output of the start node is that of the entry state. -/
theorem entryName?_eq {d : Document} (h : ∀ s, d.start = some s → s.WellFormed) :
    ((startType.transitions.targets (startFields d)).head?).map Prod.snd = entryName? d :=
  entryName?_eq_of_not_mem fun s hs hmem => (h s hs).2 _ hmem (by decide)

end Import

end Workflow
