import Workflow.Proofs.Document.WellFormed

/-!
# The entries of well-formed records

The fields that a record keeps as they are stand beside those with a meaning of their own, so that
all its entries together repeat no key: neither those of an error handler, a state or a start block,
nor those of a whole document (`Document.keyed_toJson`).
-/

namespace Workflow

/-- Fields that are kept as they are and the entries of a record around them repeat no key. -/
theorem Fields.Beside.keyed {keys : List String} {fields before after : Fields}
    (h : fields.Beside keys) (hnd : keys.Nodup) (hown : (before ++ after).keys.Sublist keys)
    (hvalues : ∀ e ∈ before ++ after, e.2.Keyed) :
    Json.KeyedFields (before ++ fields ++ after) := by
  obtain ⟨hkeyed, hapart⟩ := h
  obtain ⟨hfields, hkept⟩ := Json.keyedFields_iff.1 hkeyed
  have hperm : (before ++ fields ++ after).Perm ((before ++ after) ++ fields) := by
    rw [List.append_assoc, List.append_assoc]
    exact List.perm_append_comm.append_left before
  refine Json.keyedFields_iff.2 ⟨?_, fun e he => ?_⟩
  · refine (hperm.map Prod.fst).nodup_iff.2 ?_
    rw [List.map_append]
    refine List.nodup_append.2 ⟨hnd.sublist hown, hfields, ?_⟩
    rintro k hk _ hk' rfl
    exact hapart k hk' (hown.subset hk)
  · rcases List.mem_append.1 (hperm.mem_iff.1 he) with he | he
    · exact hvalues e he
    · exact hkept e he

theorem CatchEntry.keyed_toJson {h : CatchEntry} (hw : h.WellFormed) : h.toJson.Keyed := by
  show Json.KeyedFields h.entries
  rw [entries, ← List.append_nil (_ ++ h.extra)]
  refine hw.keyed (by decide) ?_ ?_ <;> rw [List.append_nil]
  · cases h.transition with
    | none => exact List.sublist_append_left ["error"] ["transition"]
    | some name => exact List.Sublist.refl ["error", "transition"]
  · cases h.transition <;> simp [optionalText, Json.Keyed]

theorem State.keyed_toJson {s : State} (hw : s.WellFormed) : s.toJson.Keyed := by
  show Json.KeyedFields ([("id", .str s.id), ("type", .str s.kind)] ++ s.fields ++ _)
  refine hw.fields.keyed (by decide) ?_ ?_
  · cases s.handlers with
    | none => exact List.sublist_append_left ["id", "type"] ["catch"]
    | some hs => exact List.Sublist.refl ["id", "type", "catch"]
  · cases hs : s.handlers with
    | none => simp [Json.Keyed]
    | some list =>
      have hlist : Json.KeyedItems (list.map CatchEntry.toJson) :=
        Json.keyedItems_iff.2 (List.forall_mem_map.2 fun h hh =>
          CatchEntry.keyed_toJson (hw.handlers list hs h hh))
      simpa [Json.Keyed] using hlist

theorem Start.keyed_entries {s : Start} (hw : s.WellFormed) : Json.KeyedFields s.entries := by
  rw [entries, ← List.append_nil (_ ++ s.fields)]
  refine hw.keyed (by decide) ?_ ?_ <;> rw [List.append_nil]
  · cases s.kind <;> cases s.state
    · exact List.nil_sublist ["type", "state"]
    · exact List.sublist_append_right ["type"] ["state"]
    · exact List.sublist_append_left ["type"] ["state"]
    · exact List.Sublist.refl ["type", "state"]
  · cases s.kind <;> cases s.state <;> simp [Json.Keyed]

/-- A well-formed document repeats no key, at any depth. -/
theorem Document.keyed_toJson {d : Document} (hw : d.WellFormed) : d.toJson.Keyed := by
  show Json.KeyedFields d.entries
  rw [entries, List.append_assoc, List.append_assoc, ← List.nil_append d.extra]
  refine hw.extra.keyed (by decide) ?_ ?_
  · cases d.functions <;> cases d.start
    · exact List.sublist_append_right ["functions", "start"] ["states"]
    · exact List.sublist_append_right ["functions"] ["start", "states"]
    · exact (List.sublist_append_right ["start"] ["states"]).cons_cons "functions"
    · exact List.Sublist.refl ["functions", "start", "states"]
  · have hstates : Json.KeyedItems (d.states.map State.toJson) :=
      Json.keyedItems_iff.2 (List.forall_mem_map.2 fun s hs => State.keyed_toJson (hw.states s hs))
    rw [List.nil_append]
    refine List.forall_mem_append.2 ⟨?_, List.forall_mem_append.2 ⟨?_, fun e he => ?_⟩⟩
    · cases hfs : d.functions with
      | none => simp
      | some fs => simpa [Json.Keyed] using hw.functions fs hfs
    · cases hs : d.start with
      | none => simp
      | some s => simpa [Json.Keyed] using Start.keyed_entries (hw.start s hs)
    · rw [List.mem_singleton.1 he]
      exact hstates

end Workflow
