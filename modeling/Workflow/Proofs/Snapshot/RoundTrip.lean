import Workflow.Proofs.Snapshot.ReadBack

/-!
# Snapshots that were read from a text

In whatever form a snapshot was given, reading it keeps the keys of every record apart, and what it is
written as is no deeper than what it was read from (`Snapshot.of_json`). So a snapshot that was read
is read back from its own text, unless a coordinate was too large to be finite
(`Snapshot.reads_back_unless_infinite`).
-/

namespace Workflow

open Json (Part KeyedFields KeyedItems)

variable {part : Part}

/-! ### Nodes -/

theorem Position.depth_toJson (p : Position) : p.toJson.depth = 1 := by
  obtain ⟨x, y⟩ := p
  cases x <;> cases y <;> rfl

namespace Node

/-- The form that was read so far, if it was, repeats no key and is at most that deep. -/
def Partial.FormLe (n : Nat) (q : Partial) : Prop :=
  ∀ f ∈ q.form, KeyedFields f ∧ (Json.obj f).depth ≤ n

theorem Partial.FormLe.step {n : Nat} {q q' : Partial} {whole : Part} {key : String}
    (h : q.FormLe n) (hpart : part.raw.depth ≤ n) (hs : Partial.step whole q key part = .ok q') :
    q'.FormLe n := by
  unfold Partial.step at hs
  split at hs
  case h_4 =>
    obtain ⟨slot, hslot, hok⟩ := Except.bind_eq_ok_iff.1 hs
    obtain rfl := Except.pure_eq_ok_iff.1 hok
    obtain ⟨-, f, hf, rfl⟩ := Record.once_eq_ok_iff.1 hslot
    obtain ⟨hkeyed, hdepth⟩ := Part.fields_eq_ok hf
    rintro _ ⟨⟩
    exact ⟨hkeyed, Nat.le_trans hdepth hpart⟩
  all_goals
    obtain ⟨slot, hslot, hok⟩ := Except.bind_eq_ok_iff.1 hs
    obtain rfl := Except.pure_eq_ok_iff.1 hok
    exact h

theorem depth_toJson_le {n : Node} {k : Nat} (hk : 1 ≤ k) (h : (Json.obj n.form).depth ≤ k) :
    n.toJson.depth ≤ k + 1 := by
  have hwords : (Json.arr (n.fanOut.map wordJson)).depth ≤ 0 + 1 :=
    Json.depth_arr_le_iff.2 (List.forall_mem_map.2 fun _ _ => Nat.le_refl 0)
  rw [toJson_eq, Json.depth_obj_le_iff, plainFields]
  refine List.forall_mem_append.2 ⟨List.forall_mem_append.2 ⟨List.forall_mem_append.2
    ⟨List.forall_mem_append.2 ⟨?_, ?_⟩, ?_⟩, ?_⟩, fun e he => ?_⟩
  · simp [Json.depth]
  · cases n.stateId <;> simp [optionalText, Json.depth]
  · simpa [Json.depth, wordJson] using h
  · split
    · exact List.forall_mem_nil _
    · exact List.forall_mem_singleton.2 (Nat.le_trans hwords hk)
  · obtain ⟨p, -, rfl⟩ := Option.map_eq_some_iff.1 (Option.mem_toList.1 he)
    exact p.depth_toJson ▸ hk

theorem of_read {n : Node} (hr : read part = .ok n) :
    KeyedFields n.form ∧ n.toJson.depth ≤ max 2 part.raw.depth := by
  obtain ⟨m, q, missing, hm, hq, hfinish⟩ := Json.FixedRecord.read_induction
    (P := Partial.FormLe) hr (fun _ => nofun) fun _ _ _ _ _ hpart h hs => h.step hpart hs
  obtain ⟨kind, -, hfinish⟩ := Except.bind_eq_ok_iff.1 hfinish
  obtain ⟨family, -, hfinish⟩ := Except.bind_eq_ok_iff.1 hfinish
  obtain ⟨initialized, -, hfinish⟩ := Except.bind_eq_ok_iff.1 hfinish
  obtain ⟨inputs, -, hfinish⟩ := Except.bind_eq_ok_iff.1 hfinish
  obtain ⟨outputs, -, hfinish⟩ := Except.bind_eq_ok_iff.1 hfinish
  obtain rfl := Except.pure_eq_ok_iff.1 hfinish
  have hform : KeyedFields (q.form.getD []) ∧ (Json.obj (q.form.getD [])).depth ≤ max 1 m := by
    cases hf : q.form with
    | none => exact ⟨trivial, Nat.le_max_left 1 m⟩
    | some f => exact (hq f hf).imp_right fun h => Nat.le_trans h (Nat.le_max_right 1 m)
  rw [hm, show max 2 (m + 1) = max 1 m + 1 from Nat.add_max_add_right 1 m 1]
  exact ⟨hform.1, depth_toJson_le (Nat.le_max_left 1 m) hform.2⟩

end Node

/-! ### Tables -/

namespace NodeTable

theorem mem_of_mem_insertInto {id : NodeId} {n : Node} {es : List (NodeId × Node)}
    {e : NodeId × Node} (h : e ∈ insertInto id n es) : e = (id, n) ∨ e ∈ es := by
  induction es with
  | nil => exact .inl (List.mem_singleton.1 h)
  | cons f rest ih =>
    rw [insertInto] at h
    split at h
    · exact List.mem_cons.1 h
    · split at h
      · rcases List.mem_cons.1 h with rfl | h
        · exact .inr List.mem_cons_self
        · exact (ih h).imp_right (List.mem_cons_of_mem _)
      · exact (List.mem_cons.1 h).imp_right (List.mem_cons_of_mem _)

theorem of_read {t : NodeTable} (hr : read part = .ok t) : ∃ m, part.raw.depth = m + 1 ∧
    ∀ e ∈ t.entries, KeyedFields e.2.form ∧ e.2.toJson.depth ≤ max 2 m := by
  obtain ⟨entries, hentries, hr⟩ := Except.bind_eq_ok_iff.1 hr
  obtain ⟨acc, hacc, hr⟩ := Except.bind_eq_ok_iff.1 hr
  have ht : acc = t := by
    split at hr
    · exact absurd hr Except.throw_ne_ok
    · exact Except.pure_eq_ok_iff.1 hr
  unfold Part.entriesAs at hentries
  split at hentries
  next fields ending hraw =>
    obtain rfl := Except.pure_eq_ok_iff.1 hentries
    refine ⟨Json.Raw.depthFields fields, by rw [hraw, Json.Raw.depth, Nat.add_comm], ?_⟩
    refine ht ▸ Except.foldlM_induction (P := fun t : NodeTable => ∀ e ∈ t.entries,
      KeyedFields e.2.form ∧ e.2.toJson.depth ≤ max 2 (Json.Raw.depthFields fields)) ?_
      (fun _ he => absurd he List.not_mem_nil) hacc
    intro acc e he acc' hP hs
    obtain ⟨f, hf, rfl⟩ := List.mem_map.1 he
    obtain ⟨key, -, hs⟩ := Except.bind_eq_ok_iff.1 hs
    obtain ⟨id, -, hs⟩ := Except.bind_eq_ok_iff.1 hs
    obtain ⟨n, hn, hs⟩ := Except.bind_eq_ok_iff.1 hs
    obtain rfl := Except.pure_eq_ok_iff.1 hs
    obtain ⟨hkeyed, hdepth⟩ := Node.of_read hn
    intro e he
    rcases mem_of_mem_insertInto he with rfl | he
    · refine ⟨hkeyed, Nat.le_trans hdepth (Nat.max_le.2 ⟨Nat.le_max_left 2 _, ?_⟩)⟩
      exact Nat.le_trans (Json.Raw.depth_le_depthFields hf) (Nat.le_max_right 2 _)
    · exact hP e he
  next => exact absurd hentries Except.throw_ne_ok

end NodeTable

/-! ### Document fields -/

namespace Metadata

/-- The document fields that were read so far repeat no key and are at most that deep. -/
structure Partial.FieldsLe (n : Nat) (q : Partial) : Prop where
  functions : ∀ fs, q.functions = some (some fs) → KeyedItems fs ∧ (Json.arr fs).depth ≤ n
  extra : ∀ f ∈ q.extra, KeyedFields f ∧ (Json.obj f).depth ≤ n

theorem Partial.FieldsLe.step {n : Nat} {q q' : Partial} {whole : Part} {key : String}
    (h : q.FieldsLe n) (hpart : part.raw.depth ≤ n)
    (hs : Partial.step whole q key part = .ok q') : q'.FieldsLe n := by
  unfold Partial.step at hs
  split at hs
  · obtain ⟨slot, hslot, hok⟩ := Except.bind_eq_ok_iff.1 hs
    obtain rfl := Except.pure_eq_ok_iff.1 hok
    refine ⟨fun fs hfs => ?_, h.extra⟩
    obtain ⟨-, v, hv, rfl⟩ := Record.once_eq_ok_iff.1 hslot
    obtain rfl := Option.some.inj hfs
    obtain ⟨hkeyed, hdepth⟩ := Part.list_json_eq_ok (Part.optional_eq_ok hv)
    exact ⟨hkeyed, Nat.le_trans hdepth hpart⟩
  · obtain ⟨slot, hslot, hok⟩ := Except.bind_eq_ok_iff.1 hs
    obtain rfl := Except.pure_eq_ok_iff.1 hok
    refine ⟨h.functions, ?_⟩
    obtain ⟨-, f, hf, rfl⟩ := Record.once_eq_ok_iff.1 hslot
    obtain ⟨hkeyed, hdepth⟩ := Part.fields_eq_ok hf
    rintro _ ⟨⟩
    exact ⟨hkeyed, Nat.le_trans hdepth hpart⟩

theorem of_read {m : Metadata} (hr : read part = .ok m) :
    (∀ fs ∈ m.functions, KeyedItems fs) ∧ KeyedFields m.extra ∧
      m.toJson.depth ≤ part.raw.depth := by
  obtain ⟨n, q, missing, hn, hq, hfinish⟩ := Json.FixedRecord.read_induction
    (P := Partial.FieldsLe) hr (fun _ => ⟨nofun, nofun⟩)
    fun _ _ _ _ _ hpart h hs => h.step hpart hs
  obtain rfl := Except.ok.inj hfinish
  have hfunctions := fun fs (hfs : fs ∈ q.functions.join) =>
    hq.functions fs (Option.join_eq_some_iff.1 hfs)
  refine ⟨fun fs hfs => (hfunctions fs hfs).1, ?_, ?_⟩
  · cases hextra : q.extra with
    | none => exact trivial
    | some f => exact (hq.extra f hextra).1
  · rw [hn, toJson_eq, Json.depth_obj_le_iff, entries]
    refine List.forall_mem_append.2 ⟨fun e he => ?_, ?_⟩
    · obtain ⟨fs, hfs, rfl⟩ := Option.map_eq_some_iff.1 (Option.mem_toList.1 he)
      exact (hfunctions fs hfs).2
    · cases hextra : q.extra with
      | none => exact List.forall_mem_nil _
      | some f =>
        dsimp only [Option.getD_some]
        split
        · exact List.forall_mem_nil _
        · exact List.forall_mem_singleton.2 (hq.extra f hextra).2

end Metadata

/-! ### Snapshots -/

namespace Snapshot

/-- The part of a snapshot that was read so far repeats no key and is at most that deep, but for what
every snapshot is written with. -/
structure Partial.PartsLe (n : Nat) (q : Partial) : Prop where
  nodes : ∀ t ∈ q.nodes, ∀ e ∈ t.entries, KeyedFields e.2.form ∧ e.2.toJson.depth + 1 ≤ max 3 n
  metadata : ∀ m ∈ q.metadata, (∀ fs ∈ m.functions, KeyedItems fs) ∧ KeyedFields m.extra ∧
    m.toJson.depth ≤ n

theorem Partial.PartsLe.step {n : Nat} {q q' : Partial} {whole : Part} {key : String}
    (h : q.PartsLe n) (hpart : part.raw.depth ≤ n)
    (hs : Partial.step whole q key part = .ok q') : q'.PartsLe n := by
  unfold Partial.step at hs
  split at hs
  · obtain ⟨slot, hslot, hok⟩ := Except.bind_eq_ok_iff.1 hs
    obtain rfl := Except.pure_eq_ok_iff.1 hok
    obtain ⟨-, t, ht, rfl⟩ := Record.once_eq_ok_iff.1 hslot
    refine ⟨?_, h.metadata⟩
    rintro _ ⟨⟩ e he
    obtain ⟨m, hm, hentries⟩ := NodeTable.of_read ht
    obtain ⟨hkeyed, hdepth⟩ := hentries e he
    exact ⟨hkeyed, by omega⟩
  · obtain ⟨slot, hslot, hok⟩ := Except.bind_eq_ok_iff.1 hs
    obtain rfl := Except.pure_eq_ok_iff.1 hok
    exact ⟨h.nodes, h.metadata⟩
  · obtain ⟨slot, hslot, hok⟩ := Except.bind_eq_ok_iff.1 hs
    obtain rfl := Except.pure_eq_ok_iff.1 hok
    obtain ⟨-, m, hm, rfl⟩ := Record.once_eq_ok_iff.1 hslot
    refine ⟨h.nodes, ?_⟩
    rintro _ ⟨⟩
    obtain ⟨hfunctions, hextra, hdepth⟩ := Metadata.of_read hm
    exact ⟨hfunctions, hextra, Nat.le_trans hdepth hpart⟩

/-- A snapshot repeats no key, and it is no deeper than what it was read from, but for the records and
lists that every snapshot is written with. -/
theorem of_read {s : Snapshot} (hr : read part = .ok s) :
    s.Keyed ∧ s.toJson.depth ≤ max 4 part.raw.depth := by
  obtain ⟨n, q, missing, hn, hq, hfinish⟩ := Json.FixedRecord.read_induction
    (P := Partial.PartsLe) hr (fun _ => ⟨nofun, nofun⟩)
    fun _ _ _ _ _ hpart h hs => h.step hpart hs
  obtain ⟨nodes, hnodes, hfinish⟩ := Except.bind_eq_ok_iff.1 hfinish
  obtain rfl := Except.pure_eq_ok_iff.1 hfinish
  have hnodes := hq.nodes nodes (Json.FixedRecord.need_eq_ok hnodes)
  have hmetadata : (∀ fs ∈ (q.metadata.getD .empty).functions, KeyedItems fs) ∧
      KeyedFields (q.metadata.getD .empty).extra ∧
      (q.metadata.getD .empty).toJson.depth ≤ max 3 n := by
    cases hm : q.metadata with
    | none => exact ⟨nofun, trivial, Nat.le_trans (by decide) (Nat.le_max_left 3 n)⟩
    | some m =>
      obtain ⟨hfunctions, hextra, hdepth⟩ := hq.metadata m hm
      exact ⟨hfunctions, hextra, Nat.le_trans hdepth (Nat.le_max_right 3 n)⟩
  refine ⟨⟨fun e he => (hnodes e he).1, hmetadata.1, hmetadata.2.1⟩, ?_⟩
  rw [hn, show max 4 (n + 1) = max 3 n + 1 from Nat.add_max_add_right 3 n 1, toJson,
    Json.depth_obj_le_iff]
  obtain ⟨k, hk⟩ : ∃ k, max 3 n = k + 1 := ⟨max 3 n - 1, by omega⟩
  refine List.forall_mem_cons.2 ⟨?_, List.forall_mem_cons.2 ⟨?_,
    List.forall_mem_singleton.2 hmetadata.2.2⟩⟩
  · rw [hk, Json.depth_obj_le_iff, List.forall_mem_map]
    intro e he
    have hnode := (hnodes e he).2
    show e.2.toJson.depth ≤ k
    omega
  · rw [hk, Json.depth_arr_le_iff, List.forall_mem_map]
    intro e _
    show 1 ≤ k
    omega

/-- A snapshot that was read from a text repeats no key and is not too deep to be read again. -/
theorem of_json {text : String} {s : Snapshot} (h : ofJsonText text = .ok s) :
    s.Keyed ∧ s.toJson.depth ≤ Json.depthLimit := by
  obtain ⟨part, hdepth, hr⟩ := Json.readText_eq_ok h
  exact (of_read hr).imp_right fun hle =>
    Nat.le_trans hle (Nat.max_le.2 ⟨by decide, hdepth⟩)

/-! ### Reading back -/

/-- A snapshot that was read from a JSON text is read back from its own text exactly when all of its
positions are finite. A coordinate that is too large for a 32-bit float is infinite when it is read
and null when it is written, and null is refused. The numbers of the snapshot have to be read back as
they are written. -/
theorem reads_back_unless_infinite {text : String} {s : Snapshot} (h : ofJsonText text = .ok s)
    (hnumbers : s.Legible) :
    ofJsonText s.jsonText = if s.isFinite then .ok s else .error Position.noCoordinate :=
  ofJsonText_jsonText (of_json h).1 hnumbers (of_json h).2

/-- A snapshot of one node, which is drawn at the given height. -/
def placedAt (y : ExtendedFloat) : Snapshot where
  nodes := .ofList [(.ofNat 1,
    ⟨"noop", .primitive, none, [], true, 1, 2, [], some ⟨.finite (.zero false), y⟩⟩)]
  edges := []
  metadata := .empty

/-- A text of this snapshot; the node is a list. -/
def placedText (y : String) : String :=
  "\x7b\"nodes\": \x7b\"00000000000000000000000000000001\":
    [\"noop\", \"primitive\", null, \x7b\x7d, true, 1, 2, [], [0, " ++ y ++ "]]\x7d\x7d"

/-- A node that is drawn too high is read, and its snapshot is written as a text that is refused. -/
theorem infinite_height_refused :
    ofJsonText (placedText "1e39") = .ok (placedAt (.infinite false)) ∧
      ofJsonText (placedAt (.infinite false)).jsonText = .error Position.noCoordinate :=
  have hread : ofJsonText (placedText "1e39") = .ok (placedAt (.infinite false)) := by decide +kernel
  ⟨hread, reads_back_unless_infinite hread (by decide +kernel)⟩

/-- The digits of a height spell another number in 64 bits than in 32, and the height is read back all
the same. -/
example : ofJsonText (placedAt (.finite ⟨false, 13421773, -27⟩)).jsonText
    = .ok (placedAt (.finite ⟨false, 13421773, -27⟩)) :=
  have hread : ofJsonText (placedText "0.1") = .ok (placedAt (.finite ⟨false, 13421773, -27⟩)) := by
    decide +kernel
  reads_back_unless_infinite hread (by decide +kernel)

end Snapshot

end Workflow
