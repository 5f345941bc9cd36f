import Workflow.Proofs.Document.Handlers
import Workflow.Proofs.Document.ReadBack
import Workflow.Proofs.Document.Start
import Workflow.Proofs.NodeType.Changes

/-!
# Start blocks and error handlers that are back

A start block and a list of error handlers become forms of nodes of their own. The start block comes
back with the fields of its kind (`Start.ofForm_startNode`), and the error handlers as they were
(`handlers_restored`).
-/

namespace Workflow

/-! ### The start block -/

/-- The start block of a document with a given entry state, and with no other fields than those of
its kind. -/
def Document.startAt (d : Document) (entry : String) : Start where
  kind := d.start.bind Start.kind
  state := some entry
  fields := ((d.start.bind Start.kind).getD .plain).fields.filterMap fun key =>
    ((d.start.bind fun s => s.fields.get? key)).map (key, ·)

theorem StartKind.fields_apart (kind : StartKind) :
    ∀ key ∈ kind.fields, key ≠ "type" ∧ key ≠ "state" := by
  cases kind <;> decide

theorem StartKind.nodup_fields (kind : StartKind) : kind.fields.Nodup := by
  cases kind <;> decide

/-- The fields that a start block takes over from a form have different keys. -/
theorem Start.wellFormed_of_ofForm {form : Fields} (hform : Json.KeyedFields form) {name : String}
    {s : Start} (h : ofForm form name = .ok s) : s.WellFormed := by
  obtain ⟨kind, -, hs⟩ := Except.bind_eq_ok_iff.1 h
  cases hs
  have hkeys : ∀ keys : List String,
      Fields.keys (keys.filterMap fun key => (form.get? key).map (key, ·))
        = keys.filter fun key => (form.get? key).isSome := by
    intro keys
    unfold Fields.keys
    rw [List.map_filterMap, ← List.filterMap_eq_filter]
    refine List.filterMap_congr fun key _ => ?_
    cases hv : form.get? key <;> simp [Option.guard, hv]
  refine ⟨Json.keyedFields_iff.2 ⟨?_, fun e he => ?_⟩, fun key hkey => ?_⟩
  · rw [hkeys]
    exact (StartKind.nodup_fields _).filter _
  · obtain ⟨key, -, hget⟩ := List.mem_filterMap.1 he
    obtain ⟨v, hv, rfl⟩ := Option.map_eq_some_iff.1 hget
    exact hform.of_get? hv
  · rw [hkeys] at hkey
    obtain ⟨htype, hstate⟩ := StartKind.fields_apart _ key (List.mem_of_mem_filter hkey)
    simp [htype, hstate]

/-- A start block that was made from a form has the fields of its kind, and no others. -/
theorem Document.startAt_of_ofForm {d : Document} {form : Fields} {entry : String} {s : Start}
    (h : Start.ofForm form entry = .ok s) (hs : d.start = some s) : d.startAt entry = s := by
  obtain ⟨kind, -, hok⟩ := Except.bind_eq_ok_iff.1 h
  cases hok
  have hget : ∀ keys : List String, keys.Nodup → ∀ key ∈ keys,
      Fields.get? (keys.filterMap fun key => (form.get? key).map (key, ·)) key = form.get? key := by
    intro keys hnd key hkey
    induction keys with
    | nil => cases hkey
    | cons k rest ih =>
      obtain ⟨hnot, hnd⟩ := List.nodup_cons.1 hnd
      rw [List.filterMap_cons]
      rcases List.mem_cons.1 hkey with rfl | hkey
      · cases hv : form.get? key with
        | some v => exact if_pos rfl
        | none =>
          refine Fields.get?_eq_none_iff.2 fun hmem => hnot ?_
          obtain ⟨e, he, rfl⟩ := List.mem_map.1 hmem
          obtain ⟨other, hother, he⟩ := List.mem_filterMap.1 he
          obtain ⟨v, -, rfl⟩ := Option.map_eq_some_iff.1 he
          exact hother
      · have hne : k ≠ key := fun he => hnot (he ▸ hkey)
        cases form.get? k with
        | none => exact ih hnd hkey
        | some v => exact (if_neg hne).trans (ih hnd hkey)
  rw [startAt, hs]
  show Start.mk kind (some entry) _ = _
  congr 1
  refine List.filterMap_congr fun key hkey => ?_
  exact congrArg (Option.map (key, ·)) (hget _ (StartKind.nodup_fields _) key hkey)

namespace Import

theorem get?_startFields_type {d : Document} (hw : ∀ s, d.start = some s → s.WellFormed) :
    (startFields d).get? "type" = (d.start.bind Start.kind).map fun kind => .str kind.name := by
  rw [startFields_eq hw]
  cases hs : d.start with
  | none => rfl
  | some s =>
    have htype : s.fields.get? "type" = none :=
      Fields.get?_eq_none_iff.2 fun hmem => (hw s hs).2 _ hmem (by decide)
    have hne : ("state" = "type") = False := by decide
    show Fields.get? s.entries "type" = s.kind.map _
    rw [Start.entries]
    cases s.kind <;> cases s.state <;> simp [Fields.get?, htype, hne]

theorem get?_startFields_of_ne {d : Document} (hw : ∀ s, d.start = some s → s.WellFormed)
    {key : String} (htype : key ≠ "type") (hstate : key ≠ "state") :
    (startFields d).get? key = d.start.bind fun s => s.fields.get? key := by
  rw [startFields_eq hw]
  cases hs : d.start with
  | none => rfl
  | some s =>
    show Fields.get? s.entries key = s.fields.get? key
    rw [Start.entries]
    cases s.kind <;> cases s.state <;> simp [Fields.get?, htype.symm, hstate.symm]

/-- The start block that a start node amounts to. -/
theorem ofForm_startNode {d : Document} (hw : ∀ s, d.start = some s → s.WellFormed)
    (entry : String) : Start.ofForm (startType.transitions.strip (startNode d).form) entry
      = .ok (d.startAt entry) := by
  have hnd := (keyed_startFields fun s hs => (hw s hs).1).nodup
  have hfits : TransitionRule.entry.Fits (startFields d) := by
    show 1 + 0 ≤ PortCount.greatest
    decide
  have hstrip := TransitionRule.edits_strip hnd hfits
  have hstrip' := TransitionRule.edits_strip hstrip.nodup (TransitionRule.fits_strip hfits)
  have hget : ∀ key, key ≠ "state" →
      (startType.transitions.strip (startNode d).form).get? key = (startFields d).get? key := by
    intro key hkey
    have hown : key ∉ TransitionRule.entry.ownKeys := fun hmem =>
      hkey (List.mem_singleton.1 hmem)
    exact (hstrip'.other key hown).trans (hstrip.other key hown)
  have hkind : Start.kindOfForm (startType.transitions.strip (startNode d).form)
      = .ok (d.start.bind Start.kind) := by
    rw [Start.kindOfForm, hget "type" (by decide), get?_startFields_type hw]
    cases d.start.bind Start.kind with
    | none => rfl
    | some kind => simp only [Option.map_some, StartKind.ofName?_name]
  refine Except.bind_eq_ok_iff.2 ⟨_, hkind, ?_⟩
  have hfields : ∀ keys : List String, (∀ key ∈ keys, key ≠ "type" ∧ key ≠ "state") →
      (keys.filterMap fun key =>
        ((startType.transitions.strip (startNode d).form).get? key).map (key, ·))
      = keys.filterMap fun key => (d.start.bind fun s => s.fields.get? key).map (key, ·) := by
    intro keys hkeys
    refine List.filterMap_congr fun key hkey => ?_
    obtain ⟨htype, hstate⟩ := hkeys key hkey
    rw [hget key hstate, get?_startFields_of_ne hw htype hstate]
  simp only [hfields _ (StartKind.fields_apart _)]
  rfl

end Import

/-! ### Error handlers -/

namespace CatchEntry

/-- An error handler whose name was written again. -/
def named (h : CatchEntry) : Json :=
  .obj (("error", .str h.error) :: h.extra ++ optionalText "transition" h.transition)

/-- The transition of an error handler is the name among the fields that were read. -/
theorem transition_of_foldlM_step {whole : Json.Part} {fields : Fields} {p p' : Partial}
    (h : fields.foldlM (fun acc (e : String × Json) =>
      Partial.step whole acc e.1 (e.2.part false)) p = .ok p') :
    (p.transition = none →
      p'.transition.join = (fields.get? "transition").bind Json.str?) ∧
    ∀ name?, p.transition = some name? → p'.transition = some name? := by
  induction fields generalizing p with
  | nil =>
    cases h
    exact ⟨fun hnone => by rw [hnone]; rfl, fun _ hsome => hsome⟩
  | cons e rest ih =>
    obtain ⟨key, v⟩ := e
    rw [List.foldlM_cons] at h
    obtain ⟨p₁, hstep, hrest⟩ := Except.bind_eq_ok_iff.1 h
    obtain ⟨hnone, hsome⟩ := ih hrest
    rcases step_eq_ok_iff.1 hstep with ⟨rfl, -, _, -, rfl⟩ | ⟨rfl, hslot, name?, hread, rfl⟩ |
      ⟨hkey, _, -, rfl⟩
    · rw [Fields.get?, if_neg (by decide)]
      exact ⟨hnone, hsome⟩
    · refine ⟨fun _ => ?_, fun name? hp => ?_⟩
      · rw [hsome name? rfl, Fields.get?, if_pos rfl]
        cases v with
        | null | str text =>
          cases hread
          rfl
        | _ => cases hread
      · rw [hp] at hslot
        cases hslot
    · have hne : key ≠ "transition" := by
        rintro rfl
        exact hkey (List.mem_cons_of_mem _ List.mem_cons_self)
      rw [Fields.get?, if_neg hne]
      exact ⟨hnone, hsome⟩

/-- The transition of an error handler is the name in the entry that it was read from. -/
theorem transition_of_read {v : Json} {h : CatchEntry}
    (hr : read (v.part false) = .ok h) : h.transition = TransitionSlot.entryName? v := by
  unfold read at hr
  obtain ⟨p, hp, hr⟩ := Except.bind_eq_ok_iff.1 hr
  obtain ⟨error, -, hr⟩ := Except.bind_eq_ok_iff.1 hr
  obtain ⟨extra, -, hr⟩ := Except.bind_eq_ok_iff.1 hr
  obtain rfl := Except.pure_eq_ok_iff.1 hr
  cases v with
  | obj fields =>
    rw [Json.fields_part] at hp
    exact (transition_of_foldlM_step hp).1 rfl
  | _ => cases hp

/-- The fields of an error handler whose name was written again, read one after the other. -/
theorem adds_named (whole : Json.Part) {h : CatchEntry} (hw : h.WellFormed) :
    Record.Adds (Partial.step whole) ⟨none, none, []⟩
      (("error", .str h.error) :: h.extra ++ optionalText "transition" h.transition)
      ⟨some h.error, h.transition.map some, h.extra.map fun e => (e.1, .ok e.2)⟩ := by
  have hextra := hw.adds_aside (step_other whole ⟨some h.error, none, []⟩) []
  refine .append _ (.cons (fun _ => step_error whole _ rfl) hextra) ?_
  cases h.transition with
  | none => exact .nil
  | some name => exact .single fun _ => step_transition whole _ rfl

/-- Reading an error handler whose name was written again gives the error handler. -/
theorem read_named {h : CatchEntry} (hw : h.WellFormed) : read (h.named.part false) = .ok h :=
  read_of_adds hw (Json.holds_part _ false) (adds_named _ hw)

/-- An error handler that lost its name and got it back. -/
theorem withName_toJson {h : CatchEntry} (hw : h.WellFormed) :
    TransitionSlot.withName (TransitionSlot.entryName? h.toJson)
      (TransitionSlot.clearEntry h.toJson) = h.named := by
  have hnot : "transition" ∉ h.extra.keys := fun hmem => hw.2 _ hmem (by decide)
  have hnot' : "transition" ∉ Fields.keys (("error", .str h.error) :: h.extra) := by
    rw [Fields.keys_cons, List.mem_cons, not_or]
    exact ⟨show "transition" ≠ "error" by decide, hnot⟩
  have hcleared : TransitionSlot.clearEntry h.toJson
      = .obj (("error", .str h.error) :: h.extra) := by
    show Json.obj (Fields.erase h.entries "transition") = _
    rw [entries]
    cases h.transition with
    | none => exact congrArg Json.obj (Fields.erase_of_not_mem hnot')
    | some name =>
      have hne : "error" ≠ "transition" := by decide
      simp only [optionalText, List.cons_append, List.nil_append, Fields.erase, hne, if_false,
        if_true]
  rw [hcleared, entryName?_toJson hw, named]
  cases h.transition with
  | none => simp only [TransitionSlot.withName, optionalText, List.append_nil]
  | some name => exact congrArg Json.obj (Fields.insert_of_not_mem hnot' (.str name))

end CatchEntry

namespace Import

open TransitionSlot Compile

/-- The error handlers that a form holds: one for each entry of its list, with the name in it. -/
theorem readHandlers_eq_ok {form : Fields} {hs : List CatchEntry}
    (h : readHandlers form = .ok hs) : (∀ x ∈ hs, x.WellFormed) ∧
      hs.map CatchEntry.transition = TransitionRule.handlers.names form := by
  have hnames : TransitionRule.handlers.names form
      = (itemsOf form "catch").map TransitionSlot.entryName? := rfl
  rw [hnames]
  unfold readHandlers at h
  split at h
  next hget =>
    cases h
    simp [itemsOf, hget]
  next hget =>
    cases h
    simp [itemsOf, hget, Json.arr?]
  next v _ hget =>
    split at h
    next hread =>
      cases h
      cases v with
      | arr items =>
        have hread : Record.list CatchEntry.read ((Json.arr items).part false)
            = .ok hs := hread
        refine ⟨fun x hx => ?_, ?_⟩
        · obtain ⟨part, hpart⟩ := Record.list_eq_ok hread x hx
          exact CatchEntry.read_wellFormed hpart
        · rw [Json.list_part, Except.mapM_eq_ok_iff] at hread
          have hitems : itemsOf form "catch" = items := by simp only [itemsOf, hget]; rfl
          rw [hitems, ← List.forall₂_eq_eq_eq, List.forall₂_map_left_iff,
            List.forall₂_map_right_iff]
          exact (hread.imp fun v x hx => (CatchEntry.transition_of_read hx)).flip
      | _ => cases hread
    next => cases h

/-- The error handlers of an error-catch node, once their names are written again; those without a
port never lost theirs. -/
theorem handlers_restored {hs : List CatchEntry} (hw : ∀ h ∈ hs, h.WellFormed) (owner : String) :
    ∃ form, writeAll (catchType.transitions.strip (catchNode hs).form)
        (catchType.transitions.held (handlerFields hs)) = some form ∧
      fieldsOfForm catchType owner form = .ok form ∧ readHandlers form = .ok hs := by
  have hentries := entries_handlerFields hw
  obtain ⟨n, hn⟩ : ∃ n, TransitionRule.handlers.branches (handlerFields hs) = n := ⟨_, rfl⟩
  have hle : n ≤ (hs.map CatchEntry.toJson).length := by
    rw [← hn, TransitionRule.branches_eq, hentries]
    exact Nat.min_le_left _ _
  have hkeyed : Json.KeyedFields (handlerFields hs) :=
    ⟨List.not_mem_nil, Json.keyed_merged _, trivial⟩
  have hform : catchType.transitions.strip (catchNode hs).form
      = TransitionRule.handlers.strip (handlerFields hs) :=
    TransitionRule.strip_strip _ hkeyed
  have hget : (TransitionRule.handlers.strip (handlerFields hs)).get? "catch"
      = some (.arr (TransitionRule.clearBranches n (hs.map CatchEntry.toJson))) := by
    rw [TransitionRule.get?_strip_list rfl, hn, handlerFields_eq hw]
    rfl
  have hheld : catchType.transitions.held (handlerFields hs) = (List.range n).filterMap fun i =>
      (((hs.map CatchEntry.toJson)[i]?).bind TransitionSlot.entryName?).map
        (branch "catch" i, ·) := by
    show TransitionRule.handlers.held (handlerFields hs) = _
    rw [TransitionRule.held, TransitionRule.map_snd_slots, ← hn, ← hentries]
    simp only [TransitionRule.fixed, List.nil_append, TransitionRule.list?, Option.map_some,
      Option.getD_some, List.filterMap_map]
    rfl
  obtain ⟨form, hwritten, hputs⟩ := writeAll_branches
    (TransitionRule.keyed_strip _ hkeyed).nodup hget
    (fun v hv name hname => by
      cases v with
      | obj entry => exact ⟨_, rfl⟩
      | _ => cases hname) n hle (TransitionRule.take_clearBranches n _)
  rw [TransitionRule.drop_clearBranches] at hputs
  refine ⟨form, by rw [hform, hheld, hwritten], rfl, ?_⟩
  have hread : Json.readValue (Record.list CatchEntry.read) (.arr
      (((hs.map CatchEntry.toJson).take n).map
          (fun v => withName (TransitionSlot.entryName? v) (clearEntry v)) ++
        (hs.map CatchEntry.toJson).drop n)) = .ok hs := by
    show Record.list CatchEntry.read ((Json.arr _).part false) = _
    rw [Json.list_part, Except.mapM_eq_ok_iff, ← List.map_take, ← List.map_drop, List.map_map]
    conv => rhs; rw [← List.take_append_drop n hs]
    refine List.rel_append ?_ ?_
    · refine List.forall₂_map_left_iff.2 (List.forall₂_same.2 fun h hmem => ?_)
      have hh := hw h (List.mem_of_mem_take hmem)
      rw [Function.comp_apply, CatchEntry.withName_toJson hh]
      exact CatchEntry.read_named hh
    · refine List.forall₂_map_left_iff.2 (List.forall₂_same.2 fun h hmem => ?_)
      exact CatchEntry.read_of_holds (hw h (List.mem_of_mem_drop hmem)) (Json.holds_part _ false)
  rw [readHandlers, hputs.self]
  simp only [hread]

end Import

end Workflow
