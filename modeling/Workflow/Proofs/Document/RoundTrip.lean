import Workflow.Proofs.Document.Entries
import Workflow.Proofs.Document.ReadBack
import Workflow.Proofs.Json.Depth

/-!
# Documents that were read from a text

A document is written as deep as it stood in the text from which it was read; only the list of the
states may be new (`Document.depth_of_json`). So the text of a document that was read is never too deep
for the reader, and since reading keeps the keys of every record apart, a document that was read is
read back as it is, whatever fields it has that mean nothing here (`Document.ofJsonText_reads_back`).
-/

namespace Workflow

open Json

variable {part : Part}

/-! ### Depth -/

theorem CatchEntry.Partial.depthLe_step {n : Nat} {p p' : Partial} {whole : Part} {key : String}
    (h : p.held.DepthLe n) (hpart : part.raw.depth ≤ n)
    (hs : Partial.step whole p key part = .ok p') : p'.held.DepthLe n := by
  rcases step_eq_ok_iff.1 hs with ⟨-, -, _, -, rfl⟩ | ⟨-, -, _, -, rfl⟩ | ⟨-, held, hadd, rfl⟩
  · exact h
  · exact h
  · exact h.add hpart hadd

theorem CatchEntry.depth_of_read {h : CatchEntry} (hr : read part = .ok h) :
    h.toJson.depth ≤ part.raw.depth := by
  obtain ⟨p, hp, hr⟩ := Except.bind_eq_ok_iff.1 hr
  obtain ⟨error, -, hr⟩ := Except.bind_eq_ok_iff.1 hr
  obtain ⟨extra, hextra, hr⟩ := Except.bind_eq_ok_iff.1 hr
  obtain rfl := Except.pure_eq_ok_iff.1 hr
  obtain ⟨n, hn, hheld⟩ := Part.fields_induction (P := fun n (p : Partial) => p.held.DepthLe n) hp
    (fun _ => nofun) fun _ _ _ _ _ hq h hs => Partial.depthLe_step h hq hs
  rw [hn, toJson, depth_obj_le_iff, entries]
  refine List.forall_mem_append.2 ⟨List.forall_mem_cons.2 ⟨Nat.zero_le _, ?_⟩, hheld.settle hextra⟩
  cases p.transition.join <;> simp [optionalText, depth]

/-- The part of a state that was read so far, at most that deep. -/
structure State.Partial.DepthLe (n : Nat) (p : State.Partial) : Prop where
  held : p.held.DepthLe n
  handlers : ∀ hs, p.handlers = some (some hs) → (arr (hs.map CatchEntry.toJson)).depth ≤ n

theorem State.Partial.DepthLe.step {n : Nat} {p p' : State.Partial} {whole : Part} {key : String}
    (h : p.DepthLe n) (hpart : part.raw.depth ≤ n) (hs : Partial.step whole p key part = .ok p') :
    p'.DepthLe n := by
  rcases step_eq_ok_iff.1 hs with ⟨-, -, _, -, rfl⟩ | ⟨-, -, _, -, rfl⟩ |
    ⟨-, -, list, hread, rfl⟩ | ⟨-, held, hadd, rfl⟩
  · exact ⟨h.held, h.handlers⟩
  · exact ⟨h.held, h.handlers⟩
  · refine ⟨h.held, fun hs hlist => ?_⟩
    obtain rfl := Option.some.inj hlist
    exact Nat.le_trans (Part.depth_list (fun _ _ => CatchEntry.depth_of_read)
      (Part.optional_eq_ok hread)) hpart
  · exact ⟨h.held.add hpart hadd, h.handlers⟩

theorem State.depth_of_read {s : State} (hr : read part = .ok s) :
    s.toJson.depth ≤ part.raw.depth := by
  obtain ⟨p, hp, hr⟩ := Except.bind_eq_ok_iff.1 hr
  obtain ⟨id, -, hr⟩ := Except.bind_eq_ok_iff.1 hr
  obtain ⟨kind, -, hr⟩ := Except.bind_eq_ok_iff.1 hr
  obtain ⟨fields, hfields, hr⟩ := Except.bind_eq_ok_iff.1 hr
  obtain rfl := Except.pure_eq_ok_iff.1 hr
  obtain ⟨n, hn, hheld, hhandlers⟩ := Part.fields_induction (P := State.Partial.DepthLe) hp
    (fun _ => ⟨nofun, nofun⟩) fun _ _ _ _ _ hq h hs => h.step hq hs
  rw [hn, toJson, depth_obj_le_iff, entries]
  refine List.forall_mem_append.2 ⟨List.forall_mem_cons.2 ⟨Nat.zero_le _,
    List.forall_mem_cons.2 ⟨Nat.zero_le _, hheld.settle hfields⟩⟩, ?_⟩
  cases hs : p.handlers.join with
  | none => exact List.forall_mem_nil _
  | some hs' => exact List.forall_mem_singleton.2 (hhandlers hs' (Option.join_eq_some_iff.1 hs))

theorem Start.Partial.depthLe_step {n : Nat} {p p' : Partial} {whole : Part} {key : String}
    (h : p.held.DepthLe n) (hpart : part.raw.depth ≤ n)
    (hs : Partial.step whole p key part = .ok p') : p'.held.DepthLe n := by
  rcases step_eq_ok_iff.1 hs with ⟨-, -, _, -, rfl⟩ | ⟨-, -, _, -, rfl⟩ | ⟨-, held, hadd, rfl⟩
  · exact h
  · exact h
  · exact h.add hpart hadd

theorem Start.depth_of_read {s : Start} (hr : read part = .ok s) :
    (obj s.entries).depth ≤ part.raw.depth := by
  obtain ⟨p, hp, hr⟩ := Except.bind_eq_ok_iff.1 hr
  obtain ⟨fields, hfields, hr⟩ := Except.bind_eq_ok_iff.1 hr
  obtain rfl := Except.pure_eq_ok_iff.1 hr
  obtain ⟨n, hn, hheld⟩ := Part.fields_induction (P := fun n (p : Partial) => p.held.DepthLe n) hp
    (fun _ => nofun) fun _ _ _ _ _ hq h hs => Partial.depthLe_step h hq hs
  rw [hn, depth_obj_le_iff, entries]
  refine List.forall_mem_append.2 ⟨List.forall_mem_append.2 ⟨?_, ?_⟩, hheld.settle hfields⟩
  · cases p.kind.join <;> simp [depth]
  · cases p.state.join <;> simp [depth]

/-- The part of a document that was read so far, at most that deep. -/
structure Document.Partial.DepthLe (n : Nat) (p : Document.Partial) : Prop where
  held : p.held.DepthLe n
  functions : ∀ fs, p.functions = some (some fs) → (arr fs).depth ≤ n
  start : ∀ s, p.start = some (some s) → (obj s.entries).depth ≤ n
  states : ∀ ss, p.states = some ss → (arr (ss.map State.toJson)).depth ≤ n

theorem Document.Partial.DepthLe.step {n : Nat} {p p' : Document.Partial} {whole : Part}
    {key : String} (h : p.DepthLe n) (hpart : part.raw.depth ≤ n)
    (hs : Partial.step whole p key part = .ok p') : p'.DepthLe n := by
  rcases step_eq_ok_iff.1 hs with ⟨-, -, fs, hread, rfl⟩ | ⟨-, -, s, hread, rfl⟩ |
    ⟨-, -, ss, hread, rfl⟩ | ⟨-, held, hadd, rfl⟩
  · refine ⟨h.held, fun fs' hfs => ?_, h.start, h.states⟩
    obtain rfl := Option.some.inj hfs
    exact Nat.le_trans (Part.list_json_eq_ok (Part.optional_eq_ok hread)).2 hpart
  · refine ⟨h.held, h.functions, fun s' hs => ?_, h.states⟩
    obtain rfl := Option.some.inj hs
    exact Nat.le_trans (Start.depth_of_read (Part.optional_eq_ok hread)) hpart
  · refine ⟨h.held, h.functions, h.start, fun ss' hss => ?_⟩
    obtain rfl := Option.some.inj hss
    exact Nat.le_trans (Part.depth_list (fun _ _ => State.depth_of_read) hread) hpart
  · exact ⟨h.held.add hpart hadd, h.functions, h.start, h.states⟩

namespace Document

/-- A document is no deeper than what it was read from, but for the list of states that every document
is written with. -/
theorem depth_of_read {d : Document} (hr : read part = .ok d) :
    d.toJson.depth ≤ max 2 part.raw.depth := by
  obtain ⟨p, hp, hr⟩ := Except.bind_eq_ok_iff.1 hr
  obtain ⟨extra, hextra, hr⟩ := Except.bind_eq_ok_iff.1 hr
  obtain rfl := Except.pure_eq_ok_iff.1 hr
  obtain ⟨n, hn, hread⟩ := Part.fields_induction (P := Document.Partial.DepthLe) hp
    (fun _ => ⟨nofun, nofun, nofun, nofun⟩) fun _ _ _ _ _ hq h hs => h.step hq hs
  have hle : ∀ {v : Json}, v.depth ≤ n → v.depth ≤ max 1 n := fun h =>
    Nat.le_trans h (Nat.le_max_right 1 n)
  rw [hn, show max 2 (n + 1) = max 1 n + 1 from Nat.add_max_add_right 1 n 1, toJson,
    depth_obj_le_iff, entries]
  refine List.forall_mem_append.2 ⟨List.forall_mem_append.2 ⟨List.forall_mem_append.2
    ⟨fun e he => hle (hread.held.settle hextra e he), ?_⟩, ?_⟩, List.forall_mem_singleton.2 ?_⟩
  · cases hfs : p.functions.join with
    | none => exact List.forall_mem_nil _
    | some fs =>
      exact List.forall_mem_singleton.2 (hle (hread.functions fs (Option.join_eq_some_iff.1 hfs)))
  · cases hs : p.start.join with
    | none => exact List.forall_mem_nil _
    | some s =>
      exact List.forall_mem_singleton.2 (hle (hread.start s (Option.join_eq_some_iff.1 hs)))
  · cases hss : p.states with
    | none => exact Nat.le_max_left 1 n
    | some ss => exact hle (hread.states ss hss)

theorem depth_of_json {text : String} {d : Document} (h : ofJsonText text = .ok d) :
    d.toJson.depth ≤ depthLimit := by
  obtain ⟨part, hdepth, hr⟩ := readText_eq_ok h
  exact Nat.le_trans (depth_of_read hr) (Nat.max_le.2 ⟨by decide, hdepth⟩)

/-! ### Reading back -/

/-- A document that was read from a JSON text is written without repeating a key, at any depth, and
its text is read back as the same document; so writing it again gives the same text. The numbers of
the document have to be read back as they are written. -/
theorem ofJsonText_reads_back {text : String} {d : Document} (h : ofJsonText text = .ok d)
    (hnumbers : d.toJson.Legible) :
    d.toJson.Keyed ∧ ofJsonText d.jsonText = .ok d ∧
      (ofJsonText d.jsonText).map jsonText = .ok d.jsonText := by
  have hw := wellFormed_of_json h
  have hback := (ofJsonText_jsonText_iff hnumbers (depth_of_json h)).2 hw
  exact ⟨keyed_toJson hw, hback, by rw [hback]; rfl⟩

/-- A document with fields that mean nothing here, at every level. -/
def annotated : Document where
  extra := [("version", .num (.float ⟨false, 3 * 2 ^ 51, -52⟩)),
    ("meta", .obj [("b", .num (.float (.zero true))), ("a", .arr [.obj []])])]
  functions := none
  start := some ⟨some .scheduled, none, [("cron", .str "@daily"), ("note", .null)]⟩
  states := [⟨"a", "noop", [("x", .num (.float ⟨false, 1000 * 2 ^ 43, -43⟩))],
    some [⟨"E", none, [("code", .num (.int 7))]⟩]⟩]

/-- A text of this document that is not the one it is written as: it has another order of the fields,
null where a field is absent, a repeated key, and floats in other spellings. -/
def annotatedText : String :=
  "\x7b\"version\": 1.50, \"meta\": \x7b\"b\": 1, \"a\": [\x7b\x7d], \"b\": -0\x7d, \"functions\": null,
  \"start\": \x7b\"cron\": \"@daily\", \"note\": null, \"type\": \"scheduled\"\x7d,
  \"states\": [\x7b\"x\": 1e3, \"type\": \"noop\",
    \"catch\": [\x7b\"code\": 7, \"transition\": null, \"error\": \"E\"\x7d], \"id\": \"a\"\x7d]\x7d"

theorem annotated_reads_back :
    (ofJsonText annotatedText = .ok annotated ∧ annotated.toJson.Legible) ∧
    annotated.toJson.Keyed ∧ ofJsonText annotated.jsonText = .ok annotated ∧
      (ofJsonText annotated.jsonText).map jsonText = .ok annotated.jsonText :=
  have hread : ofJsonText annotatedText = .ok annotated := by decide +kernel
  have hnumbers : annotated.toJson.Legible := by decide +kernel
  ⟨⟨hread, hnumbers⟩, ofJsonText_reads_back hread hnumbers⟩

end Document

end Workflow
