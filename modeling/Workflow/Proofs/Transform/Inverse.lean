import Workflow.Proofs.Json.Depth
import Workflow.Proofs.Transform.Normal
import Workflow.Proofs.Yaml.Visible

/-!
# Decoding and encoding undo each other

Decoding goes by the shape of a value, encoding by the encoding of a selection alone. Encoding takes
back what decoding did (`Transform.encode_decode`): only the blanks behind the closing mark of a
script are lost, and a second round changes nothing more. In the other direction the encodings
overlap: a query may be a script, YAML text may hold a string or a flat record, and one value has
many YAML texts. `Selection.IsCanonical` says which selections come back as they were
(`Transform.decode_encode`).
-/

namespace Workflow

/-! ### Scripts between their marks -/

theorem Text.trimEnd_concat {c : Char} (h : Text.isBlank c = false) (text : List Char) :
    Text.trimEnd (text ++ [c]) = text ++ [c] := by
  rw [Text.trimEnd]
  induction text with
  | nil => simp [Text.dropEnd, h]
  | cons d rest ih =>
    rw [List.cons_append, Text.dropEnd, ih]
    cases rest <;> rfl

namespace Script

/-- A text without the blanks at its end. -/
def trimmed (text : String) : String := String.ofList (Text.trimEnd text.toList)

/-- The text is a script between its marks, up to the blanks at its end. -/
def IsScript (text : String) : Prop := ∃ body, trimmed text = wrap body

/-- The closing mark is no blank, so trimming stops at it, whatever stands in front. -/
theorem trimEnd_wrapChars (body : List Char) : Text.trimEnd (wrapChars body) = wrapChars body :=
  Text.trimEnd_concat (by decide) _

theorem trimmed_wrap (body : String) : trimmed (wrap body) = wrap body := by
  rw [trimmed, wrap, String.toList_ofList, trimEnd_wrapChars]

theorem beforeEnd?_append (body ending : List Char) :
    beforeEnd? ending (body ++ ending) = some body := by
  simp [beforeEnd?]

theorem afterStart?_append (start rest : List Char) :
    afterStart? start (start ++ rest) = some rest := by
  simp [afterStart?]

/-- Whatever the body of a script holds, it is what stands between the marks. -/
theorem unwrap?_wrap (body : String) : unwrap? (wrap body) = some body := by
  rw [unwrap?, wrap, String.toList_ofList, unwrapChars?, trimEnd_wrapChars, wrapChars,
    List.append_assoc, afterStart?_append, Option.bind_some, beforeEnd?_append, Option.map_some,
    String.ofList_toList]

theorem unwrap?_eq_some_iff {text body : String} :
    unwrap? text = some body ↔ trimmed text = wrap body := by
  constructor
  · exact fun h => (Transform.wrap_of_unwrap? h).symm
  · intro h
    rw [← Transform.unwrap?_trimEnd text]
    exact (congrArg unwrap? h).trans (unwrap?_wrap body)

theorem unwrap?_eq_none_iff {text : String} : unwrap? text = none ↔ ¬IsScript text := by
  rw [Option.eq_none_iff_forall_ne_some, IsScript, not_exists]
  exact forall_congr' fun body => not_congr unwrap?_eq_some_iff

theorem isWrapped_iff {text : String} : isWrapped text = true ↔ IsScript text := by
  rw [Transform.isWrapped_eq, Option.isSome_iff_ne_none, Ne, unwrap?_eq_none_iff, not_not]

instance (text : String) : Decidable (IsScript text) :=
  decidable_of_iff (isWrapped text = true) isWrapped_iff

end Script

/-! ### What the shapes of values are -/

namespace Json

/-- A value that is neither an array nor a record. -/
def IsScalar : Json → Prop
  | arr _ | obj _ => False
  | _ => True

/-- A number, a boolean, an array, or a record with a container in it. -/
def IsStructured : Json → Prop
  | num _ | bool _ | arr _ => True
  | obj fields => 1 < (obj fields).depth
  | null | str _ => False

instance : DecidablePred IsScalar
  | arr _ | obj _ => isFalse id
  | null | bool _ | num _ | str _ => isTrue trivial

instance : DecidablePred IsStructured
  | num _ | bool _ | arr _ => isTrue trivial
  | obj fields => inferInstanceAs (Decidable (1 < (obj fields).depth))
  | null | str _ => isFalse id

theorem depth_le_zero_iff {v : Json} : v.depth ≤ 0 ↔ v.IsScalar := by
  cases v <;> simp [depth, IsScalar]

/-- A record is flat when its values are scalars. -/
theorem depth_obj_le_one_iff {fields : Fields} :
    (obj fields).depth ≤ 1 ↔ ∀ e ∈ fields, e.2.IsScalar := by
  rw [depth_obj_le_iff]
  exact forall₂_congr fun _ _ => depth_le_zero_iff

theorem isBlank_iff {v : Json} : v.isBlank = true ↔ v = .null ∨ v = .str "" ∨ v = .obj [] := by
  cases v <;> simp [isBlank]

theorem IsStructured.not_str {v : Json} (h : v.IsStructured) (text : String) : v ≠ .str text := by
  rintro rfl
  exact h

end Json

namespace Shape

open Script

theorem of_eq_script_iff {v : Json} {body : String} :
    of v = .script body ↔ ∃ text, v = .str text ∧ trimmed text = wrap body := by
  constructor
  · intro h
    cases h ▸ tells_of v with
    | script _ hbody => exact ⟨_, rfl, unwrap?_eq_some_iff.1 hbody⟩
  · rintro ⟨text, rfl, htext⟩
    have hne : text.isEmpty = false := by
      cases hempty : text.isEmpty with
      | false => rfl
      | true =>
        rw [String.isEmpty_iff.1 hempty] at htext
        exact absurd (htext ▸ Transform.isEmpty_wrap body) (by decide)
    simp [of, hne, unwrap?_eq_some_iff.2 htext]

theorem of_eq_query_iff {v : Json} {text : String} :
    of v = .query text ↔ v = .str text ∧ text ≠ "" ∧ ¬IsScript text := by
  constructor
  · intro h
    cases h ▸ tells_of v with
    | query hne hnone =>
      exact ⟨rfl, fun he => by simp [he] at hne, unwrap?_eq_none_iff.1 hnone⟩
  · rintro ⟨rfl, hne, hscript⟩
    simp [of, hne, unwrap?_eq_none_iff.2 hscript]

theorem of_eq_flat_iff {v : Json} {fields : Fields} :
    of v = .flat fields ↔ v = .obj fields ∧ fields ≠ [] ∧ ∀ e ∈ fields, e.2.IsScalar := by
  rw [← Json.depth_obj_le_one_iff]
  cases v with
  | obj fields' => cases fields' <;> grind [of]
  | str text => grind [of]
  | _ => simp [of]

theorem of_eq_structured_iff {v w : Json} :
    of v = .structured w ↔ w = v ∧ v.IsStructured := by
  cases v with
  | obj fields => cases fields <;> grind [of, Json.IsStructured, Json.depth, Json.depthFields]
  | str text => grind [of, Json.IsStructured]
  | _ => simp [of, Json.IsStructured, eq_comm]

end Shape

/-! ### What is decoded and what is encoded -/

/-- Which selections come back from the value `v` as which they are encoded: every script, a query
that is no script itself, a record of scalars, and the text that is printed for a structured
value. -/
def Selection.IsCanonical (s : Selection) (v : Json) : Prop :=
  match s with
  | .script _ => True
  | .query text => ¬Script.IsScript text
  | .keyValue fields => ∀ e ∈ fields, e.2.IsScalar
  | .yaml text => text = Yaml.print v ∧ v.IsStructured

instance (s : Selection) (v : Json) : Decidable (s.IsCanonical v) :=
  match s with
  | .script _ => isTrue trivial
  | .query text => inferInstanceAs (Decidable (¬Script.IsScript text))
  | .keyValue fields => inferInstanceAs (Decidable (∀ e ∈ fields, e.2.IsScalar))
  | .yaml text => inferInstanceAs (Decidable (text = Yaml.print v ∧ v.IsStructured))

namespace Transform

open Script

theorem decode_eq_script_iff {v : Json} {body : String} :
    decode v = some (.script body) ↔ ∃ text, v = .str text ∧ trimmed text = wrap body := by
  rw [← Shape.of_eq_script_iff, decode]
  cases Shape.of v <;> simp

theorem decode_eq_query_iff {v : Json} {text : String} :
    decode v = some (.query text) ↔ v = .str text ∧ text ≠ "" ∧ ¬IsScript text := by
  rw [← Shape.of_eq_query_iff, decode]
  cases Shape.of v <;> simp

theorem decode_eq_keyValue_iff {v : Json} {fields : Fields} :
    decode v = some (.keyValue fields) ↔
      v = .obj fields ∧ fields ≠ [] ∧ ∀ e ∈ fields, e.2.IsScalar := by
  rw [← Shape.of_eq_flat_iff, decode]
  cases Shape.of v <;> simp

theorem decode_eq_yaml_iff {v : Json} {text : String} :
    decode v = some (.yaml text) ↔ text = Yaml.print v ∧ v.IsStructured := by
  have hshape : decode v = some (.yaml text) ↔
      ∃ w, Shape.of v = .structured w ∧ text = Yaml.print w := by
    rw [decode]
    cases Shape.of v <;> simp [eq_comm]
  rw [hshape]
  constructor
  · rintro ⟨w, hw, ht⟩
    obtain ⟨rfl, hv⟩ := Shape.of_eq_structured_iff.1 hw
    exact ⟨ht, hv⟩
  · rintro ⟨ht, hv⟩
    exact ⟨v, Shape.of_eq_structured_iff.2 ⟨rfl, hv⟩, ht⟩

theorem decode_eq_none_iff {v : Json} :
    decode v = none ↔ v = .null ∨ v = .str "" ∨ v = .obj [] := by
  rw [← Json.isBlank_iff, ← Shape.of_eq_empty_iff, decode]
  cases Shape.of v <;> simp

theorem encode_eq_some_iff {s : Selection} {v : Json} :
    encode s = .ok (some v) ↔ rawValue s = .ok v ∧ v.isBlank = false := by
  constructor
  · intro h
    unfold encode at h
    cases hraw : rawValue s with
    | error f =>
      rw [hraw] at h
      cases h
    | ok w =>
      rw [hraw] at h
      have hw : (if w.isBlank then none else some w) = some v := Except.ok.inj h
      split at hw
      next => cases hw
      next hblank =>
        cases hw
        exact ⟨rfl, by simpa using hblank⟩
  · exact fun ⟨hraw, hblank⟩ => encode_of_rawValue hraw hblank

theorem encode_wrap (body : String) : encode (.script body) = .ok (some (.str (wrap body))) :=
  encode_of_rawValue rfl (isEmpty_wrap body)

/-! ### Encoding takes back what decoding did -/

/-- What comes back of a value that is decoded and encoded: a script without the blanks behind its
closing mark, and any other value as it was. -/
structure Restores (v w : Json) : Prop where
  script : ∀ text, v = .str text → IsScript text → w = .str (trimmed text)
  other : (∀ text, v = .str text → ¬IsScript text) → w = v

theorem restores_of_normal {v w : Json} (h : normal v = some w) : Restores v w := by
  unfold normal at h
  split at h
  next => cases h
  next =>
    cases v with
    | str text =>
      cases h
      constructor
      · rintro _ ⟨⟩ hscript
        rw [if_pos (isWrapped_iff.2 hscript), trimmed]
      · intro hother
        rw [if_neg (mt isWrapped_iff.1 (hother text rfl))]
    | _ =>
      cases h
      constructor
      · intro text hv
        cases hv
      · exact fun _ => rfl

/-- The text of a structured value is not blank, so that it is read and not taken for no value. -/
theorem readsBack_of_toJson? {v : Json}
    (h : v.IsStructured → Yaml.toJson? (Yaml.print v) = some v) : ReadsBack v := by
  intro w hw
  obtain ⟨rfl, hv⟩ := Shape.of_eq_structured_iff.1 hw
  rw [yamlValue, (Yaml.print_visible hv.not_str).not_all_isBlank, h hv]
  rfl

/-- A value is decoded to nothing exactly when it is null, the empty string or the empty record. Any
other value is decoded to a selection that is encoded as a value, never as nothing: the value
itself, except that a script loses the blanks behind its closing mark. What comes back is decoded to
the same selection, so that a second round changes nothing. The values that are shown as YAML text
have to be read back from it. -/
theorem encode_decode (v : Json) (h : v.IsStructured → Yaml.toJson? (Yaml.print v) = some v) :
    (decode v = none ↔ v = .null ∨ v = .str "" ∨ v = .obj []) ∧
      (¬(v = .null ∨ v = .str "" ∨ v = .obj []) →
        ∃ s w, decode v = some s ∧ encode s = .ok (some w) ∧ Restores v w ∧
          decode w = some s) := by
  refine ⟨decode_eq_none_iff, fun hne => ?_⟩
  obtain ⟨s, hs⟩ := Option.ne_none_iff_exists'.1 (mt decode_eq_none_iff.1 hne)
  obtain ⟨w, hw⟩ := Option.ne_none_iff_exists'.1
    (mt normal_eq_none_iff.1 (mt Json.isBlank_iff.1 hne))
  have hencode : encode s = .ok (some w) :=
    (encode_of_decode hs (readsBack_of_toJson? h)).trans (congrArg Except.ok hw)
  exact ⟨s, w, hs, hencode, restores_of_normal hw, (decode_of_normal hw).trans hs⟩

/-- A record with a list and an empty record in it. -/
def nestedRecord : Json :=
  .obj [("steps", .arr [.str "js(x)", .null]), ("rest", .obj [])]

theorem encode_decode_nestedRecord :
    Yaml.toJson? (Yaml.print nestedRecord) = some nestedRecord ∧
      ∃ s w, decode nestedRecord = some s ∧ encode s = .ok (some w) ∧ Restores nestedRecord w ∧
        decode w = some s := by
  have hreads : Yaml.toJson? (Yaml.print nestedRecord) = some nestedRecord := by decide +kernel
  exact ⟨hreads, (encode_decode nestedRecord fun _ => hreads).2 (by decide)⟩

/-! ### Decoding takes back what encoding did -/

/-- A selection that is encoded as a value is what this value is decoded to exactly when it is a
script, a query that is no script itself, a record of scalars, or the YAML text of its value, which
is then a number, a boolean, an array or a record with a container in it. A script is always encoded
as a value. -/
theorem decode_encode :
    (∀ (s : Selection) (v : Json), encode s = .ok (some v) →
      (decode v = some s ↔ s.IsCanonical v)) ∧
      ∀ body, encode (.script body) = .ok (some (.str (wrap body))) := by
  refine ⟨fun s v h => ?_, encode_wrap⟩
  obtain ⟨hraw, hblank⟩ := encode_eq_some_iff.1 h
  cases s with
  | script body =>
    cases hraw
    exact iff_of_true (decode_eq_script_iff.2 ⟨_, rfl, trimmed_wrap body⟩) trivial
  | query text =>
    cases hraw
    have hne : text ≠ "" := by simpa [Json.isBlank] using hblank
    rw [decode_eq_query_iff]
    exact ⟨fun h => h.2.2, fun hscript => ⟨rfl, hne, hscript⟩⟩
  | keyValue fields =>
    cases hraw
    have hne : fields ≠ [] := by simpa [Json.isBlank] using hblank
    rw [decode_eq_keyValue_iff]
    exact ⟨fun h => h.2.2, fun hscalars => ⟨rfl, hne, hscalars⟩⟩
  | yaml text => exact decode_eq_yaml_iff

theorem decode_encode_texts :
    encode (.yaml "steps:\n- x\n") = .ok (some (.obj [("steps", .arr [.str "x"])])) ∧
      decode (.obj [("steps", .arr [.str "x"])]) = some (.yaml "steps:\n- x\n") ∧
      encode (.query "js(x) ") = .ok (some (.str "js(x) ")) ∧
      decode (.str "js(x) ") ≠ some (.query "js(x) ") := by
  have hyaml : encode (.yaml "steps:\n- x\n") = .ok (some (.obj [("steps", .arr [.str "x"])])) := by
    decide +kernel
  have hquery : encode (.query "js(x) ") = .ok (some (.str "js(x) ")) := by decide +kernel
  refine ⟨hyaml, (decode_encode.1 _ _ hyaml).2 (by decide +kernel), hquery, ?_⟩
  exact mt (decode_encode.1 _ _ hquery).1 (by decide +kernel)

end Transform

end Workflow
