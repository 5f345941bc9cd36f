import Workflow.Proofs.Json.Alter

/-!
# Transforms that were decoded and encoded

A transform value keeps its meaning in the editor, but not every value comes back as it was: a blank
one is removed, and a script loses the blanks behind its closing mark (`Transform.normal`). Any
other value comes back as it was, as long as the YAML text of a structured one reads back.
-/

namespace Workflow

namespace Shape

/-- What a shape tells of the value that has it. -/
inductive Tells : Json → Shape → Prop
  | empty {v : Json} (hb : v.isBlank = true) : Tells v .empty
  | script {text body : String} (hne : text.isEmpty = false)
      (hbody : Script.unwrap? text = some body) : Tells (.str text) (.script body)
  | query {text : String} (hne : text.isEmpty = false) (hnone : Script.unwrap? text = none) :
      Tells (.str text) (.query text)
  | structured {v : Json} (hb : v.isBlank = false) (hstr : ∀ text, v ≠ .str text) :
      Tells v (.structured v)
  | flat {fields : Fields} (hne : fields.isEmpty = false) : Tells (.obj fields) (.flat fields)

theorem tells_of (v : Json) : Tells v (of v) := by
  cases v with
  | null => exact .empty rfl
  | bool b => exact .structured rfl fun _ h => by cases h
  | num n => exact .structured rfl fun _ h => by cases h
  | arr items => exact .structured rfl fun _ h => by cases h
  | str text =>
    cases hne : text.isEmpty with
    | true => exact (of_eq_empty_iff (.str text)).2 hne ▸ .empty hne
    | false =>
      simp only [of, hne, Bool.false_eq_true, if_false]
      cases hbody : Script.unwrap? text with
      | some body => exact .script hne hbody
      | none => exact .query hne hbody
  | obj fields =>
    cases hne : fields.isEmpty with
    | true => exact (of_eq_empty_iff (.obj fields)).2 hne ▸ .empty hne
    | false =>
      simp only [of, hne, Bool.false_eq_true, if_false]
      split
      · exact .structured hne fun _ h => by cases h
      · exact .flat hne

end Shape

namespace Transform

/-- What a transform value becomes when it is decoded and encoded again. -/
def normal (v : Json) : Option Json :=
  if v.isBlank then none
  else match v with
    | .str text =>
      some (.str (if Script.isWrapped text then String.ofList (Text.trimEnd text.toList) else text))
    | v => some v

theorem normal_eq_none_iff {v : Json} : normal v = none ↔ v.isBlank = true := by
  unfold normal
  split
  next hb => simp [hb]
  next hb => cases v <;> simp [hb]

theorem normal_of_not_str {v : Json} (hb : v.isBlank = false) (h : ∀ text, v ≠ .str text) :
    normal v = some v := by
  unfold normal
  rw [if_neg (by simp [hb])]
  cases v with
  | str text => exact absurd rfl (h text)
  | _ => rfl

theorem keyed_normal {v w : Json} (hv : v.Keyed) (h : normal v = some w) : w.Keyed := by
  unfold normal at h
  split at h
  · cases h
  · cases v <;> cases h <;> trivial

/-- What the editor shows for a value repeats no key. -/
theorem keyed_decodeValue {v w : Json} (hv : v.Keyed) (h : decodeValue v = some w) : w.Keyed := by
  obtain ⟨s, hs, rfl⟩ := Option.map_eq_some_iff.1 h
  have hrecord : ∀ s : Selection, s.content.Keyed → s.toJson.Keyed := by
    intro s hcontent
    have htag : ∀ e : Encoding, Selection.tag ≠ e.field := by
      intro e
      cases e <;> decide
    exact ⟨fun hmem => htag _ (List.mem_singleton.1 hmem), trivial, List.not_mem_nil, hcontent,
      trivial⟩
  refine hrecord s ?_
  unfold decode at hs
  have htells := Shape.tells_of v
  cases hshape : Shape.of v with
  | empty =>
    rw [hshape] at hs
    cases hs
  | flat fields =>
    rw [hshape] at hs htells
    cases hs
    cases htells
    exact hv
  | _ =>
    rw [hshape] at hs
    cases hs
    trivial

/-- A value that is shown as YAML text is read back from it. -/
def ReadsBack (v : Json) : Prop :=
  ∀ w, Shape.of v = .structured w → yamlValue (Yaml.print w) = .ok w

theorem eq_of_beforeEnd? {ending text body : List Char}
    (h : Script.beforeEnd? ending text = some body) : text = body ++ ending := by
  unfold Script.beforeEnd? at h
  split at h
  next hsuffix =>
    obtain ⟨start, rfl⟩ := List.isSuffixOf_iff_suffix.1 hsuffix
    simpa using h
  next => cases h

theorem eq_of_afterStart? {start text rest : List Char}
    (h : Script.afterStart? start text = some rest) : text = start ++ rest := by
  unfold Script.afterStart? at h
  split at h
  next hprefix =>
    obtain ⟨ending, rfl⟩ := List.isPrefixOf_iff_prefix.1 hprefix
    simpa using h
  next => cases h

/-- A script between its marks is the text without the blanks at its end. -/
theorem wrapChars_of_unwrapChars? {text body : List Char}
    (h : Script.unwrapChars? text = some body) : Script.wrapChars body = Text.trimEnd text := by
  obtain ⟨rest, hrest, hbody⟩ := Option.bind_eq_some_iff.1 h
  rw [eq_of_afterStart? hrest, eq_of_beforeEnd? hbody, Script.wrapChars, List.append_assoc]

theorem wrap_of_unwrap? {text body : String} (h : Script.unwrap? text = some body) :
    Script.wrap body = String.ofList (Text.trimEnd text.toList) := by
  obtain ⟨chars, hchars, rfl⟩ := Option.map_eq_some_iff.1 h
  rw [Script.wrap, String.toList_ofList, wrapChars_of_unwrapChars? hchars]

theorem isEmpty_wrap (body : String) : (Script.wrap body).isEmpty = false := by
  rw [Script.wrap, Script.wrapChars]
  simp [Script.opening, ← String.toList_inj]

theorem isWrapped_eq (text : String) : Script.isWrapped text = (Script.unwrap? text).isSome := by
  rw [Script.isWrapped, Script.unwrap?, Option.isSome_map]

theorem encodeValue_toJson (s : Selection) : encodeValue s.toJson = encode s := by
  have h := Selection.ofJson_toJson s
  unfold encodeValue
  split
  next hnull => cases hnull
  next => rw [h]

/-- A selection with a value that is not blank is encoded as this value. -/
theorem encode_of_rawValue {s : Selection} {v : Json} (h : rawValue s = .ok v)
    (hb : v.isBlank = false) : encode s = .ok (some v) := by
  simp only [encode, h, bind, Except.bind, hb, pure, Except.pure]
  rfl

/-- A script is encoded as its text without the blanks behind the closing mark. -/
theorem encode_script {text body : String} (hne : text.isEmpty = false)
    (hbody : Script.unwrap? text = some body) :
    encode (.script body) = .ok (normal (.str text)) := by
  have hb : (Json.str (Script.wrap body)).isBlank = false := isEmpty_wrap body
  have hwrapped : Script.isWrapped text = true := by rw [isWrapped_eq, hbody]; rfl
  rw [encode_of_rawValue (s := .script body) rfl hb, normal, Json.isBlank, if_neg (by simp [hne]),
    wrap_of_unwrap? hbody]
  simp only [hwrapped, if_true]

/-- Any other string is encoded as it is. -/
theorem encode_query {text : String} (hne : text.isEmpty = false)
    (hnone : Script.unwrap? text = none) : encode (.query text) = .ok (normal (.str text)) := by
  have hwrapped : Script.isWrapped text = false := by rw [isWrapped_eq, hnone]; rfl
  rw [encode_of_rawValue (s := .query text) rfl hne, normal, Json.isBlank, if_neg (by simp [hne])]
  simp [hwrapped]

/-- Encoding what a value was decoded to gives its normal form. -/
theorem encode_of_decode {v : Json} {s : Selection} (hs : decode v = some s) (hr : ReadsBack v) :
    encode s = .ok (normal v) := by
  unfold decode at hs
  have htells := Shape.tells_of v
  cases hshape : Shape.of v with
  | empty =>
    rw [hshape] at hs
    cases hs
  | structured u =>
    rw [hshape] at hs htells
    cases hs
    cases htells with
    | structured hb hstr =>
      have hraw : rawValue (.yaml (Yaml.print v)) = .ok v := hr v hshape
      rw [encode_of_rawValue hraw hb, normal_of_not_str hb hstr]
  | script body =>
    rw [hshape] at hs htells
    cases hs
    cases htells with
    | script hne hbody => exact encode_script hne hbody
  | flat fields =>
    rw [hshape] at hs htells
    cases hs
    cases htells with
    | flat hne =>
      have hb : (Json.obj fields).isBlank = false := hne
      have hstr : ∀ text, Json.obj fields ≠ .str text := fun text he => by cases he
      rw [encode_of_rawValue (s := .keyValue fields) rfl hb, normal_of_not_str hb hstr]
  | query text =>
    rw [hshape] at hs htells
    cases hs
    cases htells with
    | query hne hnone => exact encode_query hne hnone

theorem encodeValue_of_decodeValue {v w : Json} (h : decodeValue v = some w) (hr : ReadsBack v) :
    encodeValue w = .ok (normal v) := by
  obtain ⟨s, hs, rfl⟩ := Option.map_eq_some_iff.1 h
  rw [encodeValue_toJson, encode_of_decode hs hr]

theorem normal_of_decodeValue_eq_none {v : Json} (h : decodeValue v = none) : normal v = none := by
  have hs := Option.map_eq_none_iff.1 h
  unfold decode at hs
  cases hshape : Shape.of v with
  | empty => exact normal_eq_none_iff.2 ((Shape.of_eq_empty_iff v).1 hshape)
  | _ =>
    rw [hshape] at hs
    cases hs

/-! ### Normal forms again -/

theorem dropEnd_dropEnd (p : Char → Bool) (text : List Char) :
    Text.dropEnd p (Text.dropEnd p text) = Text.dropEnd p text := by
  induction text with
  | nil => rfl
  | cons c rest ih =>
    rw [Text.dropEnd]
    cases hkept : Text.dropEnd p rest with
    | nil => by_cases hc : p c = true <;> simp [hc, Text.dropEnd]
    | cons d kept =>
      rw [hkept] at ih
      show Text.dropEnd p (c :: d :: kept) = c :: d :: kept
      rw [Text.dropEnd, ih]

/-- A text without the blanks at its end is the same script. -/
theorem unwrap?_trimEnd (text : String) :
    Script.unwrap? (String.ofList (Text.trimEnd text.toList)) = Script.unwrap? text := by
  rw [Script.unwrap?, Script.unwrap?, String.toList_ofList, Script.unwrapChars?,
    Script.unwrapChars?, Text.trimEnd, Text.trimEnd, dropEnd_dropEnd]

/-- A value in normal form has the shape that it had before. -/
theorem shape_of_normal {v w : Json} (h : normal v = some w) :
    w = v ∨ ∃ body, Shape.of v = .script body ∧ Shape.of w = .script body := by
  unfold normal at h
  split at h
  next => cases h
  next hb =>
    cases v with
    | str text =>
      cases h
      split
      next hwrapped =>
        rw [isWrapped_eq] at hwrapped
        obtain ⟨body, hbody⟩ := Option.isSome_iff_exists.1 hwrapped
        have hne : (String.ofList (Text.trimEnd text.toList)).isEmpty = false := by
          rw [← wrap_of_unwrap? hbody, isEmpty_wrap]
        refine .inr ⟨body, ?_, ?_⟩
        · simp only [Shape.of, if_neg (show ¬text.isEmpty = true from hb), hbody]
        · simp [Shape.of, hne, unwrap?_trimEnd, hbody]
      next => exact .inl rfl
    | _ =>
      cases h
      exact .inl rfl

/-- The editor shows a value and its normal form alike. -/
theorem decode_of_normal {v w : Json} (h : normal v = some w) : decode w = decode v := by
  rcases shape_of_normal h with rfl | ⟨body, hv, hw⟩
  · rfl
  · rw [decode, decode, hv, hw]

theorem bind_decodeValue_normal (v : Json) : (normal v).bind decodeValue = decodeValue v := by
  cases hw : normal v with
  | none =>
    rw [decodeValue, decode, (Shape.of_eq_empty_iff v).2 (normal_eq_none_iff.1 hw)]
    rfl
  | some w => rw [Option.bind_some, decodeValue, decodeValue, decode_of_normal hw]

end Transform

namespace Fields

open Transform

variable {fields : Fields} {key : String}

theorem puts_decodeAt (h : fields.keys.Nodup) (key : String) :
    fields.Puts key ((fields.get? key).bind decodeValue) (fields.decodeAt key) := by
  unfold decodeAt
  cases hv : fields.get? key with
  | none =>
    exact puts_self h hv
  | some v => exact puts_assign h key (decodeValue v)

/-- A transform that was decoded is encoded to its normal form. -/
theorem encodeAt_eq_ok (h : fields.keys.Nodup) {v? : Option Json}
    (hget : fields.get? key = v?.bind decodeValue) (hr : ∀ v, v? = some v → ReadsBack v)
    (path : String) :
    ∃ result, fields.encodeAt key path = .ok result ∧
      fields.Puts key (v?.bind normal) result := by
  unfold encodeAt
  cases v? with
  | none =>
    rw [Option.bind_none] at hget ⊢
    rw [hget]
    exact ⟨fields, rfl, puts_self h hget⟩
  | some v =>
    rw [Option.bind_some] at hget ⊢
    cases hw : decodeValue v with
    | none =>
      rw [hw] at hget
      rw [hget, normal_of_decodeValue_eq_none hw]
      exact ⟨fields, rfl, puts_self h hget⟩
    | some w =>
      rw [hw] at hget
      rw [hget]
      simp only [encodeValue_of_decodeValue hw (hr v rfl)]
      exact ⟨_, rfl, puts_assign h key (normal v)⟩

end Fields

end Workflow
