import Workflow.Proofs.Document.WellFormed
import Workflow.Proofs.NodeType.Settled

/-!
# Keys that a form hands on

Taking names out of a form, writing others and encoding its transforms never repeats a key, and it
neither adds nor removes a key other than those of its names and its transforms: `Fields.Keeps` says
so of each step and of all of them together (`FormRule.keeps_ofForm`, `TransitionRule.keeps_strip`,
`TransitionRule.keeps_writeAll`).
-/

namespace Workflow

open Json

/-! ### Transforms -/

namespace Transform

theorem keyed_of_ofContent {e : Encoding} {v : Json} {s : Selection} (hv : v.Keyed)
    (h : Selection.ofContent e v = .ok s) : s.content.Keyed := by
  cases e with
  | keyValue =>
    obtain ⟨fields, hfields, rfl⟩ := Except.map_eq_ok_iff.1 h
    cases v with
    | obj record =>
      cases hfields
      exact hv
    | _ => cases hfields
  | _ =>
    obtain ⟨text, -, rfl⟩ := Except.map_eq_ok_iff.1 h
    trivial

theorem keyed_of_ofJson {v : Json} {s : Selection} (hv : v.Keyed)
    (h : Selection.ofJson v = .ok s) : s.content.Keyed := by
  unfold Selection.ofJson at h
  split at h
  next fields =>
    have hv : KeyedFields fields := hv
    split at h
    next => cases h
    next =>
      obtain ⟨e, -, h⟩ := Except.bind_eq_ok_iff.1 h
      split at h
      next => cases h
      next content hcontent => exact keyed_of_ofContent (hv.of_get? hcontent) h
  next => cases h
  next name rest =>
    have hv : KeyedItems (name :: rest) := hv
    obtain ⟨e, -, h⟩ := Except.bind_eq_ok_iff.1 h
    split at h
    next => cases h
    next content others =>
      obtain ⟨s', hs, h⟩ := Except.bind_eq_ok_iff.1 h
      split at h
      next =>
        cases h
        exact keyed_of_ofContent hv.2.1 hs
      next => cases h
  next => cases h

theorem keyed_yaml {text : String} {v : Json} (h : Yaml.toJson? text = some v) : v.Keyed := by
  have hread : Yaml.readText Source.json text = .ok v := by
    unfold Yaml.toJson? at h
    cases hr : Yaml.readText Source.json text with
    | error c =>
      rw [hr] at h
      cases h
    | ok w =>
      rw [hr] at h
      cases h
      rfl
  unfold Yaml.readText at hread
  split at hread
  next => cases hread
  next =>
    simp only at hread
    split at hread
    next w hw =>
      cases hread
      exact KeyedSource.json _ _ hw
    next => split at hread <;> cases hread

/-- What a selection stands for repeats no key. -/
theorem keyed_encodeValue {v w : Json} (hv : v.Keyed) (h : encodeValue v = .ok (some w)) :
    w.Keyed := by
  unfold encodeValue at h
  split at h
  next => cases h
  next =>
    split at h
    next s hs =>
      have hcontent := keyed_of_ofJson hv hs
      obtain ⟨u, hu, h⟩ := Except.bind_eq_ok_iff.1 h
      have hu : u.Keyed := by
        cases s with
        | query text => cases hu; trivial
        | keyValue fields => cases hu; exact hcontent
        | script body => cases hu; trivial
        | yaml text =>
          have hu : yamlValue text = .ok u := hu
          unfold yamlValue at hu
          split at hu
          next => cases hu; trivial
          next =>
            split at hu
            next v hv => cases hu; exact keyed_yaml hv
            next => cases hu
      split at h
      next => cases h
      next =>
        cases h
        exact hu
    next => cases h

end Transform

/-! ### Steps that keep keys -/

/-- A step from fields to others repeats no key, and it has the given keys where they were. -/
structure Fields.Keeps (keys : List String) (fields result : Fields) : Prop where
  keyed : KeyedFields fields → KeyedFields result
  mem_keys_iff : ∀ k ∈ keys, k ∈ result.keys ↔ k ∈ fields.keys

namespace Fields

variable {keys : List String} {fields mid result : Fields}

theorem mem_keys_iff_get? {key : String} : key ∈ fields.keys ↔ fields.get? key ≠ none := by
  rw [ne_eq, get?_eq_none_iff, not_not]

theorem keeps_refl (keys : List String) (fields : Fields) : fields.Keeps keys fields :=
  ⟨fun h => h, fun _ _ => Iff.rfl⟩

theorem Keeps.trans (h : fields.Keeps keys mid) (h' : mid.Keeps keys result) :
    fields.Keeps keys result :=
  ⟨fun hk => h'.keyed (h.keyed hk), fun k hk => (h'.mem_keys_iff k hk).trans (h.mem_keys_iff k hk)⟩

theorem keeps_insert {key : String} {v : Json} (hv : KeyedFields fields → v.Keyed)
    (h : key ∈ keys → key ∈ fields.keys) : fields.Keeps keys (fields.insert key v) where
  keyed hk := hk.insert key (hv hk)
  mem_keys_iff k hk := by
    rw [mem_keys_insert]
    refine ⟨fun hmem => hmem.elim (fun he => he ▸ h (he ▸ hk)) fun hmem => hmem, .inr⟩

theorem keeps_erase {key : String} (h : key ∉ keys) : fields.Keeps keys (fields.erase key) where
  keyed hk := hk.erase key
  mem_keys_iff k hk := by
    have hne : k ≠ key := fun he => h (he ▸ hk)
    rw [mem_keys_iff_get?, mem_keys_iff_get?, get?_erase_of_ne fields hne]

/-- A step under a key of its own, from keyed values to keyed values. -/
theorem keeps_of_alterM {ε : Type} {f : Json → Except ε (Option Json)} {key : String}
    (hf : ∀ v w, v.Keyed → f v = .ok (some w) → w.Keyed) (hkey : key ∉ keys)
    (h : fields.alterM f key = .ok result) : fields.Keeps keys result := by
  unfold alterM at h
  split at h
  next =>
    cases h
    exact keeps_refl keys fields
  next v hv =>
    obtain ⟨w?, hw, rfl⟩ := Except.map_eq_ok_iff.1 h
    cases w? with
    | none => exact keeps_erase hkey
    | some w => exact keeps_insert (fun hk => hf v w (hk.of_get? hv) hw) fun hmem => absurd hmem hkey

end Fields

/-! ### Forms -/

theorem Fields.keyed_of_encodedAt {path : String} {v w : Json} (hv : v.Keyed)
    (h : encodedAt path v = .ok (some w)) : w.Keyed := by
  unfold encodedAt at h
  split at h
  next v? hv? =>
    cases h
    exact Transform.keyed_encodeValue hv hv?
  next => cases h

theorem Fields.keyed_of_encodeAt {record result : Fields} {key path : String}
    (hk : KeyedFields record) (h : record.encodeAt key path = .ok result) :
    KeyedFields result := by
  rw [encodeAt_eq_alterM] at h
  have hkeeps : Keeps [] record result :=
    keeps_of_alterM (fun _ _ => keyed_of_encodedAt) List.not_mem_nil h
  exact hkeeps.keyed hk

namespace TransformPlace

theorem keyed_of_eachRecord {ε : Type} {change : Nat → Fields → Except ε Fields}
    (hchange : ∀ i record result, KeyedFields record → change i record = .ok result →
      KeyedFields result) {index : Nat} {items result : List Json} (hk : KeyedItems items)
    (h : eachRecord change index items = .ok result) : KeyedItems result := by
  induction items generalizing index result with
  | nil =>
    cases h
    trivial
  | cons v rest ih =>
    cases v with
    | obj record =>
      obtain ⟨record', hrecord, h⟩ := Except.bind_eq_ok_iff.1 h
      obtain ⟨rest', hrest, h⟩ := Except.bind_eq_ok_iff.1 h
      cases h
      exact ⟨hchange _ _ _ hk.1 hrecord, ih hk.2 hrest⟩
    | _ =>
      obtain ⟨rest', hrest, h⟩ := Except.bind_eq_ok_iff.1 h
      cases h
      exact ⟨hk.1, ih hk.2 hrest⟩

theorem keyed_of_encoded {id : String} {p : TransformPlace} {v w : Json} (hv : v.Keyed)
    (h : p.encoded id v = .ok (some w)) : w.Keyed := by
  unfold encoded at h
  split at h
  next => exact Fields.keyed_of_encodedAt hv h
  next record =>
    obtain ⟨result, hresult, h⟩ := Except.bind_eq_ok_iff.1 h
    cases h
    exact Fields.keyed_of_encodeAt hv hresult
  next items =>
    obtain ⟨result, hresult, h⟩ := Except.bind_eq_ok_iff.1 h
    cases h
    exact keyed_of_eachRecord (fun _ _ _ => Fields.keyed_of_encodeAt) hv hresult
  next =>
    cases h
    exact hv

end TransformPlace

/-- Encoding the transforms of a form keeps the keys that hold no transform. -/
theorem FormRule.keeps_ofForm {r : FormRule} {keys : List String} {id : String}
    {form fields : Fields} (hkeys : ∀ p ∈ r.places, p.outer ∉ keys)
    (h : r.ofForm id form = .ok fields) : form.Keeps keys fields := by
  rw [ofForm_eq_alterM] at h
  generalize r.places = places at hkeys h
  induction places generalizing form with
  | nil =>
    cases h
    exact Fields.keeps_refl keys _
  | cons p rest ih =>
    obtain ⟨mid, hmid, h⟩ := Except.bind_eq_ok_iff.1 h
    have hstep : form.Keeps keys mid := Fields.keeps_of_alterM
      (fun _ _ => TransformPlace.keyed_of_encoded) (hkeys p List.mem_cons_self) hmid
    exact hstep.trans (ih (fun q hq => hkeys q (List.mem_cons_of_mem _ hq)) h)

/-! ### Names -/

namespace TransitionRule

variable {keys : List String}

/-- Taking names out of fields keeps the keys that are not those of names. -/
theorem keeps_strip (r : TransitionRule) (hkeys : ∀ k ∈ r.fixedKeys, k ∉ keys)
    (fields : Fields) : fields.Keeps keys (r.strip fields) where
  keyed := keyed_strip r
  mem_keys_iff k hk := by
    rw [Fields.mem_keys_iff_get?, Fields.mem_keys_iff_get?]
    by_cases hlist : r.list? = some k
    · rw [get?_strip_list hlist, ne_eq, Option.map_eq_none_iff]
    · rw [get?_strip_of_not_mem]
      rw [mem_ownKeys_iff, not_or]
      exact ⟨fun hmem => hkeys k hmem hk, hlist⟩

/-- Writing a name keeps the keys that are not those of names. -/
theorem keeps_write {s : TransitionSlot} {fields result : Fields} {name : String}
    (hkeys : ∀ k, s.key? = some k → k ∉ keys) (h : s.write fields name = some result) :
    fields.Keeps keys result := by
  cases hkey : s.key? with
  | some key =>
    rw [TransitionSlot.write_of_key hkey] at h
    cases h
    exact Fields.keeps_insert (fun _ => trivial) fun hmem => absurd hmem (hkeys key hkey)
  | none =>
    cases s with
    | branch list index =>
      obtain ⟨items, entry, hget, hentry, rfl⟩ := TransitionSlot.write_branch_eq_some_iff.1 h
      refine Fields.keeps_insert (fun hk => ?_) fun _ => ?_
      · have hitems := keyedItems_iff.1 (hk.of_get? hget : KeyedItems items)
        have hrecord : KeyedFields entry := hitems _ (List.mem_of_getElem? hentry)
        refine keyedItems_iff.2 fun v hv => ?_
        rcases List.mem_or_eq_of_mem_set hv with hv | rfl
        · exact hitems v hv
        · exact hrecord.insert _ trivial
      · rw [Fields.mem_keys_iff_get?, hget]
        exact nofun
    | error => cases h
    | _ => cases hkey

theorem keeps_writeAll {names : List (TransitionSlot × String)} {fields result : Fields}
    (hkeys : ∀ w ∈ names, ∀ k, w.1.key? = some k → k ∉ keys)
    (h : Compile.writeAll fields names = some result) : fields.Keeps keys result := by
  induction names generalizing fields with
  | nil =>
    cases h
    exact Fields.keeps_refl keys _
  | cons w rest ih =>
    obtain ⟨mid, hmid, h⟩ := Option.bind_eq_some_iff.1 h
    exact (keeps_write (hkeys w List.mem_cons_self) hmid).trans
      (ih (fun w hw => hkeys w (List.mem_cons_of_mem _ hw)) h)

end TransitionRule

end Workflow
