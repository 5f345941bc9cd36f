import Workflow.Document.Text
import Workflow.Proofs.Json.Strings
import Workflow.Proofs.Script.Search

/-!
# Scripts that are put aside

`Document.stash` replaces the scripts in a value by placeholders with consecutive numbers and nothing
else: the scripts are the wrapped strings in their order (`stash_replaced`), the keys stay
(`stash_keys`), and writing every script for its placeholder gives the value back
(`stash_restored`). The number of a placeholder is read back from its text
(`scriptNumber?_toDigits`), so no two placeholders are the same.
-/

namespace Workflow.Document

open Script (isWrapped)

/-! ### Placeholders -/

theorem toList_placeholder (n : Nat) :
    (placeholder n).toList = placeholderStart ++ Nat.toDigits 10 n ++ placeholderEnd :=
  String.toList_ofList

theorem scriptNumber?_toDigits (n : Nat) : scriptNumber? (Nat.toDigits 10 n) = some n := by
  have hdigits : ∀ c ∈ Nat.toDigits 10 n, c.isDigit = true := fun c hc =>
    Nat.isDigit_of_mem_toDigits (by decide) (by decide) hc
  have hall : (Nat.toDigits 10 n).all Char.isDigit = true := List.all_eq_true.2 hdigits
  have hvalue : (Nat.toDigits 10 n).foldl (fun n c => 10 * n + (c.toNat - '0'.toNat)) 0 = n :=
    Nat.ofDigitChars_eq_foldl.symm.trans Nat.ofDigitChars_ten_toDigits
  unfold scriptNumber?
  split
  next rest hrest =>
    exact absurd (hdigits '+' (hrest ▸ List.mem_cons_self)) (by decide)
  next =>
    dsimp only
    rw [hall, hvalue]
    simp [Nat.toDigits_ne_nil]

theorem placeholder_injective : Function.Injective placeholder := by
  intro m n h
  have htext := congrArg String.toList h
  rw [toList_placeholder, toList_placeholder, List.append_left_inj, List.append_right_inj] at htext
  have hnumber := congrArg scriptNumber? htext
  rw [scriptNumber?_toDigits, scriptNumber?_toDigits] at hnumber
  exact Option.some.inj hnumber

/-! ### What stays and what is replaced -/

/-- Strings with every script replaced by its placeholder; the first one has number `n`. -/
def numbered (n : Nat) : List String → List String
  | [] => []
  | text :: rest =>
    if isWrapped text then placeholder n :: numbered (n + 1) rest else text :: numbered n rest

theorem numbered_append (n : Nat) (texts more : List String) :
    numbered n (texts ++ more) =
      numbered n texts ++ numbered (n + (texts.filter isWrapped).length) more := by
  induction texts generalizing n with
  | nil => rfl
  | cons text texts ih =>
    rw [List.cons_append, numbered, numbered, List.filter_cons]
    split
    next =>
      rw [ih, List.length_cons, List.cons_append, Nat.add_right_comm, Nat.add_assoc n]
    next => rw [ih, List.cons_append]

/-- The function gives each of the scripts for its placeholder, the first one for number `n`. -/
def Supplies (σ : String → String) (n : Nat) (scripts : List String) : Prop :=
  ∀ i script, scripts[i]? = some script → σ (placeholder (n + i)) = script

theorem Supplies.split {σ : String → String} {n : Nat} {scripts more : List String}
    (h : Supplies σ n (scripts ++ more)) :
    Supplies σ n scripts ∧ Supplies σ (n + scripts.length) more := by
  constructor
  · intro i script hi
    have hlt := (List.getElem?_eq_some_iff.1 hi).1
    exact h i script ((List.getElem?_append_left hlt).trans hi)
  · intro i script hi
    rw [Nat.add_assoc]
    refine h _ script ?_
    rw [List.getElem?_append_right (Nat.le_add_right _ _), Nat.add_sub_cancel_left]
    exact hi

/-- The function leaves the texts that are no scripts. -/
def Leaves (σ : String → String) (texts : List String) : Prop :=
  ∀ text ∈ texts, isWrapped text = false → σ text = text

theorem Leaves.split {σ : String → String} {texts more : List String}
    (h : Leaves σ (texts ++ more)) : Leaves σ texts ∧ Leaves σ more :=
  ⟨fun text ht => h text (List.mem_append_left more ht),
    fun text ht => h text (List.mem_append_right texts ht)⟩

/-- Strings in which the scripts, and nothing else, were replaced by their placeholders. -/
structure Replaced (n : Nat) (texts replaced scripts : List String) : Prop where
  scripts : scripts = texts.filter isWrapped
  texts : replaced = numbered n texts

theorem Replaced.append {n : Nat} {texts replaced scripts texts' replaced' scripts' : List String}
    (h : Replaced n texts replaced scripts)
    (h' : Replaced (n + scripts.length) texts' replaced' scripts') :
    Replaced n (texts ++ texts') (replaced ++ replaced') (scripts ++ scripts') where
  scripts := by rw [h.scripts, h'.scripts, List.filter_append]
  texts := by rw [h.texts, h'.texts, h.scripts, numbered_append]

mutual

theorem stash_replaced (n : Nat) : (v : Json) →
    Replaced n v.strings (stash n v).1.strings (stash n v).2
  | .null | .bool _ | .num _ => ⟨rfl, rfl⟩
  | .str text => by
    unfold stash
    cases h : isWrapped text <;>
    constructor <;> simp [Json.strings, Json.gather, numbered, h]
  | .arr items => stashItems_replaced n items
  | .obj fields => stashFields_replaced n fields

theorem stashItems_replaced (n : Nat) : (items : List Json) →
    Replaced n (Json.gatherItems (fun _ => []) ([·]) items)
      (Json.gatherItems (fun _ => []) ([·]) (stashItems n items).1) (stashItems n items).2
  | [] => ⟨rfl, rfl⟩
  | v :: rest => (stash_replaced n v).append (stashItems_replaced _ rest)

theorem stashFields_replaced (n : Nat) : (fields : List (String × Json)) →
    Replaced n (Json.gatherFields (fun _ => []) ([·]) fields)
      (Json.gatherFields (fun _ => []) ([·]) (stashFields n fields).1) (stashFields n fields).2
  | [] => ⟨rfl, rfl⟩
  | (_, v) :: rest => (stash_replaced n v).append (stashFields_replaced _ rest)

end

mutual

theorem stash_keys (n : Nat) : (v : Json) → (stash n v).1.keys = v.keys
  | .null | .bool _ | .num _ => rfl
  | .str text => by
    unfold stash
    cases isWrapped text <;> rfl
  | .arr items => stashItems_keys n items
  | .obj fields => stashFields_keys n fields

theorem stashItems_keys (n : Nat) : (items : List Json) →
    Json.gatherItems ([·]) (fun _ => []) (stashItems n items).1 =
      Json.gatherItems ([·]) (fun _ => []) items
  | [] => rfl
  | v :: rest => congrArg₂ List.append (stash_keys n v) (stashItems_keys _ rest)

theorem stashFields_keys (n : Nat) : (fields : List (String × Json)) →
    Json.gatherFields ([·]) (fun _ => []) (stashFields n fields).1 =
      Json.gatherFields ([·]) (fun _ => []) fields
  | [] => rfl
  | (key, v) :: rest =>
    congrArg₂ List.append (congrArg (key :: ·) (stash_keys n v)) (stashFields_keys _ rest)

end

mutual

theorem stash_restored {σ : String → String} (n : Nat) : (v : Json) →
    Supplies σ n (stash n v).2 → Leaves σ v.strings → (stash n v).1.mapStrings σ = v
  | .null, _, _ | .bool _, _, _ | .num _, _, _ => rfl
  | .str text, hσ, hleaves => by
    unfold stash at hσ ⊢
    cases h : isWrapped text with
    | true =>
      rw [h] at hσ
      exact congrArg Json.str (hσ 0 text rfl)
    | false => exact congrArg Json.str (hleaves text (List.mem_singleton_self text) h)
  | .arr items, hσ, hleaves => congrArg Json.arr (stashItems_restored n items hσ hleaves)
  | .obj fields, hσ, hleaves => congrArg Json.obj (stashFields_restored n fields hσ hleaves)

theorem stashItems_restored {σ : String → String} (n : Nat) : (items : List Json) →
    Supplies σ n (stashItems n items).2 →
    Leaves σ (Json.gatherItems (fun _ => []) ([·]) items) →
    Json.mapItemStrings σ (stashItems n items).1 = items
  | [], _, _ => rfl
  | v :: rest, hσ, hleaves => by
    obtain ⟨hfirst, hothers⟩ := hσ.split
    obtain ⟨hv, hrest⟩ := hleaves.split
    exact congrArg₂ _ (stash_restored n v hfirst hv) (stashItems_restored _ rest hothers hrest)

theorem stashFields_restored {σ : String → String} (n : Nat) : (fields : List (String × Json)) →
    Supplies σ n (stashFields n fields).2 →
    Leaves σ (Json.gatherFields (fun _ => []) ([·]) fields) →
    Json.mapFieldStrings σ (stashFields n fields).1 = fields
  | [], _, _ => rfl
  | (key, v) :: rest, hσ, hleaves => by
    obtain ⟨hfirst, hothers⟩ := hσ.split
    obtain ⟨hv, hrest⟩ := hleaves.split
    exact congrArg₂ _ (congrArg (Prod.mk key) (stash_restored n v hfirst hv))
      (stashFields_restored _ rest hothers hrest)

end

/-! ### Writing the scripts back -/

/-- The script that a text is the placeholder of; any other text is itself. -/
def restore (scripts : List String) (text : String) : String :=
  (((List.range scripts.length).find? (placeholder · = text)).bind (scripts[·]?)).getD text

theorem restore_placeholder {scripts : List String} {n : Nat} {script : String}
    (h : scripts[n]? = some script) : restore scripts (placeholder n) = script := by
  have hlt := (List.getElem?_eq_some_iff.1 h).1
  have hfind : (List.range scripts.length).find? (placeholder · = placeholder n) = some n := by
    rw [List.find?_range_eq_some]
    refine ⟨by simp, List.mem_range.2 hlt, fun j hj => ?_⟩
    simpa using fun heq => absurd (placeholder_injective heq) (Nat.ne_of_lt hj)
  rw [restore, hfind, Option.bind_some, h, Option.getD_some]

theorem restore_of_free (scripts : List String) {text : String}
    (h : Script.Free placeholderStart text.toList) : restore scripts text = text := by
  have hfind : (List.range scripts.length).find? (placeholder · = text) = none := by
    rw [List.find?_eq_none]
    intro n _ heq
    obtain rfl := of_decide_eq_true heq
    refine h ?_
    rw [toList_placeholder, List.append_assoc]
    exact (List.prefix_append _ _).isInfix
  rw [restore, hfind]
  rfl

theorem supplies_restore (scripts : List String) : Supplies (restore scripts) 0 scripts :=
  fun i script hi => by rw [Nat.zero_add, restore_placeholder hi]

end Workflow.Document
