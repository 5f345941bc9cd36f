import Workflow.Proofs.Document.Stash
import Workflow.Proofs.Yaml.Clear

/-!
# Placeholders in YAML text

A placeholder in a value is written plain and ends its line, behind a key or a dash, and the lines
show the placeholders in the order of the strings of the value (`marked_document`). No other line
holds the start of a placeholder when no other text in the value does.
-/

namespace Workflow.Yaml

open Document (placeholder placeholderStart)
open Script (Free)

/-! ### Lines with placeholders -/

theorem isWordChar_placeholder {n : Nat} {c : Char} (h : c ∈ (placeholder n).toList) :
    isWordChar c = true := by
  have hmarks : ∀ c ∈ placeholderStart ++ Document.placeholderEnd, isWordChar c = true :=
    List.all_iff_forall_prop.1 (by decide)
  rw [Document.toList_placeholder, List.append_assoc, List.mem_append, List.mem_append] at h
  rcases h with h | h | h
  · exact hmarks c (List.mem_append_left _ h)
  · have hdigit := Nat.isDigit_of_mem_toDigits (by decide) (by decide) h
    have hrange : '0' ≤ c ∧ c ≤ '9' := by simpa [Char.isDigit, Char.le_def] using hdigit
    simp [isWordChar, hrange]
  · exact hmarks c (List.mem_append_right _ h)

/-- A placeholder is written as it is. -/
theorem scalarLines_placeholder (n : Nat) :
    scalarLines (.str (placeholder n)) = [.of (placeholder n).toList] := by
  have hword := @isWordChar_placeholder n
  obtain ⟨rest, hrest⟩ : ∃ rest, (placeholder n).toList = '_' :: rest := ⟨_, Document.toList_placeholder n⟩
  have hplaceholder : placeholder n = String.ofList ('_' :: rest) := by
    rw [← hrest, String.ofList_toList]
  rw [hrest] at hword ⊢
  rw [hplaceholder, scalarLines_word fun c => hword]

/-- What stands in front of a value on its line. -/
def IsHead (head : List Char) : Prop := ∃ front, Clear front ∧ head = front ++ [' ']

namespace IsHead

variable {head other : List Char}

theorem append (h : IsHead head) (hother : IsHead other) : IsHead (head ++ other) := by
  obtain ⟨front, hfront, rfl⟩ := h
  obtain ⟨more, hmore, rfl⟩ := hother
  refine ⟨front ++ ' ' :: more, hfront.append_cons hmore (by decide) (by decide), ?_⟩
  simp

theorem clear (h : IsHead head) {text : List Char} (htext : Clear text) : Clear (head ++ text) := by
  obtain ⟨front, hfront, rfl⟩ := h
  rw [List.append_assoc]
  exact hfront.append_cons htext (by decide) (by decide)

theorem spaces (h : IsHead head) (n : Nat) : IsHead (List.replicate n ' ' ++ head) := by
  obtain ⟨front, hfront, rfl⟩ := h
  exact ⟨_, hfront.spaces n, (List.append_assoc ..).symm⟩

end IsHead

/-- Lines whose placeholders have the given numbers, each behind the head of its line. -/
inductive Marked : List Line → List Nat → Prop
  | nil : Marked [] []
  | clear {l : Line} {ls : List Line} {ns : List Nat} (hl : l.Clear) (h : Marked ls ns) :
      Marked (l :: ls) ns
  | slot {head : List Char} {n : Nat} {ls : List Line} {ns : List Nat} (hhead : IsHead head)
      (h : Marked ls ns) : Marked (.of (head ++ (placeholder n).toList) :: ls) (n :: ns)

namespace Marked

variable {ls more : List Line} {ns ms : List Nat}

theorem of_clear (h : ∀ l ∈ ls, l.Clear) : Marked ls [] := by
  induction ls with
  | nil => exact .nil
  | cons l ls ih =>
    exact .clear (h l List.mem_cons_self) (ih fun l' hl' => h l' (List.mem_cons_of_mem l hl'))

theorem append (h : Marked ls ns) (hmore : Marked more ms) : Marked (ls ++ more) (ns ++ ms) := by
  induction h with
  | nil => exact hmore
  | clear hl _ ih => exact .clear hl ih
  | slot hhead _ ih => exact .slot hhead ih

theorem indent (h : Marked ls ns) (k : Nat) : Marked (ls.map (Line.indent k)) ns := by
  induction h with
  | nil => exact .nil
  | @clear l _ _ hl _ ih =>
    refine .clear ?_ ih
    unfold Line.indent
    split
    · exact hl
    · exact ⟨hl.text.spaces k, hl.ending⟩
  | @slot head n _ _ hhead _ ih =>
    have hline : (Line.of (head ++ (placeholder n).toList)).indent k =
        .of ((List.replicate k ' ' ++ head) ++ (placeholder n).toList) := by
      obtain ⟨front, -, rfl⟩ := hhead
      simp [Line.indent, Line.of]
    rw [List.map_cons, hline]
    exact .slot (hhead.spaces k) ih

theorem behind {head : List Char} (hhead : IsHead head) (h : Marked ls ns) (k : Nat) :
    Marked (behind head k ls) ns := by
  cases h with
  | nil => exact .nil
  | clear hl h => exact .clear ⟨hhead.clear hl.text, hl.ending⟩ (h.indent k)
  | @slot before n _ _ hbefore h =>
    have hslot := Marked.slot (n := n) (hhead.append hbefore) (h.indent k)
    rw [List.append_assoc] at hslot
    exact hslot

end Marked

/-! ### Values -/

/-- Texts none of which holds the start of a placeholder. -/
def AllFree (texts : List String) : Prop := ∀ text ∈ texts, Free placeholderStart text.toList

theorem AllFree.split {texts more : List String} (h : AllFree (texts ++ more)) :
    AllFree texts ∧ AllFree more :=
  ⟨fun text ht => h text (List.mem_append_left more ht),
    fun text ht => h text (List.mem_append_right texts ht)⟩

/-- Strings that are placeholders with the given numbers, in order, or hold no start of one. -/
inductive Holds : List String → List Nat → Prop
  | nil : Holds [] []
  | text {text : String} {texts : List String} {ns : List Nat}
      (htext : Free placeholderStart text.toList) (h : Holds texts ns) : Holds (text :: texts) ns
  | placeholder {n : Nat} {texts : List String} {ns : List Nat} (h : Holds texts ns) :
      Holds (placeholder n :: texts) (n :: ns)

namespace Holds

theorem of_free {texts : List String} (h : AllFree texts) : Holds texts [] := by
  induction texts with
  | nil => exact .nil
  | cons text texts ih =>
    exact .text (h text List.mem_cons_self) (ih fun t ht => h t (List.mem_cons_of_mem text ht))

theorem append {texts more : List String} {ns ms : List Nat} (h : Holds texts ns)
    (hmore : Holds more ms) : Holds (texts ++ more) (ns ++ ms) := by
  induction h with
  | nil => exact hmore
  | text htext _ ih => exact .text htext ih
  | placeholder _ ih => exact .placeholder ih

theorem split {texts more : List String} {ns : List Nat} (h : Holds (texts ++ more) ns) :
    ∃ ns₁ ns₂, ns = ns₁ ++ ns₂ ∧ Holds texts ns₁ ∧ Holds more ns₂ := by
  induction texts generalizing ns with
  | nil => exact ⟨[], ns, rfl, .nil, h⟩
  | cons text texts ih =>
    cases h with
    | text htext h =>
      obtain ⟨ns₁, ns₂, rfl, h₁, h₂⟩ := ih h
      exact ⟨ns₁, ns₂, rfl, .text htext h₁, h₂⟩
    | @placeholder n _ _ h =>
      obtain ⟨ns₁, ns₂, rfl, h₁, h₂⟩ := ih h
      exact ⟨n :: ns₁, ns₂, rfl, .placeholder h₁, h₂⟩

end Holds

theorem clear_key {key : String} (h : Free placeholderStart key.toList) :
    Clear ((styled (styleOf true key) key).flatMap Line.text) := by
  obtain ⟨l, hl⟩ := exists_styled_key key
  rw [hl, List.flatMap_singleton]
  exact (clear_styled true h l (hl ▸ List.mem_singleton_self l)).text

/-- Where the placeholders of a value stand in its lines. A string has to stand behind the head of a
line, any other value may begin one. -/
structure Laid (v : Json) (ns : List Nat) : Prop where
  behind : ∀ head, IsHead head → Marked (behind head 2 (lines v)) ns
  own : (∀ text, v ≠ .str text) → Marked (lines v) ns

theorem Laid.of_marked {v : Json} {ns : List Nat} (h : Marked (lines v) ns) : Laid v ns :=
  ⟨fun _ hhead => h.behind hhead 2, fun _ => h⟩

theorem laid_text {text : String} {ns : List Nat} (h : Holds [text] ns) : Laid (.str text) ns := by
  refine ⟨fun head hhead => ?_, fun hne => absurd rfl (hne text)⟩
  cases h with
  | text htext h =>
    cases h
    exact (Marked.of_clear (clear_styled false htext)).behind hhead 2
  | @placeholder n _ _ h =>
    cases h
    rw [show lines (.str (placeholder n)) = scalarLines (.str (placeholder n)) from rfl,
      scalarLines_placeholder]
    exact .slot hhead .nil

theorem fieldLines_cons (e : String × Json) (rest : List (String × Json)) :
    fieldLines (e :: rest) = fieldLines [e] ++ fieldLines rest := by
  have hnil : fieldLines [] = [] := by rw [fieldLines]
  rw [fieldLines.eq_def, fieldLines.eq_def [e]]
  dsimp only
  rw [hnil, List.append_nil]

theorem laid_field {key : String} {v : Json} {ns : List Nat} (hkey : Free placeholderStart key.toList)
    (h : Laid v ns) : Marked (fieldLines [(key, v)]) ns := by
  have hcolon : Clear ((styled (styleOf true key) key).flatMap Line.text ++ [':']) :=
    (clear_key hkey).append_cons clear_nil (by decide) (by decide)
  have hkeyed : Marked (keyed key (lines v)) ns := by
    refine h.behind _ ⟨_, hcolon, ?_⟩
    rw [List.append_assoc, List.singleton_append]
  unfold fieldLines
  rw [fieldLines, List.append_nil]
  split
  next =>
    cases v with
    | arr items =>
      cases items with
      | nil => exact hkeyed
      | cons => exact .clear (.of hcolon) (h.own nofun)
    | obj fields =>
      cases fields with
      | nil => exact hkeyed
      | cons => exact .clear (.of hcolon) ((h.own nofun).indent 2)
    | _ => exact hkeyed
  next =>
    have hmark : Marked (behind ['?', ' '] 2 (scalarLines (.str key))) [] :=
      (laid_text (.text hkey .nil)).behind _ ⟨['?'], .of_not_mem (by decide) (by decide), rfl⟩
    exact hmark.append (h.behind _ ⟨[':'], .of_not_mem (by decide) (by decide), rfl⟩)

theorem laid_scalar {v : Json} {ns : List Nat} (hns : Holds [] ns)
    (h : ∀ l ∈ lines v, l.Clear) : Laid v ns := by
  cases hns
  exact .of_marked (.of_clear h)

mutual

theorem laid {ns : List Nat} : (v : Json) → Holds v.strings ns → AllFree v.keys → Laid v ns
  | .str _, h, _ => laid_text h
  | .arr (v :: rest), h, hkeys => .of_marked (marked_itemLines (v :: rest) h hkeys)
  | .obj (e :: rest), h, hkeys => .of_marked (marked_fieldLines (e :: rest) h hkeys)
  | .num n, h, _ => laid_scalar h fun l hl => by
    obtain rfl := List.mem_singleton.1 hl
    exact .of (clear_numberChars n)
  | .null, h, _ | .bool true, h, _ | .bool false, h, _ | .arr [], h, _ | .obj [], h, _ =>
    laid_scalar h fun l hl => by
      obtain rfl := List.mem_singleton.1 hl
      exact .of (.of_not_mem (by decide) (by decide))

theorem marked_itemLines {ns : List Nat} : (items : List Json) →
    Holds (Json.gatherItems (fun _ => []) ([·]) items) ns →
    AllFree (Json.gatherItems ([·]) (fun _ => []) items) → Marked (itemLines items) ns
  | [], h, _ => by
    cases h
    exact .nil
  | v :: rest, h, hkeys => by
    obtain ⟨ns₁, ns₂, rfl, hv, hrest⟩ := h.split
    obtain ⟨hkeysv, hkeysrest⟩ := hkeys.split
    have hdash : IsHead ['-', ' '] := ⟨['-'], .of_not_mem (by decide) (by decide), rfl⟩
    exact ((laid v hv hkeysv).behind _ hdash).append (marked_itemLines rest hrest hkeysrest)

theorem marked_fieldLines {ns : List Nat} : (fields : List (String × Json)) →
    Holds (Json.gatherFields (fun _ => []) ([·]) fields) ns →
    AllFree (Json.gatherFields ([·]) (fun _ => []) fields) → Marked (fieldLines fields) ns
  | [], h, _ => by
    cases h
    exact .nil
  | (key, v) :: rest, h, hkeys => by
    obtain ⟨ns₁, ns₂, rfl, hv, hrest⟩ := h.split
    obtain ⟨hown, hkeysrest⟩ := hkeys.split
    obtain ⟨hkey, hkeysv⟩ := hown.split
    have hfield := laid_field (hkey key (List.mem_singleton_self key)) (laid v hv hkeysv)
    rw [fieldLines_cons]
    exact hfield.append (marked_fieldLines rest hrest hkeysrest)

end

/-- The placeholders of a value other than a string stand in its text in their order. -/
theorem marked_document {v : Json} {ns : List Nat} (hv : ∀ text, v ≠ .str text)
    (h : Holds v.strings ns) (hkeys : AllFree v.keys) : Marked (document v) ns := by
  have hlaid := laid v h hkeys
  have hown := hlaid.own hv
  unfold document
  split
  next => exact hown
  next => exact hown
  next harr hobj =>
    -- One line, with nothing in front of it.
    cases v with
    | str text => exact absurd rfl (hv text)
    | bool b => cases b <;> exact hown
    | arr items =>
      cases items with
      | nil => exact hown
      | cons v rest => exact absurd rfl (harr v rest)
    | obj fields =>
      cases fields with
      | nil => exact hown
      | cons e rest => exact absurd rfl (hobj e rest)
    | _ => exact hown

end Workflow.Yaml
