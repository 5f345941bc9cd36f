import Workflow.Proofs.Yaml.Layout
import Workflow.Proofs.Yaml.Meaning

/-!
# The outline of a layout

The tokens of a layout are those of its outline, and nothing in it has a tag, an anchor or an alias
(`Layout.ofTokens?_tokens`). What a layout means is what its scalars mean.
-/

namespace Workflow.Yaml

/-- The outline of an atom. -/
def Atom.outline : Atom → Outline
  | scalar plain text => .scalar none plain text
  | list => .seq none []
  | record => .map none []

/-- An atom that means a value on its own. -/
def Atom.Means : Atom → Json → Prop
  | scalar plain text, v => Node.ScalarMeans plain text v
  | list, v => v = .arr []
  | record, v => v = .obj []

namespace Layout

mutual

/-- A layout of a value. -/
def Means : Layout → Json → Prop
  | atom _ a, v => a.Means v
  | list items, v => ∃ first others, v = .arr (first :: others) ∧ ItemsMean items (first :: others)
  | record fields, v => ∃ first others, v = .obj (first :: others) ∧ FieldsMean fields (first :: others)

/-- Layouts of list items. -/
def ItemsMean : List Layout → List Json → Prop
  | [], vs => vs = []
  | l :: rest, vs => ∃ v others, vs = v :: others ∧ l.Means v ∧ ItemsMean rest others

/-- Layouts of record fields; a key means its own text. -/
def FieldsMean : List (Key × Layout) → List (String × Json) → Prop
  | [], es => es = []
  | (key, l) :: rest, es => ∃ v others, es = (key.text, v) :: others ∧
      (Atom.scalar key.plain key.text).Means (.str key.text) ∧ l.Means v ∧ FieldsMean rest others

end

mutual

/-- The outline of a layout. -/
def outline : Layout → Outline
  | atom _ a => a.outline
  | list items => .seq none (itemOutlines items)
  | record fields => .map none (fieldOutlines fields)

/-- The outlines of list items. -/
def itemOutlines : List Layout → List Outline
  | [] => []
  | l :: rest => l.outline :: itemOutlines rest

/-- The outlines of record fields. -/
def fieldOutlines : List (Key × Layout) → List (Outline × Outline)
  | [] => []
  | (key, l) :: rest => (.scalar none key.plain key.text, l.outline) :: fieldOutlines rest

end

end Layout

namespace Outline

variable {tokens rest : List Token} {handles : List (String × List UInt8)} {fuel : Nat}

/-- A reading of a document in which no anchor has occurred. -/
def reading (handles : List (String × List UInt8)) (tokens : List Token) : Reading :=
  ⟨tokens, handles, [], []⟩

/-- A token that begins the content of a node. -/
def BeginsContent : Token → Prop
  | .scalar .. | .flowSequenceStart | .flowMappingStart | .blockSequenceStart | .blockMappingStart
  | .blockEntry => True
  | _ => False

@[simp] theorem run_next? : next?.run (reading handles tokens) =
    some (tokens.head?, reading handles tokens) := rfl

@[simp] theorem run_skip : skip.run (reading handles tokens) =
    some ((), reading handles (tokens.drop 1)) := rfl

theorem node_eq {t : Token} (block indentless : Bool) (h : BeginsContent t) :
    (node block indentless (fuel + 1)).run (reading handles (t :: tokens)) =
      (content block indentless false none (some t) fuel).run (reading handles (t :: tokens)) := by
  cases t <;> cases h
  all_goals
    unfold node
    simp only [run_next?, properties, begin, finish, StateT.run_bind, Option.bind_eq_bind,
      Option.bind_some, List.head?_cons, pure]
    exact Option.bind_fun_some _

theorem content_scalar (block indentless plain : Bool) (text : String) :
    (content block indentless false none (some (.scalar plain text)) (fuel + 1)).run
      (reading handles (.scalar plain text :: tokens)) =
      some (.scalar none plain text, reading handles tokens) := rfl

theorem content_brackets (block indentless : Bool) (a : Atom) (h : ∀ plain text, a ≠ .scalar plain text) :
    (content block indentless false none a.tokens.head? (fuel + 2)).run
      (reading handles (a.tokens ++ tokens)) = some (a.outline, reading handles tokens) := by
  cases a with
  | scalar plain text => exact absurd rfl (h plain text)
  | list => rfl
  | record => rfl

theorem content_list (indentless : Bool) {items : List Outline}
    (h : (blockItems fuel).run (reading handles tokens) = some (items, reading handles rest)) :
    (content true indentless false none (some .blockSequenceStart) (fuel + 1)).run
      (reading handles (.blockSequenceStart :: tokens)) =
      some (.seq none items, reading handles rest) := by
  unfold content
  simp [h]

theorem content_plainList {items : List Outline}
    (h : (plainItems fuel).run (reading handles (.blockEntry :: tokens)) =
      some (items, reading handles rest)) :
    (content true true false none (some .blockEntry) (fuel + 1)).run
      (reading handles (.blockEntry :: tokens)) = some (.seq none items, reading handles rest) := by
  unfold content
  simp [h]

theorem content_record (indentless : Bool) {fields : List (Outline × Outline)}
    (h : (blockEntries fuel).run (reading handles tokens) = some (fields, reading handles rest)) :
    (content true indentless false none (some .blockMappingStart) (fuel + 1)).run
      (reading handles (.blockMappingStart :: tokens)) =
      some (.map none fields, reading handles rest) := by
  unfold content
  simp [h]

/-- A token that begins the content of a node, but not the item of a list that is not indented. -/
def BeginsNode (t : Token) : Prop := BeginsContent t ∧ t ≠ .blockEntry

theorem blockItems_cons {t : Token} {o : Outline} {others : List Outline} {middle : List Token}
    (ht : BeginsNode t)
    (h : (node true false fuel).run (reading handles (t :: tokens)) = some (o, reading handles middle))
    (hothers : (blockItems fuel).run (reading handles middle) = some (others, reading handles rest)) :
    (blockItems (fuel + 1)).run (reading handles (.blockEntry :: t :: tokens)) =
      some (o :: others, reading handles rest) := by
  unfold blockItems
  obtain ⟨hbegins, hne⟩ := ht
  cases t <;> first | exact (hne rfl).elim | cases hbegins
  all_goals
    simp only [StateT.run_bind, run_next?, run_skip, Option.bind_eq_bind, Option.bind_some,
      List.head?_cons, List.drop_one, List.tail_cons, h, hothers]
    rfl

theorem plainItems_nil (h : rest.head? ≠ some .blockEntry) :
    (plainItems (fuel + 1)).run (reading handles rest) = some ([], reading handles rest) := by
  unfold plainItems
  simp only [StateT.run_bind, run_next?, Option.bind_eq_bind, Option.bind_some]
  cases rest with
  | nil => rfl
  | cons t rest =>
    cases t with
    | blockEntry => exact absurd rfl h
    | _ => rfl

theorem plainItems_cons {t : Token} {o : Outline} {others : List Outline} {middle : List Token}
    (ht : BeginsNode t)
    (h : (node true false fuel).run (reading handles (t :: tokens)) = some (o, reading handles middle))
    (hothers : (plainItems fuel).run (reading handles middle) = some (others, reading handles rest)) :
    (plainItems (fuel + 1)).run (reading handles (.blockEntry :: t :: tokens)) =
      some (o :: others, reading handles rest) := by
  unfold plainItems
  obtain ⟨hbegins, hne⟩ := ht
  cases t <;> first | exact (hne rfl).elim | cases hbegins
  all_goals
    simp [h, hothers, endsBlockEntry]

theorem blockEntries_cons {t : Token} {plain : Bool} {key : String} {o : Outline}
    {others : List (Outline × Outline)} {middle : List Token} (ht : BeginsContent t)
    (h : (node true true (fuel + 2)).run (reading handles (t :: tokens)) =
      some (o, reading handles middle))
    (hothers : (blockEntries (fuel + 2)).run (reading handles middle) =
      some (others, reading handles rest)) :
    (blockEntries (fuel + 3)).run
        (reading handles (.key :: .scalar plain key :: .value :: t :: tokens)) =
      some ((.scalar none plain key, o) :: others, reading handles rest) := by
  have hkey : (node true true (fuel + 2)).run
      (reading handles (.scalar plain key :: .value :: t :: tokens)) =
        some (.scalar none plain key, reading handles (.value :: t :: tokens)) :=
    (node_eq (t := .scalar plain key) true true trivial).trans (content_scalar true true plain key)
  unfold blockEntries
  cases t <;> cases ht
  all_goals
    simp [h, hothers, hkey, endsBlockEntry]

end Outline

namespace Layout

open Outline (BeginsContent BeginsNode reading node plainItems blockItems blockEntries)

/-- A value begins with the token of its own, or with the dash of its first item. -/
theorem exists_token {l : Layout} {v : Json} (h : l.Means v) (behindKey : Bool) :
    ∃ t tail, l.tokens behindKey = t :: tail ∧ BeginsContent t ∧
      (behindKey = false → t ≠ .blockEntry) := by
  cases l with
  | atom written a => cases a <;> exact ⟨_, _, rfl, trivial, nofun⟩
  | record fields => exact ⟨_, _, rfl, trivial, nofun⟩
  | list items =>
    cases behindKey with
    | false => exact ⟨_, _, rfl, trivial, nofun⟩
    | true =>
      obtain ⟨first, others, -, hitems⟩ := h
      cases items with
      | nil => cases hitems
      | cons l rest => exact ⟨_, _, rfl, trivial, nofun⟩

mutual

/-- A value is read up to its last token. A list behind a key ends in front of a token that is no dash;
three steps for each token are enough. -/
theorem node_tokens (handles : List (String × List UInt8)) : (l : Layout) → {v : Json} → l.Means v →
    ∀ (behindKey indentless : Bool) (fuel : Nat) (rest : List Token),
      (behindKey = true → indentless = true ∧ rest.head? ≠ some .blockEntry) →
      3 * (l.tokens behindKey).length ≤ fuel →
      (node true indentless fuel).run (reading handles (l.tokens behindKey ++ rest)) =
        some (l.outline, reading handles rest)
  | atom written a, v, _, behindKey, indentless, fuel, rest, _, hfuel => by
    obtain ⟨fuel, rfl⟩ : ∃ n, fuel = n + 3 := ⟨fuel - 3, by
      cases a <;> simp [tokens, Atom.tokens] at hfuel <;> omega⟩
    cases a with
    | scalar plain text =>
      exact (Outline.node_eq (t := .scalar plain text) true indentless trivial).trans
        (Outline.content_scalar true indentless plain text)
    | list =>
      exact (Outline.node_eq (t := .flowSequenceStart) true indentless trivial).trans
        (Outline.content_brackets true indentless .list nofun)
    | record =>
      exact (Outline.node_eq (t := .flowMappingStart) true indentless trivial).trans
        (Outline.content_brackets true indentless .record nofun)
  | list items, v, h, behindKey, indentless, fuel, rest, hbehind, hfuel => by
    obtain ⟨first, others, -, hitems⟩ := h
    cases behindKey with
    | false =>
      simp only [tokens, Bool.false_eq_true, if_false, List.length_append, List.length_cons] at hfuel
      obtain ⟨fuel, rfl⟩ : ∃ n, fuel = n + 2 := ⟨fuel - 2, by omega⟩
      have hread := blockItems_tokens handles items hitems fuel rest
        (by omega)
      have htokens : (list items).tokens false ++ rest =
          .blockSequenceStart :: (itemTokens items ++ .blockEnd :: rest) := by simp [tokens]
      rw [htokens]
      exact (Outline.node_eq (t := .blockSequenceStart) true indentless trivial).trans
        (Outline.content_list indentless hread)
    | true =>
      obtain ⟨rfl, hrest⟩ := hbehind rfl
      obtain ⟨tail, htail⟩ : ∃ tail, itemTokens items = .blockEntry :: tail := by
        cases items with
        | nil => cases hitems
        | cons l items => exact ⟨_, rfl⟩
      have htokens : (list items).tokens true = itemTokens items := by simp [tokens]
      rw [htokens] at hfuel ⊢
      have hlength : 0 < (itemTokens items).length := by simp [htail]
      obtain ⟨fuel, rfl⟩ : ∃ n, fuel = n + 2 := ⟨fuel - 2, by omega⟩
      have hread := plainItems_tokens handles items hitems fuel rest hrest (by omega)
        (by omega)
      rw [htail] at hread ⊢
      exact (Outline.node_eq (t := .blockEntry) true true trivial).trans
        (Outline.content_plainList hread)
  | record fields, v, h, behindKey, indentless, fuel, rest, _, hfuel => by
    obtain ⟨first, others, -, hfields⟩ := h
    obtain ⟨fuel, rfl⟩ : ∃ n, fuel = n + 2 := ⟨fuel - 2, by
      simp [tokens] at hfuel; omega⟩
    have hread := blockEntries_tokens handles fields hfields fuel rest (by
      simp [tokens] at hfuel ⊢; omega)
    have htokens : (record fields).tokens behindKey ++ rest =
        .blockMappingStart :: (fieldTokens fields ++ .blockEnd :: rest) := by simp [tokens]
    rw [htokens]
    exact (Outline.node_eq (t := .blockMappingStart) true indentless trivial).trans
      (Outline.content_record indentless hread)

theorem blockItems_tokens (handles : List (String × List UInt8)) : (items : List Layout) →
    {vs : List Json} → ItemsMean items vs → ∀ (fuel : Nat) (rest : List Token),
      3 * (itemTokens items).length + 1 ≤ fuel →
      (blockItems fuel).run (reading handles (itemTokens items ++ .blockEnd :: rest)) =
        some (itemOutlines items, reading handles rest)
  | [], _, _, fuel, rest, hfuel => by
    obtain ⟨fuel, rfl⟩ : ∃ n, fuel = n + 1 := ⟨fuel - 1, by omega⟩
    rfl
  | l :: items, vs, h, fuel, rest, hfuel => by
    obtain ⟨v, others, -, hl, hitems⟩ := h
    obtain ⟨t, tail, htokens, ht, hne⟩ := exists_token hl false
    obtain ⟨fuel, rfl⟩ : ∃ n, fuel = n + 1 := ⟨fuel - 1, by omega⟩
    simp only [itemTokens, List.length_append, List.length_cons] at hfuel
    have hnode := node_tokens handles l hl false false fuel (itemTokens items ++ .blockEnd :: rest)
      Bool.noConfusion (by omega)
    rw [htokens] at hnode
    have hothers := blockItems_tokens handles items hitems fuel rest
      (by omega)
    have hsplit : itemTokens (l :: items) ++ .blockEnd :: rest =
        .blockEntry :: t :: (tail ++ (itemTokens items ++ .blockEnd :: rest)) := by
      simp [itemTokens, htokens]
    rw [hsplit]
    exact Outline.blockItems_cons ⟨ht, hne rfl⟩ hnode hothers

theorem plainItems_tokens (handles : List (String × List UInt8)) : (items : List Layout) →
    {vs : List Json} → ItemsMean items vs → ∀ (fuel : Nat) (rest : List Token),
      rest.head? ≠ some .blockEntry → 3 * (itemTokens items).length ≤ fuel + 2 → 0 < fuel →
      (plainItems fuel).run (reading handles (itemTokens items ++ rest)) =
        some (itemOutlines items, reading handles rest)
  | [], _, _, fuel, rest, hrest, _, hpos => by
    obtain ⟨fuel, rfl⟩ : ∃ n, fuel = n + 1 := ⟨fuel - 1, by omega⟩
    exact Outline.plainItems_nil hrest
  | l :: items, vs, h, fuel, rest, hrest, hfuel, hpos => by
    obtain ⟨v, others, -, hl, hitems⟩ := h
    obtain ⟨t, tail, htokens, ht, hne⟩ := exists_token hl false
    obtain ⟨fuel, rfl⟩ : ∃ n, fuel = n + 1 := ⟨fuel - 1, by omega⟩
    have hlength : 0 < (l.tokens false).length := by simp [htokens]
    simp only [itemTokens, List.length_append, List.length_cons] at hfuel
    have hnode := node_tokens handles l hl false false fuel (itemTokens items ++ rest)
      Bool.noConfusion (by omega)
    rw [htokens] at hnode
    have hothers := plainItems_tokens handles items hitems fuel rest hrest (by omega)
      (by omega)
    have hsplit : itemTokens (l :: items) ++ rest =
        .blockEntry :: t :: (tail ++ (itemTokens items ++ rest)) := by
      simp [itemTokens, htokens]
    rw [hsplit]
    exact Outline.plainItems_cons ⟨ht, hne rfl⟩ hnode hothers

theorem blockEntries_tokens (handles : List (String × List UInt8)) : (fields : List (Key × Layout)) →
    {es : List (String × Json)} → FieldsMean fields es → ∀ (fuel : Nat) (rest : List Token),
      3 * (fieldTokens fields).length + 1 ≤ fuel →
      (blockEntries fuel).run (reading handles (fieldTokens fields ++ .blockEnd :: rest)) =
        some (fieldOutlines fields, reading handles rest)
  | [], _, _, fuel, rest, hfuel => by
    obtain ⟨fuel, rfl⟩ : ∃ n, fuel = n + 1 := ⟨fuel - 1, by omega⟩
    rfl
  | (key, l) :: fields, es, h, fuel, rest, hfuel => by
    obtain ⟨v, others, -, -, hl, hfields⟩ := h
    obtain ⟨t, tail, htokens, ht, -⟩ := exists_token hl key.simple
    obtain ⟨fuel, rfl⟩ : ∃ n, fuel = n + 3 := ⟨fuel - 3, by
      simp only [fieldTokens, List.length_append, List.length_cons] at hfuel; omega⟩
    simp only [fieldTokens, List.length_append, List.length_cons] at hfuel
    have hnode := node_tokens handles l hl key.simple true (fuel + 2)
      (fieldTokens fields ++ .blockEnd :: rest) (fun _ => ⟨rfl, by
        cases fields <;> simp [fieldTokens]⟩) (by omega)
    rw [htokens] at hnode
    have hothers := blockEntries_tokens handles fields hfields (fuel + 2) rest (by omega)
    have hsplit : fieldTokens ((key, l) :: fields) ++ .blockEnd :: rest =
        .key :: .scalar key.plain key.text :: .value :: t ::
          (tail ++ (fieldTokens fields ++ .blockEnd :: rest)) := by
      simp [fieldTokens, htokens]
    rw [hsplit]
    exact Outline.blockEntries_cons ht hnode hothers

end

/-- The tokens of a layout are those of its outline; there is no anchor in it. -/
theorem ofTokens?_tokens {l : Layout} {v : Json} (h : l.Means v) :
    Outline.ofTokens? (l.tokens false) = some (some l.outline, []) := by
  obtain ⟨t, tail, htokens, ht, -⟩ := exists_token h false
  have hnode := node_tokens Outline.standardHandles l h false false (3 * (l.tokens false).length + 3) []
    Bool.noConfusion (by omega)
  rw [List.append_nil, htokens] at hnode
  have hdocument : Outline.document.run ⟨t :: tail, [], [], []⟩ =
      some (some l.outline, reading Outline.standardHandles []) := by
    have hstart : Outline.document.run ⟨t :: tail, [], [], []⟩ =
        (some <$> node true false (3 * (t :: tail).length + 3)).run
          (reading Outline.standardHandles (t :: tail)) := by
      unfold Outline.document
      cases t <;> cases ht <;> rfl
    rw [hstart, ← htokens, StateT.run_map, htokens, hnode]
    rfl
  rw [Outline.ofTokens?, htokens, hdocument]
  rfl

/-! ### Nodes -/

mutual

theorem exists_node (known : Node.Known) : (l : Layout) → {v : Json} → l.Means v →
    ∃ n, Node.ofOutline? known l.outline = some ⟨n, v.depth, 0⟩ ∧ n.Means v
  | atom written a, v, h => by
    cases a with
    | scalar plain text =>
      have hscalar : Node.ScalarMeans plain text v := h
      exact ⟨.scalar none plain text, by rw [hscalar.not_container.2]; rfl, rfl, hscalar⟩
    | list =>
      obtain rfl := h
      exact ⟨.seq none [], rfl, rfl, [], rfl, rfl⟩
    | record =>
      obtain rfl := h
      exact ⟨.map none [], rfl, rfl, [], rfl, rfl⟩
  | list items, v, h => by
    obtain ⟨first, others, rfl, hitems⟩ := h
    obtain ⟨ms, hms, hheight, haliases, hmeans⟩ := exists_items known items hitems
    refine ⟨.seq none (ms.map (·.node)), ?_, rfl, _, rfl, hmeans⟩
    rw [outline, Node.ofOutline?, hms, Option.map_some, Node.ofItems, hheight, haliases, Nat.zero_max]
    rfl
  | record fields, v, h => by
    obtain ⟨first, others, rfl, hfields⟩ := h
    obtain ⟨ms, hms, hheight, haliases, hmeans⟩ := exists_fields known fields hfields
    refine ⟨.map none (ms.map fun e => (e.1.node, e.2.node)), ?_, rfl, _, rfl, hmeans⟩
    rw [outline, Node.ofOutline?, hms, Option.map_some, Node.ofEntries, hheight, haliases, Nat.zero_max]
    rfl

theorem exists_items (known : Node.Known) : (items : List Layout) → {vs : List Json} →
    ItemsMean items vs → ∃ ms, Node.itemsOf? known (itemOutlines items) = some ms ∧
      (∀ h, ms.foldl (fun h m => max h m.height) h = max h (Json.depthItems vs)) ∧
      (∀ n, ms.foldl (fun n m => n + m.aliases) n = n) ∧ Node.ItemsMean (ms.map (·.node)) vs
  | [], vs, h => by
    obtain rfl := h
    exact ⟨[], rfl, fun h => (Nat.max_zero h).symm, fun _ => rfl, rfl⟩
  | l :: items, vs, h => by
    obtain ⟨v, others, rfl, hl, hitems⟩ := h
    obtain ⟨n, hn, hmeans⟩ := exists_node known l hl
    obtain ⟨ms, hms, hheight, haliases, hothers⟩ := exists_items known items hitems
    refine ⟨⟨n, v.depth, 0⟩ :: ms, ?_, fun h => ?_, fun k => ?_, v, others, rfl, hmeans, hothers⟩
    · simp only [itemOutlines, Node.itemsOf?, hn, hms]
      rfl
    · rw [List.foldl_cons, hheight, Json.depthItems, Nat.max_assoc]
    · exact haliases k

theorem exists_fields (known : Node.Known) : (fields : List (Key × Layout)) →
    {es : List (String × Json)} → FieldsMean fields es →
    ∃ ms, Node.entriesOf? known (fieldOutlines fields) = some ms ∧
      (∀ h, ms.foldl (fun h e => max h (max e.1.height e.2.height)) h = max h (Json.depthFields es)) ∧
      (∀ n, ms.foldl (fun n e => n + e.1.aliases + e.2.aliases) n = n) ∧
      Node.EntriesMean (ms.map fun e => (e.1.node, e.2.node)) es
  | [], es, h => by
    obtain rfl := h
    exact ⟨[], rfl, fun h => (Nat.max_zero h).symm, fun _ => rfl, rfl⟩
  | (key, l) :: fields, es, h => by
    obtain ⟨v, others, rfl, hkey, hl, hfields⟩ := h
    obtain ⟨n, hn, hmeans⟩ := exists_node known l hl
    obtain ⟨ms, hms, hheight, haliases, hothers⟩ := exists_fields known fields hfields
    refine ⟨(⟨.scalar none key.plain key.text, 0, 0⟩, ⟨n, v.depth, 0⟩) :: ms, ?_, fun h => ?_,
      fun k => ?_, key.text, v, others, rfl, ⟨rfl, hkey⟩, hmeans, hothers⟩
    · simp only [fieldOutlines, Node.entriesOf?, Node.ofOutline?, hn, hms]
      rfl
    · rw [List.foldl_cons, hheight, Json.depthFields, Nat.zero_max, Nat.max_assoc]
    · exact haliases k

end

end Layout

end Workflow.Yaml
