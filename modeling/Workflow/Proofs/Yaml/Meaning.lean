import Workflow.Proofs.Except
import Workflow.Proofs.Json.Keyed
import Workflow.Yaml.Source

/-!
# Nodes of values

A node without tags and aliases means a value when its scalars do (`Node.Means`). Read as plain data it
is that value with its records merged, also when it is kept aside (`Part.json_eq`, `Part.heldJson_eq`).
-/

namespace Workflow.Yaml

namespace Scalar

theorem integer?_ne_str (text : List Char) (s : String) : integer? text ≠ some (.str s) := by
  unfold integer?
  grind

/-- An unquoted scalar that is read as a string is that string. -/
theorem eq_of_resolve {text s : String} (h : resolve text = .str s) : text = s := by
  unfold resolve at h
  dsimp only at h
  split at h
  · cases h
  · split at h
    · cases h
    · split at h
      next n hn =>
        subst h
        exact absurd hn (integer?_ne_str _ s)
      · split at h
        · exact Scalar.str.inj h
        · split at h
          · cases h
          · exact Scalar.str.inj h

end Scalar

namespace Node

/-- A scalar that means a value. -/
def ScalarMeans (plain : Bool) (text : String) (v : Json) : Prop :=
  (meaning? none plain text).bind Part.scalarJson? = some v

theorem ScalarMeans.of_str {plain : Bool} {text s : String} (h : ScalarMeans plain text (.str s)) :
    meaning? none plain text = some (.str s) ∧ text = s := by
  obtain ⟨scalar, hmeaning, hjson⟩ := Option.bind_eq_some_iff.1 h
  obtain rfl : scalar = .str s := by
    cases scalar with
    | float x => cases x <;> cases hjson
    | str t => exact congrArg Scalar.str (Json.str.inj (Option.some.inj hjson))
    | _ => cases hjson
  refine ⟨hmeaning, ?_⟩
  cases plain with
  | true => exact Scalar.eq_of_resolve (Option.some.inj hmeaning)
  | false => exact Scalar.str.inj (Option.some.inj hmeaning)

/-- A scalar is no container, so there are no records in it to merge. -/
theorem ScalarMeans.not_container {plain : Bool} {text : String} {v : Json}
    (h : ScalarMeans plain text v) : v.merged = v ∧ v.depth = 0 := by
  obtain ⟨scalar, -, hjson⟩ := Option.bind_eq_some_iff.1 h
  cases scalar with
  | float x => cases x <;> (obtain rfl := Option.some.inj hjson; exact ⟨rfl, rfl⟩)
  | wide n => cases hjson
  | _ =>
    obtain rfl := Option.some.inj hjson
    exact ⟨rfl, rfl⟩

mutual

/-- A node of a value. -/
def Means : Node → Json → Prop
  | .scalar tag plain text, v => tag = none ∧ ScalarMeans plain text v
  | .seq tag items, v => tag = none ∧ ∃ vs, v = .arr vs ∧ ItemsMean items vs
  | .map tag entries, v => tag = none ∧ ∃ es, v = .obj es ∧ EntriesMean entries es
  | .alias _, _ => False

/-- Nodes of list items. -/
def ItemsMean : List Node → List Json → Prop
  | [], vs => vs = []
  | n :: rest, vs => ∃ v others, vs = v :: others ∧ n.Means v ∧ ItemsMean rest others

/-- Nodes of record entries. -/
def EntriesMean : List (Node × Node) → List (String × Json) → Prop
  | [], es => es = []
  | (k, n) :: rest, es => ∃ key v others, es = (key, v) :: others ∧ k.Means (.str key) ∧ n.Means v ∧
      EntriesMean rest others

end

/-- A node of a string is a scalar with that text. -/
theorem Means.of_str {n : Node} {s : String} (h : n.Means (.str s)) :
    ∃ plain, n = .scalar none plain s ∧ meaning? none plain s = some (.str s) := by
  rcases n with ⟨tag, plain, text⟩ | _ | _ | _
  · obtain ⟨rfl, h⟩ := h
    obtain ⟨hmeaning, rfl⟩ := h.of_str
    exact ⟨plain, rfl, hmeaning⟩
  all_goals exact absurd h (by simp [Means])

end Node

namespace Part

open Node (Means ItemsMean EntriesMean)

mutual

theorem json_eq (place : Option String) : (n : Node) → {v : Json} → n.Means v →
    json place n = .ok v.merged
  | .scalar tag plain text, v, h => by
    obtain ⟨rfl, hv⟩ := h
    have hscalar : (Node.meaning? none plain text).bind scalarJson? = some v := hv
    rw [json, hscalar, hv.not_container.1]
    rfl
  | .seq tag items, v, h => by
    obtain ⟨rfl, vs, rfl, hitems⟩ := h
    show (Json.arr <$> jsonItems place 0 items : Except Complaint Json) = _
    rw [jsonItems_eq place 0 items hitems]
    rfl
  | .map tag entries, v, h => by
    obtain ⟨rfl, es, rfl, hentries⟩ := h
    show (Json.obj <$> jsonFields place [] entries : Except Complaint Json) = _
    rw [jsonFields_eq place [] entries hentries]
    rfl
  | .alias n, v, h => h.elim

theorem jsonItems_eq (place : Option String) (position : Nat) : (items : List Node) →
    {vs : List Json} → ItemsMean items vs → jsonItems place position items = .ok (Json.mergedItems vs)
  | [], vs, h => by
    obtain rfl := h
    rfl
  | n :: rest, vs, h => by
    obtain ⟨v, others, rfl, hn, hrest⟩ := h
    rw [jsonItems, json_eq _ n hn, jsonItems_eq place (position + 1) rest hrest]
    rfl

theorem jsonFields_eq (place : Option String) (acc : Fields) : (entries : List (Node × Node)) →
    {es : List (String × Json)} → EntriesMean entries es →
    jsonFields place acc entries = .ok (Json.mergedFields acc es)
  | [], es, h => by
    obtain rfl := h
    rfl
  | (k, n) :: rest, es, h => by
    obtain ⟨key, v, others, rfl, hk, hn, hrest⟩ := h
    obtain ⟨plain, rfl, -⟩ := hk.of_str
    rw [jsonFields, Json.mergedFields, ← jsonFields_eq place (acc.insert key v.merged) rest hrest]
    show (json _ n >>= _) = _
    rw [json_eq _ n hn]
    rfl

end

mutual

theorem untagged_eq (place : Option String) : (n : Node) → {v : Json} → n.Means v →
    untagged place n = .ok ()
  | .scalar tag plain text, v, h => by
    obtain ⟨rfl, hv⟩ := h
    have hscalar : (Node.meaning? none plain text).bind scalarJson? = some v := hv
    rw [untagged, hscalar]
    rfl
  | .seq tag items, v, h => by
    obtain ⟨rfl, vs, rfl, hitems⟩ := h
    exact untaggedItems_eq place 0 items hitems
  | .map tag entries, v, h => by
    obtain ⟨rfl, es, rfl, hentries⟩ := h
    exact untaggedFields_eq place entries hentries
  | .alias n, v, h => h.elim

theorem untaggedItems_eq (place : Option String) (position : Nat) : (items : List Node) →
    {vs : List Json} → ItemsMean items vs → untaggedItems place position items = .ok ()
  | [], _, _ => rfl
  | n :: rest, vs, h => by
    obtain ⟨v, others, rfl, hn, hrest⟩ := h
    rw [untaggedItems, untagged_eq _ n hn]
    exact untaggedItems_eq place (position + 1) rest hrest

theorem untaggedFields_eq (place : Option String) : (entries : List (Node × Node)) →
    {es : List (String × Json)} → EntriesMean entries es → untaggedFields place entries = .ok ()
  | [], _, _ => rfl
  | (k, n) :: rest, es, h => by
    obtain ⟨key, v, others, rfl, hk, hn, hrest⟩ := h
    rw [untaggedFields, untagged_eq _ k hk, untagged_eq _ n hn]
    exact untaggedFields_eq place rest hrest

end

mutual

theorem heldJson_eq : (n : Node) → {v : Json} → n.Means v → heldJson n = .ok v.merged
  | .scalar tag plain text, v, h => by
    obtain ⟨rfl, hv⟩ := h
    have hscalar : (Node.meaning? none plain text).bind scalarJson? = some v := hv
    rw [heldJson, hscalar, hv.not_container.1]
    rfl
  | .seq tag items, v, h => by
    obtain ⟨rfl, vs, rfl, hitems⟩ := h
    rw [heldJson, heldItems_eq items hitems]
    rfl
  | .map tag entries, v, h => by
    obtain ⟨rfl, es, rfl, hentries⟩ := h
    rw [heldJson, heldFields_eq [] entries hentries]
    rfl
  | .alias n, v, h => h.elim

theorem heldItems_eq : (items : List Node) → {vs : List Json} → ItemsMean items vs →
    heldItems items = .ok (Json.mergedItems vs)
  | [], vs, h => by
    obtain rfl := h
    rfl
  | n :: rest, vs, h => by
    obtain ⟨v, others, rfl, hn, hrest⟩ := h
    rw [heldItems, heldJson_eq n hn, heldItems_eq rest hrest]
    rfl

theorem heldFields_eq (acc : Fields) : (entries : List (Node × Node)) →
    {es : List (String × Json)} → EntriesMean entries es →
    heldFields acc entries = .ok (Json.mergedFields acc es)
  | [], es, h => by
    obtain rfl := h
    rfl
  | (k, n) :: rest, es, h => by
    obtain ⟨key, v, others, rfl, hk, hn, hrest⟩ := h
    obtain ⟨plain, rfl, hmeaning⟩ := hk.of_str
    have hfound : found? (.scalar none plain key) = some (.str key) := by
      simp only [found?, Node.target, hmeaning]
    rw [heldFields, hfound, Json.mergedFields, ← heldFields_eq (acc.insert key v.merged) rest hrest]
    show (heldJson n >>= _) = _
    rw [heldJson_eq n hn]
    rfl

end

end Part

end Workflow.Yaml
