import Workflow.Proofs.Json.Holds
import Workflow.Proofs.Yaml.Outlined

/-!
# YAML data that holds a value

A part of a YAML document holds the value that its node means, so records are read from it as from any
other data. The text of a layout of a value is read as such a part (`Layout.exists_ofText?`).
-/

namespace Workflow.Yaml

open Node (Means ItemsMean EntriesMean)

namespace Part

theorem forall₂_itemsFrom (p : Part) (position : Nat) {items : List Node} {vs : List Json}
    (h : ItemsMean items vs) :
    List.Forall₂ (fun q v => q.node.Means v) (p.itemsFrom position items) vs := by
  induction items generalizing position vs with
  | nil =>
    obtain rfl := h
    exact .nil
  | cons n rest ih =>
    obtain ⟨v, others, rfl, hn, hrest⟩ := h
    exact .cons hn (ih (position + 1) hrest)

theorem forall₂_entries (p : Part) {entries : List (Node × Node)} {es : List (String × Json)}
    (h : EntriesMean entries es) :
    List.Forall₂ (fun q e => q.1 = .ok e.1 ∧ q.2.node.Means e.2)
      (entries.map fun e => (p.text "field identifier" e.1, p.field e.1 e.2)) es := by
  induction entries generalizing es with
  | nil =>
    obtain rfl := h
    exact .nil
  | cons e rest ih =>
    obtain ⟨key, v, others, rfl, hk, hn, hrest⟩ := h
    obtain ⟨k, n⟩ := e
    obtain ⟨plain, rfl, -⟩ := hk.of_str
    exact .cons ⟨rfl, hn⟩ (ih hrest)

/-- An unquoted scalar that is written as nothing, or as null, means null. -/
theorem present?_eq {p : Part} {v : Json} (h : p.node.Means v) (hv : v ≠ .null) :
    p.present? = .ok (some p) := by
  obtain ⟨_ | _ | _ | _, place, parent⟩ := p
  case scalar tag plain text =>
    obtain ⟨rfl, hscalar⟩ := h
    cases plain with
    | false => rfl
    | true =>
      have hnot : ¬(text.isEmpty || Scalar.isNull text.toList) = true := by
        intro hnull
        have hresolve : Scalar.resolve text = .null := by
          rcases Bool.or_eq_true_iff.1 hnull with hempty | hnull
          · rw [String.isEmpty_iff.1 hempty]
            rfl
          · simp only [Scalar.resolve, hnull, Bool.or_true, if_true]
        have hmeans : (Scalar.resolve text |> scalarJson?) = some v := hscalar
        rw [hresolve] at hmeans
        exact hv (Option.some.inj hmeans).symm
      exact congrArg Except.ok (if_neg hnot)
  case seq => rfl
  case map => rfl
  exact h.elim

end Part

instance : JsonSource Part where
  Holds p v := p.node.Means v
  string := by
    rintro ⟨n, place, parent⟩ s h
    obtain ⟨plain, rfl, -⟩ := Means.of_str h
    rfl
  present? := Part.present?_eq
  items := by
    rintro ⟨_ | _ | _ | _, place, parent⟩ vs h
    · exact absurd h.2.not_container.2 (by simp [Json.depth])
    · obtain ⟨rfl, vs', hvs, hitems⟩ := h
      obtain rfl := Json.arr.inj hvs
      exact ⟨_, rfl, Part.forall₂_itemsFrom _ 0 hitems⟩
    · obtain ⟨-, es, hes, -⟩ := h
      cases hes
    · exact h.elim
  entries := by
    rintro ⟨_ | _ | _ | _, place, parent⟩ es expected h
    · exact absurd h.2.not_container.2 (by simp [Json.depth])
    · obtain ⟨-, vs, hvs, -⟩ := h
      cases hvs
    · obtain ⟨rfl, es', hes, hentries⟩ := h
      obtain rfl := Json.obj.inj hes
      exact ⟨_, rfl, Part.forall₂_entries _ hentries⟩
    · exact h.elim
  json := by
    rintro p v h hv
    have hjson := Part.json_eq p.place p.node h
    rwa [Json.merged_of_keyed hv] at hjson
  held := by
    rintro p v h hv
    have hheld := Part.heldJson_eq p.node h
    rw [Json.merged_of_keyed hv] at hheld
    exact Except.bind_eq_ok_iff.2 ⟨(), Part.untagged_eq p.place p.node h, congrArg Except.ok hheld⟩
  variant := by
    rintro ⟨n, place, parent⟩ s names h hs
    obtain ⟨plain, rfl, -⟩ := Means.of_str h
    exact if_pos hs

/-- The text of a layout of a value is that of a node of the value, unless the value is nested too
deep. -/
theorem Layout.exists_ofText? {l : Layout} {v : Json} (hfits : l.Fits 0 0) (hmeans : l.Means v)
    (hblock : ∀ written a, l ≠ .atom written a) (hallowed : ∀ ch ∈ l.text 0, isAllowed ch = true)
    (hdepth : v.depth ≤ Node.heightLimit) :
    ∃ n, Node.ofText? (String.ofList (l.text 0)) = some (some n) ∧ n.Means v := by
  obtain ⟨n, hn, hnode⟩ := exists_node [] l hmeans
  refine ⟨n, ?_, hnode⟩
  have hknown : Node.ofOutline? (Node.extendAll [] 0 []) l.outline = some ⟨n, v.depth, 0⟩ := hn
  rw [Node.ofText?, ofText?_text hfits hblock hallowed, Option.bind_some, Node.ofTokens?,
    ofTokens?_tokens hmeans]
  simp only [Option.bind_eq_bind, Option.bind_some, List.length_nil, hknown, Nat.not_lt_zero, or_false]
  exact if_neg (Nat.not_lt.2 hdepth)

end Workflow.Yaml
