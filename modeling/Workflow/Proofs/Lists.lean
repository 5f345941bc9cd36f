import Mathlib.Data.List.Forall2
import Mathlib.Data.List.Nodup
import Mathlib.Data.List.Perm.Subperm
import Mathlib.Data.List.Sort

/-!
# Lists

Lists that match entry by entry, lists of which one entry counts, and lists of which the first
entries are changed.
-/

/-- When a list is filtered down to what one of its entries gives. -/
theorem List.filterMap_eq_toList {α β : Type} {f : α → Option β} {l : List α} (hnd : l.Nodup)
    {a : α} (ha : a ∈ l) (h : ∀ x ∈ l, x ≠ a → f x = none) : l.filterMap f = (f a).toList := by
  induction l with
  | nil => cases ha
  | cons x rest ih =>
    obtain ⟨hnot, hnd⟩ := List.nodup_cons.1 hnd
    rw [List.filterMap_cons]
    rcases List.mem_cons.1 ha with rfl | ha
    · have hrest : rest.filterMap f = [] := List.filterMap_eq_nil_iff.2 fun x hx =>
        h x (List.mem_cons_of_mem _ hx) fun he => hnot (he ▸ hx)
      rw [hrest]
      cases f a <;> rfl
    · have hne : x ≠ a := fun he => hnot (he ▸ ha)
      rw [h x List.mem_cons_self hne]
      exact ih hnd ha fun y hy => h y (List.mem_cons_of_mem _ hy)

theorem List.exists_eq_map_some {α : Type} {l : List (Option α)} (h : none ∉ l) :
    ∃ as : List α, l = as.map some := by
  induction l with
  | nil => exact ⟨[], rfl⟩
  | cons a? rest ih =>
    obtain ⟨hne, hrest⟩ := not_or.1 (List.mem_cons.not.1 h)
    obtain ⟨as, rfl⟩ := ih hrest
    obtain ⟨a, rfl⟩ := Option.ne_none_iff_exists'.1 (Ne.symm hne)
    exact ⟨a :: as, rfl⟩

namespace List.Forall₂

variable {α β : Type} {R : α → β → Prop} {as : List α} {bs : List β}

/-- Items that each have a partner have a list of partners. -/
theorem exists_of_forall_exists (h : ∀ a ∈ as, ∃ b, R a b) : ∃ bs, Forall₂ R as bs := by
  induction as with
  | nil => exact ⟨[], .nil⟩
  | cons a as ih =>
    obtain ⟨⟨b, hb⟩, hrest⟩ := List.forall_mem_cons.1 h
    obtain ⟨bs, hbs⟩ := ih hrest
    exact ⟨b :: bs, .cons hb hbs⟩

theorem exists_of_mem_left (h : Forall₂ R as bs) {a : α} (ha : a ∈ as) : ∃ b ∈ bs, R a b := by
  induction h with
  | nil => cases ha
  | cons hab _ ih =>
    rcases List.mem_cons.1 ha with rfl | ha
    · exact ⟨_, List.mem_cons_self, hab⟩
    · obtain ⟨b, hb, h⟩ := ih ha
      exact ⟨b, List.mem_cons_of_mem _ hb, h⟩

theorem exists_of_mem_right (h : Forall₂ R as bs) {b : β} (hb : b ∈ bs) : ∃ a ∈ as, R a b :=
  h.flip.exists_of_mem_left hb

theorem imp_mem (h : Forall₂ R as bs) {S : α → β → Prop}
    (hrs : ∀ a ∈ as, ∀ b, R a b → S a b) : Forall₂ S as bs := by
  induction h with
  | nil => exact .nil
  | @cons a b as bs hab _ ih =>
    exact .cons (hrs a List.mem_cons_self b hab)
      (ih fun a ha => hrs a (List.mem_cons_of_mem _ ha))

/-- Removing a value removes the first entry that stands for it. -/
theorem eraseP_erase [DecidableEq β] {f : α → Option β}
    (h : Forall₂ (fun a b => f a = some b) as bs) (b : β) :
    Forall₂ (fun a b => f a = some b) (as.eraseP fun a => f a = some b) (bs.erase b) := by
  induction h with
  | nil => exact .nil
  | @cons a c as bs hac hrest ih =>
    by_cases hc : c = b
    · rw [hc, List.erase_cons_head, List.eraseP_cons_of_pos (by simp [hac, hc])]
      exact hrest
    · rw [List.erase_cons_tail (by simpa using hc), List.eraseP_cons_of_neg (by simp [hac, hc])]
      exact .cons hac ih

theorem filterMap_eq {f : α → Option β} (h : Forall₂ (fun a b => f a = some b) as bs) :
    as.filterMap f = bs := by
  induction h with
  | nil => rfl
  | cons hab _ ih => rw [List.filterMap_cons, hab, ih]

/-- Matching lists match after they were filtered alike. -/
theorem filter (h : Forall₂ R as bs) {p : α → Bool} {q : β → Bool}
    (hpq : ∀ a ∈ as, ∀ b, R a b → p a = q b) : Forall₂ R (as.filter p) (bs.filter q) := by
  induction h with
  | nil => exact .nil
  | @cons a b as bs hab _ ih =>
    have ih := ih fun a ha => hpq a (List.mem_cons_of_mem _ ha)
    rw [List.filter_cons, List.filter_cons, hpq a List.mem_cons_self b hab]
    split
    · exact .cons hab ih
    · exact ih

/-- What two sorted lists of keys stand for matches when it does so key by key. -/
theorem flatMap_sorted {κ : Type} {lt : κ → κ → Prop} [Std.Irrefl lt] [Std.Antisymm lt]
    {ks ls : List κ} (hks : ks.Pairwise lt) (hls : ls.Pairwise lt) {F : κ → List α}
    {G : κ → List β} (hF : ∀ k, F k ≠ [] → k ∈ ks) (hG : ∀ k, G k ≠ [] → k ∈ ls)
    (h : ∀ k, Forall₂ R (F k) (G k)) : Forall₂ R (ks.flatMap F) (ls.flatMap G) := by
  have hskip : ∀ {γ : Type} (H : κ → List γ) (ms : List κ),
      (ms.filter fun m => H m ≠ []).flatMap H = ms.flatMap H := by
    intro γ H ms
    induction ms with
    | nil => rfl
    | cons m rest ih =>
      by_cases hm : H m = []
      · rw [List.filter_cons_of_neg (by simpa using hm), List.flatMap_cons, hm, List.nil_append, ih]
      · rw [List.filter_cons_of_pos (by simpa using hm), List.flatMap_cons, List.flatMap_cons, ih]
  have hsame : (ks.filter fun k => F k ≠ []) = ls.filter fun k => G k ≠ [] := by
    refine (hks.filter _).eq_of_mem_iff (hls.filter _) fun k => ?_
    have hnil : F k = [] ↔ G k = [] := by
      rw [← List.length_eq_zero_iff, (h k).length_eq, List.length_eq_zero_iff]
    simp only [List.mem_filter, decide_eq_true_eq, ne_eq, hnil]
    exact and_congr_left fun hne => iff_of_true (hF k (hnil.not.2 hne)) (hG k hne)
  rw [← hskip F, ← hskip G, hsame]
  refine List.rel_flatMap (R := Eq) (List.forall₂_same.2 fun _ _ => rfl) ?_
  rintro k _ rfl
  exact h k

end List.Forall₂

/-- Taking out of a list, one by one, its entries with a property leaves the others. -/
theorem List.diff_eq_filter_not {α : Type} [DecidableEq α] {l ds : List α} {p : α → Bool}
    (h : ds.Perm (l.filter p)) : l.diff ds = l.filter fun a => !p a := by
  rw [h.diff_left l]
  clear h
  induction l with
  | nil => exact List.nil_diff _
  | cons a l ih =>
    cases hp : p a with
    | true =>
      rw [List.filter_cons_of_pos hp, List.filter_cons_of_neg (by simp [hp]), List.diff_cons,
        List.erase_cons_head, ih]
    | false =>
      have hnot : a ∉ l.filter p := fun ha => by simp [hp] at ha
      rw [List.filter_cons_of_neg (by simp [hp]), List.filter_cons_of_pos (by simp [hp]),
        List.cons_diff_of_not_mem hnot, ih]

/-- One element has only one order. -/
theorem List.Perm.eq_of_length_le_one {α : Type} {l l' : List α} (h : l.Perm l')
    (hlength : l'.length ≤ 1) : l = l' := by
  rcases l' with _ | ⟨a, _ | ⟨b, rest⟩⟩
  · exact h.eq_nil
  · exact List.perm_singleton.1 h
  · simp at hlength

/-! ### The first items -/

/-- The list with its first `n` items changed. -/
def List.mapFirst {α : Type} (n : Nat) (f : α → α) (l : List α) : List α :=
  (l.take n).map f ++ l.drop n

namespace List

variable {α : Type} {n i : Nat} {f : α → α} {l : List α}

theorem mapFirst_nil (n : Nat) (f : α → α) : ([] : List α).mapFirst n f = [] := by
  simp [mapFirst]

theorem mapFirst_cons (n : Nat) (f : α → α) (a : α) (l : List α) :
    (a :: l).mapFirst (n + 1) f = f a :: l.mapFirst n f := rfl

theorem length_mapFirst (n : Nat) (f : α → α) (l : List α) : (l.mapFirst n f).length = l.length := by
  rw [mapFirst, length_append, length_map, ← length_append, take_append_drop]

theorem mapFirst_of_length_le (h : l.length ≤ n) : l.mapFirst n f = l.map f := by
  rw [mapFirst, take_of_length_le h, drop_eq_nil_of_le h, append_nil]

/-- More items than there are cannot be changed. -/
theorem mapFirst_min (n : Nat) (f : α → α) (l : List α) :
    l.mapFirst (min l.length n) f = l.mapFirst n f := by
  rcases Nat.le_total l.length n with h | h
  · rw [Nat.min_eq_left h, mapFirst_of_length_le (Nat.le_refl _), mapFirst_of_length_le h]
  · rw [Nat.min_eq_right h]

theorem mapFirst_congr {g : α → α} (h : ∀ a ∈ l.take n, f a = g a) :
    l.mapFirst n f = l.mapFirst n g := by
  rw [mapFirst, map_congr_left h, mapFirst]

theorem mapFirst_eq_self (h : ∀ a ∈ l.take n, f a = a) : l.mapFirst n f = l := by
  rw [mapFirst, List.map_congr_left h, List.map_id'', List.take_append_drop]
  exact fun _ => rfl

/-- What the changes of items do not tell apart is the same of all items. -/
theorem map_mapFirst_of_fixed {β : Type} {g : α → β} (h : ∀ a ∈ l.take n, g (f a) = g a) :
    (l.mapFirst n f).map g = l.map g := by
  have hfirst : (l.take n).map (g ∘ f) = (l.take n).map g := map_congr_left h
  rw [mapFirst, map_append, map_map, hfirst, ← map_append, take_append_drop]

theorem take_mapFirst (n : Nat) (f : α → α) (l : List α) :
    (l.mapFirst n f).take n = (l.take n).map f := by
  rcases Nat.le_total n l.length with h | h
  · rw [mapFirst, take_left' (by rw [length_map, length_take, Nat.min_eq_left h])]
  · rw [mapFirst_of_length_le h, take_of_length_le (by rwa [length_map]), take_of_length_le h]

theorem drop_mapFirst (n : Nat) (f : α → α) (l : List α) : (l.mapFirst n f).drop n = l.drop n := by
  rcases Nat.le_total n l.length with h | h
  · rw [mapFirst, drop_left' (by rw [length_map, length_take, Nat.min_eq_left h])]
  · rw [mapFirst_of_length_le h, drop_eq_nil_of_le (by rwa [length_map]), drop_eq_nil_of_le h]

theorem mapFirst_mapFirst (n : Nat) (f g : α → α) (l : List α) :
    (l.mapFirst n g).mapFirst n f = l.mapFirst n fun a => f (g a) := by
  rw [mapFirst, take_mapFirst, drop_mapFirst, map_map]
  rfl

/-- A change of all items that commutes with the one of the first ones. -/
theorem mapFirst_map {g : α → α} (h : ∀ a, f (g a) = g (f a)) (n : Nat) (l : List α) :
    (l.map g).mapFirst n f = (l.mapFirst n f).map g := by
  rw [mapFirst, mapFirst, ← map_take, ← map_drop, map_append, map_map, map_map]
  congr 1
  exact map_congr_left fun a _ => h a

theorem getElem?_mapFirst (h : i < n) : (l.mapFirst n f)[i]? = l[i]?.map f := by
  induction l generalizing n i with
  | nil => simp [mapFirst]
  | cons a l ih =>
    obtain ⟨m, rfl⟩ := Nat.exists_eq_add_one_of_ne_zero (Nat.ne_of_gt (Nat.zero_lt_of_lt h))
    rw [mapFirst_cons]
    cases i with
    | zero => rfl
    | succ i => exact ih (Nat.lt_of_succ_lt_succ h)

theorem getElem?_mapFirst_of_le (h : n ≤ i) : (l.mapFirst n f)[i]? = l[i]? := by
  rw [← Nat.add_sub_cancel' h, ← getElem?_drop, drop_mapFirst, getElem?_drop]

theorem mapFirst_set (h : i < n) (b : α) :
    (l.set i b).mapFirst n f = (l.mapFirst n f).set i (f b) := by
  induction l generalizing n i with
  | nil => simp [mapFirst]
  | cons a l ih =>
    obtain ⟨m, rfl⟩ := Nat.exists_eq_add_one_of_ne_zero (Nat.ne_of_gt (Nat.zero_lt_of_lt h))
    cases i with
    | zero => rfl
    | succ i =>
      rw [set_cons_succ, mapFirst_cons, mapFirst_cons, set_cons_succ,
        ih (Nat.lt_of_succ_lt_succ h)]

end List
