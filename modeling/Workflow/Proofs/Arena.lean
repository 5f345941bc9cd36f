import Mathlib.Data.List.Induction
import Mathlib.Data.List.Nodup
import Mathlib.Data.List.Perm.Basic
import Workflow.Arena

/-!
# Cells of arenas

`Arena.Tidy` says that the filled cells and the freed cells are the numbers below their count, each
once. Every operation keeps an arena tidy, so the cell that is filled next never holds a value, and
`get?` finds every entry. In an arena from which nothing was erased (`Arena.Full`), the values by
cell and the values by age are listed in the order in which they were put in.
-/

namespace Workflow.Arena

variable {α : Type}

/-- The cells in use and the freed ones are the first numbers, each once. -/
def Tidy (a : Arena α) : Prop :=
  (a.entries.map Prod.fst ++ a.free).Perm (List.range (a.entries.length + a.free.length))

theorem tidy_empty : (empty : Arena α).Tidy := .refl _

namespace Tidy

variable {a : Arena α}

theorem nodup (h : a.Tidy) : (a.entries.map Prod.fst ++ a.free).Nodup :=
  h.nodup_iff.2 List.nodup_range

theorem nodup_cells (h : a.Tidy) : (a.entries.map Prod.fst).Nodup :=
  (List.nodup_append.1 h.nodup).1

theorem mem_cells_lt (h : a.Tidy) {i : Nat} (hi : i ∈ a.entries.map Prod.fst) :
    i < a.entries.length + a.free.length :=
  List.mem_range.1 (h.mem_iff.1 (List.mem_append_left _ hi))

theorem nextCell_not_mem (h : a.Tidy) : a.nextCell ∉ a.entries.map Prod.fst := by
  intro hmem
  cases hf : a.free with
  | nil =>
    have := h.mem_cells_lt hmem
    simp [nextCell, hf] at this
  | cons i free =>
    have hdisjoint := (List.nodup_append.1 h.nodup).2.2
    refine hdisjoint _ hmem a.nextCell ?_ rfl
    simp [nextCell, hf]

theorem insert (h : a.Tidy) (v : α) : (a.insert v).Tidy := by
  have hp : (a.entries.map Prod.fst ++ a.free).Perm _ := h
  rcases hf : a.free with _ | ⟨i, free⟩
  · rw [hf] at hp
    simp only [Tidy, Arena.insert, nextCell, hf, List.headD_nil, List.tail_nil, List.map_cons,
      List.length_cons, List.length_nil, Nat.add_zero, List.append_nil] at hp ⊢
    rw [List.range_succ]
    exact (List.Perm.cons _ hp).trans (List.perm_append_singleton ..).symm
  · rw [hf] at hp
    simp only [Tidy, Arena.insert, nextCell, hf, List.headD_cons, List.tail_cons, List.map_cons,
      List.length_cons] at hp ⊢
    rw [Nat.add_right_comm, Nat.add_assoc]
    exact List.perm_middle.symm.trans hp

theorem mem_entries_iff (h : a.Tidy) {i : Nat} {v : α} :
    (i, v) ∈ a.entries ↔ a.get? i = some v := by
  have hnd := h.nodup_cells
  unfold get?
  generalize a.entries = entries at hnd
  induction entries with
  | nil => simp
  | cons e entries ih =>
    rw [List.map_cons, List.nodup_cons] at hnd
    by_cases hi : e.1 = i
    · rw [List.find?_cons_of_pos (by simpa using hi), List.mem_cons]
      constructor
      · rintro (rfl | hmem)
        · rfl
        · exact absurd (hi ▸ List.mem_map_of_mem hmem) hnd.1
      · intro hv
        exact .inl (Prod.ext hi.symm (Option.some.inj hv).symm)
    · have ih' := ih hnd.2
      rw [List.find?_cons_of_neg (by simpa using hi), List.mem_cons]
      constructor
      · rintro (rfl | hmem)
        · exact absurd rfl hi
        · exact ih'.1 hmem
      · intro hv
        exact .inr (ih'.2 hv)

theorem get?_nextCell (h : a.Tidy) : a.get? a.nextCell = none := by
  rw [Option.eq_none_iff_forall_not_mem]
  intro v hv
  exact h.nextCell_not_mem (List.mem_map_of_mem (h.mem_entries_iff.2 hv))

theorem erase (h : a.Tidy) (i : Nat) : (a.erase i).Tidy := by
  unfold Arena.erase
  split
  next hi =>
    obtain ⟨v, hv⟩ := Option.isSome_iff_exists.1 hi
    have hmem : i ∈ a.entries.map Prod.fst := List.mem_map_of_mem (h.mem_entries_iff.2 hv)
    have hcells : ((a.entries.filter (·.1 ≠ i)).map Prod.fst)
        = (a.entries.map Prod.fst).erase i := by
      rw [h.nodup_cells.erase_eq_filter, List.filter_map]
      congr 2
      funext e
      simp [bne, beq_eq_decide]
    have hperm : (a.entries.map Prod.fst).Perm (i :: (a.entries.map Prod.fst).erase i) :=
      List.perm_cons_erase hmem
    have hlen : a.entries.length = (a.entries.filter (·.1 ≠ i)).length + 1 := by
      rw [← List.length_map Prod.fst, hperm.length_eq, ← hcells, List.length_cons, List.length_map]
    have hp : (a.entries.map Prod.fst ++ a.free).Perm _ := h
    rw [Tidy, hcells, List.length_cons]
    rw [hlen, Nat.add_assoc, Nat.add_comm 1] at hp
    exact List.perm_middle.trans ((hperm.symm.append_right a.free).trans hp)
  next => exact h

theorem modify (h : a.Tidy) (i : Nat) (f : α → α) : (a.modify i f).Tidy := by
  have hcells : (a.modify i f).entries.map Prod.fst = a.entries.map Prod.fst := by
    rw [Arena.modify, List.map_map]
    refine List.map_congr_left fun e _ => ?_
    by_cases hi : e.1 = i <;> simp [hi]
  rw [Tidy, hcells]
  simpa [Arena.modify] using (show List.Perm _ _ from h)

/-- No two entries have the same cell. -/
theorem eq_of_cell_eq (h : a.Tidy) {e f : Nat × α} (he : e ∈ a.entries) (hf : f ∈ a.entries)
    (hcell : e.1 = f.1) : e = f :=
  List.inj_on_of_nodup_map h.nodup_cells he hf hcell

end Tidy

theorem entries_erase (a : Arena α) (i : Nat) :
    (a.erase i).entries = a.entries.filter (·.1 ≠ i) := by
  unfold erase
  split
  next => rfl
  next hi =>
    -- A cell that holds nothing has no entry to remove.
    symm
    rw [List.filter_eq_self]
    intro e he
    refine decide_eq_true fun hcell => hi ?_
    rw [get?, Option.isSome_map, List.find?_isSome]
    exact ⟨e, he, decide_eq_true hcell⟩

/-- A cell that is freed loses its value, and no other cell does. -/
theorem Tidy.entries_perm_erase {a : Arena α} (h : a.Tidy) {i : Nat} {v : α}
    (hv : (i, v) ∈ a.entries) : a.entries.Perm ((i, v) :: (a.erase i).entries) := by
  classical
  rw [entries_erase]
  refine (List.perm_cons_erase hv).trans (.cons _ (.of_eq ?_))
  rw [(h.nodup_cells.of_map _).erase_eq_filter]
  refine List.filter_congr fun e he => ?_
  rw [Bool.eq_iff_iff, bne_iff_ne, decide_eq_true_eq]
  exact not_congr ⟨congrArg Prod.fst, fun heq => h.eq_of_cell_eq he hv heq⟩

/-- Freeing the cell of the first entry with a property removes that entry alone. -/
theorem Tidy.entries_erase_first {a : Arena α} (h : a.Tidy) {p : Nat × α → Bool} {x : Nat × α}
    (hx : a.entries.find? p = some x) : (a.erase x.1).entries = a.entries.eraseP p := by
  have hnd := h.nodup_cells
  rw [entries_erase]
  generalize a.entries = entries at hx hnd
  induction entries with
  | nil => cases hx
  | cons y entries ih =>
    obtain ⟨hnot, hnd⟩ := List.nodup_cons.1 hnd
    cases hp : p y with
    | true =>
      rw [List.find?_cons_of_pos hp] at hx
      cases hx
      rw [List.eraseP_cons_of_pos hp, List.filter_cons_of_neg (by simp), List.filter_eq_self]
      intro z hz
      exact decide_eq_true fun hcell => hnot (hcell ▸ List.mem_map_of_mem hz)
    | false =>
      rw [List.find?_cons_of_neg (by simp [hp])] at hx
      have hcell : y.1 ≠ x.1 := fun hcell =>
        hnot (hcell ▸ List.mem_map_of_mem (List.mem_of_find?_eq_some hx))
      rw [List.eraseP_cons_of_neg (by simp [hp]), List.filter_cons_of_pos (by simpa using hcell),
        ih hx hnd]

/-- Removing selected values leaves the entries of all others. -/
theorem Tidy.erase_select {a : Arena α} (h : a.Tidy) (p : α → Bool) :
    ((a.select p).foldr (fun e a => a.erase e.1) a).Tidy ∧
      ((a.select p).foldr (fun e a => a.erase e.1) a).entries
        = a.entries.filter fun e => !p e.2 := by
  have key : ∀ xs : List (Nat × α), (xs.foldr (fun e a => a.erase e.1) a).Tidy ∧
      (xs.foldr (fun e a => a.erase e.1) a).entries
        = a.entries.filter fun e => e.1 ∉ xs.map Prod.fst := by
    intro xs
    induction xs with
    | nil => exact ⟨h, by simp⟩
    | cons x xs ih =>
      refine ⟨ih.1.erase x.1, ?_⟩
      rw [List.foldr_cons, entries_erase, ih.2, List.filter_filter]
      refine List.filter_congr fun e _ => ?_
      simp only [List.map_cons, List.mem_cons, not_or, Bool.decide_and]
  refine ⟨(key _).1, (key _).2.trans (List.filter_congr fun e he => ?_)⟩
  -- A cell is selected exactly when the value in it is, because it holds no other value.
  have hmem : e.1 ∈ (a.select p).map Prod.fst ↔ p e.2 = true := by
    simp only [select, List.map_reverse, List.mem_reverse, List.mem_map, List.mem_filter]
    constructor
    · rintro ⟨f, ⟨hf, hp⟩, hcell⟩
      rwa [← h.eq_of_cell_eq hf he hcell]
    · exact fun hp => ⟨e, ⟨he, hp⟩, rfl⟩
  simp [hmem]

/-! ### Values in order -/

theorem insertByCell_append {e : Nat × α} {sorted acc : List (Nat × α)}
    (h : ∀ f ∈ acc, e.1 < f.1) : insertByCell e (sorted ++ acc) = insertByCell e sorted ++ acc := by
  induction sorted with
  | nil =>
    cases acc with
    | nil => rfl
    | cons f acc => simp [insertByCell, h f List.mem_cons_self]
  | cons g sorted ih =>
    rw [List.cons_append, insertByCell, insertByCell, ih]
    split <;> rfl

theorem mem_insertByCell {e f : Nat × α} {sorted : List (Nat × α)} :
    f ∈ insertByCell e sorted ↔ f = e ∨ f ∈ sorted := by
  induction sorted with
  | nil => simp [insertByCell]
  | cons g sorted ih =>
    rw [insertByCell]
    split
    · simp
    · rw [List.mem_cons, ih, List.mem_cons, or_left_comm]

theorem mem_foldl_insertByCell {f : Nat × α} {entries sorted : List (Nat × α)} :
    f ∈ entries.foldl (fun sorted e => insertByCell e sorted) sorted ↔
      f ∈ entries ∨ f ∈ sorted := by
  induction entries generalizing sorted with
  | nil => simp
  | cons e entries ih => rw [List.foldl_cons, ih, mem_insertByCell, List.mem_cons, or_left_comm,
      or_assoc]

theorem insertByCell_perm (e : Nat × α) (sorted : List (Nat × α)) :
    (insertByCell e sorted).Perm (e :: sorted) := by
  induction sorted with
  | nil => exact .refl _
  | cons f sorted ih =>
    rw [insertByCell]
    split
    · exact .refl _
    · exact (ih.cons f).trans (.swap e f sorted)

theorem listed_perm (a : Arena α) : a.listed.Perm a.entries := by
  have key : ∀ entries sorted : List (Nat × α),
      (entries.foldl (fun sorted e => insertByCell e sorted) sorted).Perm (entries ++ sorted) := by
    intro entries
    induction entries with
    | nil => exact fun sorted => .refl _
    | cons e entries ih =>
      intro sorted
      exact (ih _).trans (((insertByCell_perm e sorted).append_left entries).trans
        List.perm_middle)
  exact (key a.entries []).trans (.of_eq (List.append_nil _))

theorem mem_listed {a : Arena α} {e : Nat × α} : e ∈ a.listed ↔ e ∈ a.entries := by
  simp [listed, mem_foldl_insertByCell]

theorem foldl_insertByCell_append {entries sorted acc : List (Nat × α)}
    (h : ∀ e ∈ entries, ∀ f ∈ acc, e.1 < f.1) :
    entries.foldl (fun sorted e => insertByCell e sorted) (sorted ++ acc)
      = entries.foldl (fun sorted e => insertByCell e sorted) sorted ++ acc := by
  induction entries generalizing sorted with
  | nil => rfl
  | cons e entries ih =>
    rw [List.foldl_cons, List.foldl_cons, insertByCell_append (h e List.mem_cons_self),
      ih fun e he => h e (List.mem_cons_of_mem _ he)]

/-- Nothing was erased: the values stand in the first cells, in the order of their insertion. -/
structure Full (a : Arena α) (values : List α) : Prop where
  free : a.free = []
  entries : a.entries.reverse = values.zipIdx.map Prod.swap

namespace Full

variable {a : Arena α} {values : List α}

theorem empty : (Arena.empty : Arena α).Full [] := ⟨rfl, rfl⟩

theorem length_entries (h : a.Full values) : a.entries.length = values.length := by
  rw [← List.length_reverse, h.entries, List.length_map, List.length_zipIdx]

theorem nextCell (h : a.Full values) : a.nextCell = values.length := by
  rw [Arena.nextCell, h.free, h.length_entries]
  rfl

theorem insert (h : a.Full values) (v : α) : (a.insert v).Full (values ++ [v]) where
  free := by rw [Arena.insert, h.free]; rfl
  entries := by
    rw [Arena.insert, List.reverse_cons, h.entries, h.nextCell, List.zipIdx_append]
    simp

theorem size (h : a.Full values) : a.size = values.length := h.length_entries

theorem tidy (h : a.Full values) : a.Tidy := by
  have hcells : a.entries.reverse.map Prod.fst = List.range values.length := by
    rw [h.entries, List.map_map]
    exact List.zipIdx_map_snd 0 values ▸ List.range_eq_range'.symm
  rw [Tidy, h.free, List.append_nil, List.length_nil, Nat.add_zero, h.length_entries, ← hcells,
    List.map_reverse]
  exact (List.reverse_perm _).symm

theorem listed_eq (h : a.Full values) : a.listed = values.zipIdx.map Prod.swap := by
  have key : ∀ (n : Nat) (values : List α),
      ((values.zipIdx n).map Prod.swap).reverse.foldl
          (fun sorted e => insertByCell e sorted) []
        = (values.zipIdx n).map Prod.swap := by
    intro n values
    induction values using List.reverseRecOn with
    | nil => rfl
    | append_singleton values v ih =>
      rw [List.zipIdx_append, List.map_append, List.reverse_append, List.foldl_append]
      have hlast : ∀ e ∈ ((values.zipIdx n).map Prod.swap).reverse,
          ∀ f ∈ ([v].zipIdx (n + values.length)).map Prod.swap, e.1 < f.1 := ?_
      · exact (foldl_insertByCell_append hlast).trans (congrArg (· ++ _) ih)
      intro e he f hf
      simp only [List.mem_reverse, List.mem_map, List.zipIdx_singleton, List.mem_singleton] at he hf
      obtain ⟨⟨x, i⟩, hx, rfl⟩ := he
      obtain ⟨_, rfl, rfl⟩ := hf
      exact (List.mem_zipIdx hx).2.1
  rw [listed, ← List.reverse_reverse a.entries, h.entries, key]

theorem toList_eq (h : a.Full values) : a.toList = values := by
  rw [toList, h.listed_eq, List.map_map]
  exact List.zipIdx_map_fst 0 values

end Full

end Workflow.Arena
