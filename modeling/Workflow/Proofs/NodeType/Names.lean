import Workflow.Proofs.Compile.Expansion
import Workflow.Proofs.NodeType.Normal

/-!
# Names that are taken out and written back

Fields lose their names when they become a form (`TransitionRule.edits_strip`), and the names are
written again when the form becomes fields (`TransitionRule.writeAll_held`). What is lost on the way
is what is no name in the place of one (`TransitionRule.onlyNames`).
-/

namespace Workflow

/-- A name stays; no other value is one. -/
def Json.nameOnly : Json → Option Json
  | .str name => some (.str name)
  | _ => none

theorem Json.bind_nameOnly (v? : Option Json) :
    v?.bind Json.nameOnly = (v?.bind Json.str?).map Json.str := by
  cases v? with
  | none => rfl
  | some v => cases v <;> rfl

theorem Json.keyed_of_bind_nameOnly {v? : Option Json} {w : Json}
    (h : v?.bind Json.nameOnly = some w) : w.Keyed := by
  rw [Json.bind_nameOnly] at h
  obtain ⟨name, -, rfl⟩ := Option.map_eq_some_iff.1 h
  trivial

namespace TransitionSlot

/-- An entry of a list without what is no name in the place of its name. -/
def onlyName : Json → Json := Json.onRecord (Fields.alter Json.nameOnly transitionKey)

/-- An entry of a list with a name. -/
def withName : Option String → Json → Json
  | some name, .obj entry => .obj (Fields.insert entry transitionKey (.str name))
  | _, v => v

theorem clearEntry_eq : clearEntry = Json.onRecord (Fields.erase · transitionKey) := by
  funext v
  cases v <;> rfl

end TransitionSlot

namespace TransitionRule

open TransitionSlot

/-- The keys of the fixed slots. -/
def fixedKeys (r : TransitionRule) : List String := r.fixed.filterMap TransitionSlot.key?

theorem nodup_fixedKeys (r : TransitionRule) : r.fixedKeys.Nodup := by
  cases r <;> decide

theorem list_not_mem_fixedKeys {r : TransitionRule} {list : String} (h : r.list? = some list) :
    list ∉ r.fixedKeys := by
  cases r <;> cases h <;> decide

theorem mem_ownKeys_of_list? {r : TransitionRule} {list : String} (h : r.list? = some list) :
    list ∈ r.ownKeys :=
  List.mem_append_right _ (by rw [h]; exact List.mem_cons_self)

theorem mem_ownKeys_iff {r : TransitionRule} {key : String} :
    key ∈ r.ownKeys ↔ key ∈ r.fixedKeys ∨ r.list? = some key := by
  rw [ownKeys, List.mem_append, Option.mem_toList]
  rfl

theorem nodup_ownKeys (r : TransitionRule) : r.ownKeys.Nodup := by
  cases r <;> decide

/-- The fields without what is no name in the places of names. -/
def onlyNames (r : TransitionRule) (fields : Fields) : Fields :=
  let fixed := r.fixedKeys.foldl (fun acc key => acc.alter Json.nameOnly key) fields
  match r.list? with
  | some list => changeItems (List.map onlyName) fixed list
  | none => fixed

/-- A change of the places of names and of nothing else: `value` says what becomes of the value of a
fixed slot, and `entry` what becomes of an entry of the list. -/
structure Edits (r : TransitionRule) (value : Json → Option Json) (entry : Json → Json)
    (fields result : Fields) : Prop where
  nodup : result.keys.Nodup
  fixed : ∀ k ∈ r.fixedKeys, result.get? k = (fields.get? k).bind value
  list : ∀ k, r.list? = some k → result.get? k = (fields.get? k).map (Json.onItems entry)
  other : ∀ k, k ∉ r.ownKeys → result.get? k = fields.get? k

theorem edits_of_steps (r : TransitionRule) (value : Json → Option Json) (entry : Json → Json)
    {fields : Fields} (step : Fields → String → Fields) (hnd : fields.keys.Nodup)
    (hstep : ∀ (mid : Fields) (k : String), mid.keys.Nodup →
      mid.Puts k ((mid.get? k).bind value) (step mid k)) :
    r.Edits value entry fields (match r.list? with
      | some list => changeItems (List.map entry) (r.fixedKeys.foldl step fields) list
      | none => r.fixedKeys.foldl step fields) := by
  have hkeys : (r.fixedKeys.map id).Nodup := by
    rw [List.map_id]
    exact r.nodup_fixedKeys
  obtain ⟨hnodup, hself, hother⟩ := Fields.foldl_puts step (fun _ v? => v?.bind value) hkeys hnd
    fun k _ mid hmid => hstep mid k hmid
  rw [List.map_id] at hother
  cases hl : r.list? with
  | none =>
    refine ⟨hnodup, hself, ?_, fun k hk => hother k fun hmem => hk (mem_ownKeys_iff.2 (.inl hmem))⟩
    intro k hk
    rw [hl] at hk
    cases hk
  | some list =>
    have hputs := puts_changeItems_map hnodup entry list
    refine ⟨hputs.nodup, fun k hk => ?_, fun k hk => ?_, fun k hk => ?_⟩
    · have hne : k ≠ list := fun he => list_not_mem_fixedKeys hl (he ▸ hk)
      rw [hputs.other k hne]
      exact hself k hk
    · obtain rfl := Option.some.inj (hl.symm.trans hk)
      rw [hputs.self, hother list (list_not_mem_fixedKeys hl)]
    · rw [mem_ownKeys_iff, not_or] at hk
      have hne : k ≠ list := fun he => hk.2 (he ▸ hl)
      rw [hputs.other k hne, hother k hk.1]

theorem edits_onlyNames (r : TransitionRule) {fields : Fields} (h : fields.keys.Nodup) :
    r.Edits Json.nameOnly onlyName fields (r.onlyNames fields) :=
  edits_of_steps r _ _ _ h fun _ k hmid => Fields.puts_alter hmid Json.nameOnly k

/-- Every name has a port. -/
def Fits (r : TransitionRule) (fields : Fields) : Prop :=
  r.fixed.length + (r.entries fields).length ≤ PortCount.greatest

theorem fits_strip {r : TransitionRule} {fields : Fields} (h : r.Fits fields) :
    r.Fits (r.strip fields) := by
  rwa [Fits, entries_strip, length_clearBranches]

theorem branches_le (r : TransitionRule) (fields : Fields) :
    r.branches fields ≤ (r.entries fields).length := by
  rw [branches, toNat_portsFor]
  omega

theorem branches_of_fits {r : TransitionRule} {fields : Fields} (h : r.Fits fields) :
    r.branches fields = (r.entries fields).length := by
  unfold Fits at h
  rw [branches, toNat_portsFor]
  omega

/-- Every entry of the list is changed when every name has a port. -/
theorem map_mapFirst_of_fits {r : TransitionRule} {fields : Fields} (h : r.Fits fields)
    {list : String} (hl : r.list? = some list) (f : Json → Json) :
    (fields.get? list).map (Json.onList (List.mapFirst (r.branches fields) f))
      = (fields.get? list).map (Json.onItems f) := by
  refine Option.map_congr fun v hv => ?_
  cases v with
  | arr items =>
    have hentries : r.entries fields = items := by simp only [entries, hl, itemsOf, hv]; rfl
    have hle : items.length ≤ r.branches fields := by rw [branches_of_fits h, hentries]
    exact congrArg Json.arr (List.mapFirst_of_length_le hle)
  | _ => rfl

theorem clearFixed_eq (r : TransitionRule) (fields : Fields) :
    r.clearFixed fields = r.fixedKeys.foldl Fields.erase fields := by
  cases r <;> rfl

/-- Stripping takes the name out of every slot. -/
theorem edits_strip {r : TransitionRule} {fields : Fields} (h : fields.keys.Nodup)
    (hfits : r.Fits fields) :
    r.Edits (fun _ => none) clearEntry fields (r.strip fields) := by
  have hsteps := edits_of_steps r (fun _ => none) clearEntry Fields.erase h
    fun mid k hmid => by
      rw [Option.bind_fun_none]
      exact Fields.puts_erase hmid k
  rw [strip_eq, clearFixed_eq]
  cases hl : r.list? with
  | none =>
    rw [hl] at hsteps
    exact hsteps
  | some list =>
    rw [hl] at hsteps
    have hitems : changeItems (clearBranches (r.branches fields))
          (r.fixedKeys.foldl Fields.erase fields) list
        = changeItems (List.map clearEntry) (r.fixedKeys.foldl Fields.erase fields) list := by
      have hget := get?_clearFixed_of_list hl fields
      rw [clearFixed_eq] at hget
      unfold changeItems
      rw [hget]
      split
      next items hitems =>
        have hentries : r.entries fields = items := by
          simp only [entries, hl, itemsOf, hitems]
          rfl
        have hle : items.length ≤ r.branches fields := by rw [branches_of_fits hfits, hentries]
        rw [clearBranches_eq, List.mapFirst_of_length_le hle]
      next => rfl
    simp only [hitems]
    exact hsteps

/-! ### Writing names -/

/-- The names in the fields with their slots, in port order. -/
def held (r : TransitionRule) (fields : Fields) : List (TransitionSlot × String) :=
  ((r.slots fields).map Prod.snd).filterMap fun s => (s.read fields).map (s, ·)

end TransitionRule

namespace Compile

open TransitionSlot

theorem writeAll_append (fields : Fields) (first rest : List (TransitionSlot × String)) :
    writeAll fields (first ++ rest) = (writeAll fields first).bind (writeAll · rest) :=
  List.foldlM_append ..

/-- Writing the names of slots that are fields of their own. -/
theorem writeAll_fields (fields : Fields) {form : Fields} {slots : List TransitionSlot}
    (hnd : form.keys.Nodup) (hkeys : (slots.filterMap key?).Nodup)
    (hread : ∀ s ∈ slots, s.key? = none → s.read fields = none) :
    ∃ result, writeAll form (slots.filterMap fun s => (s.read fields).map (s, ·)) = some result ∧
      result.keys.Nodup ∧
      (∀ s ∈ slots, ∀ k, s.key? = some k →
        result.get? k = ((s.read fields).map Json.str).or (form.get? k)) ∧
      ∀ k, k ∉ slots.filterMap key? → result.get? k = form.get? k := by
  induction slots generalizing form with
  | nil => exact ⟨form, rfl, hnd, nofun, fun _ _ => rfl⟩
  | cons s rest ih =>
    have hread' : ∀ s ∈ rest, s.key? = none → s.read fields = none :=
      fun s hs => hread s (List.mem_cons_of_mem _ hs)
    cases hk : s.key? with
    | none =>
      rw [List.filterMap_cons_none hk] at hkeys
      obtain ⟨result, hresult, hnodup, hself, hother⟩ := ih hnd hkeys hread'
      have hnone : s.read fields = none := hread s List.mem_cons_self hk
      rw [List.filterMap_cons_none (by rw [hnone]; rfl), List.filterMap_cons_none hk]
      refine ⟨result, hresult, hnodup, fun s' hs' k hk' => ?_, hother⟩
      rcases List.mem_cons.1 hs' with rfl | hs'
      · rw [hk] at hk'
        cases hk'
      · exact hself s' hs' k hk'
    | some key =>
      rw [List.filterMap_cons_some hk, List.nodup_cons] at hkeys
      rw [List.filterMap_cons_some hk]
      obtain ⟨mid, hmid, hputs⟩ : ∃ mid,
          writeAll form ((s.read fields).map (s, ·)).toList = some mid ∧
          form.Puts key (((s.read fields).map Json.str).or (form.get? key)) mid := by
        cases s.read fields with
        | none => exact ⟨form, rfl, Fields.puts_self hnd rfl⟩
        | some name =>
          refine ⟨_, ?_, Fields.puts_insert hnd key (.str name)⟩
          show (s.write form name).bind some = _
          rw [write_of_key hk]
          rfl
      obtain ⟨result, hresult, hnodup, hself, hother⟩ := ih hputs.nodup hkeys.2 hread'
      refine ⟨result, ?_, hnodup, fun s' hs' k hk' => ?_, fun k hk' => ?_⟩
      · have hsplit : (s :: rest).filterMap (fun s => (s.read fields).map (s, ·))
            = ((s.read fields).map (s, ·)).toList ++
              rest.filterMap fun s => (s.read fields).map (s, ·) := by
          rw [List.filterMap_cons]
          cases s.read fields <;> rfl
        rw [hsplit, writeAll_append, hmid]
        exact hresult
      · rcases List.mem_cons.1 hs' with rfl | hs'
        · obtain rfl := Option.some.inj (hk.symm.trans hk')
          rw [hother key hkeys.1, hputs.self]
        · have hne : k ≠ key :=
            fun he => hkeys.1 (he ▸ List.mem_filterMap.2 ⟨s', hs', hk'⟩)
          rw [hself s' hs' k hk', hputs.other k hne]
      · rw [List.mem_cons, not_or] at hk'
        rw [hother k hk'.2, hputs.other k hk'.1]

/-- Writing the names of the first `n` entries of a list into a list that shows these by `f`. -/
theorem writeAll_branches {form : Fields} {list : String} {items shown : List Json} {f : Json → Json}
    (hnd : form.keys.Nodup) (hget : form.get? list = some (.arr shown))
    (hobj : ∀ v ∈ items, ∀ name, entryName? v = some name → ∃ entry, f v = .obj entry)
    (n : Nat) (hn : n ≤ items.length) (hshown : shown.take n = (items.take n).map f) :
    ∃ result, writeAll form ((List.range n).filterMap fun i =>
        ((items[i]?).bind entryName?).map (branch list i, ·)) = some result ∧
      form.Puts list (some (.arr ((items.take n).map (fun v => withName (entryName? v) (f v)) ++
        shown.drop n))) result := by
  induction n with
  | zero => exact ⟨form, rfl, Fields.puts_self hnd hget⟩
  | succ n ih =>
    have hlt : n < items.length := by omega
    have hlength : ((items.take n).map fun v => withName (entryName? v) (f v)).length = n := by
      rw [List.length_map, List.length_take, Nat.min_eq_left (Nat.le_of_lt hlt)]
    have hat : shown[n]? = some (f items[n]) := by
      rw [← List.getElem?_take_of_lt (Nat.lt_succ_self n), hshown, List.getElem?_map,
        List.getElem?_take_of_lt (Nat.lt_succ_self n), List.getElem?_eq_getElem hlt, Option.map_some]
    have hbefore : shown.take n = (items.take n).map f := by
      have htake := congrArg (List.take n) hshown
      rwa [← List.map_take, List.take_take, List.take_take, Nat.min_eq_left (Nat.le_succ n)] at htake
    obtain ⟨mid, hmid, hputs⟩ := ih (by omega) hbefore
    obtain ⟨hlt', hat⟩ := List.getElem?_eq_some_iff.1 hat
    have hdrop : shown.drop n = f items[n] :: shown.drop (n + 1) := by
      rw [List.drop_eq_getElem_cons hlt', hat]
    have hitem : (items[n]?).bind entryName? = entryName? items[n] := by
      rw [List.getElem?_eq_getElem hlt, Option.bind_some]
    rw [List.range_succ, List.filterMap_append, writeAll_append, hmid, Option.bind_some,
      List.take_add_one, List.getElem?_eq_getElem hlt, List.map_append, List.append_assoc,
      List.filterMap_cons, hitem]
    cases hname : entryName? items[n] with
    | none =>
      refine ⟨mid, rfl, ?_⟩
      rw [hdrop] at hputs
      simp only [Option.toList_some, List.map_cons, List.map_nil, hname, withName,
        List.singleton_append]
      exact hputs
    | some name =>
      obtain ⟨entry, hentry⟩ := hobj _ (List.getElem_mem hlt) name hname
      have hmidget := hputs.self
      rw [hdrop, hentry] at hmidget
      have hitems : itemsOf mid list
          = (items.take n).map (fun v => withName (entryName? v) (f v)) ++
            .obj entry :: shown.drop (n + 1) := by
        rw [itemsOf, hmidget]
        rfl
      have hat : (itemsOf mid list)[n]? = some (.obj entry) := by
        rw [hitems, List.getElem?_append_right (Nat.le_of_eq hlength), hlength, Nat.sub_self]
        rfl
      refine ⟨_, ?_, hputs.trans (Fields.puts_insert hputs.nodup list (.arr _))⟩
      show ((branch list n).write mid name).bind some = _
      rw [write, put, hat]
      simp only [changeItems, hmidget, Option.bind_some]
      congr 3
      rw [List.set_append_right _ _ (Nat.le_of_eq hlength), hlength, Nat.sub_self, List.set_cons_zero]
      simp [hname, hentry, withName]

/-- Writing the names of the first entries of a list into a form that shows the list by `f`. -/
theorem writeAll_entries {fields form : Fields} {list : String} {f : Json → Json} {n : Nat}
    (hn : n ≤ (itemsOf fields list).length) (hnd : form.keys.Nodup)
    (hget : form.get? list = (fields.get? list).map (Json.onList (List.mapFirst n f)))
    (hobj : ∀ v name, entryName? v = some name → ∃ entry, f v = .obj entry) :
    ∃ result, writeAll form ((List.range n).filterMap fun i =>
        ((itemsOf fields list)[i]?.bind entryName?).map (branch list i, ·)) = some result ∧
      form.Puts list ((fields.get? list).map
        (Json.onList (List.mapFirst n fun v => withName (entryName? v) (f v)))) result := by
  cases hv : fields.get? list with
  | none =>
    rw [hv] at hget
    simp only [itemsOf, hv] at hn ⊢
    obtain rfl := Nat.le_zero.1 hn
    exact ⟨form, rfl, Fields.puts_self hnd hget⟩
  | some v =>
    rw [hv] at hget
    cases v with
    | arr items =>
      have hitems : itemsOf fields list = items := by simp only [itemsOf, hv]; rfl
      rw [hitems] at hn ⊢
      obtain ⟨result, hresult, hputs⟩ := writeAll_branches hnd hget
        (fun v _ name hname => hobj v name hname) n hn (List.take_mapFirst n f items)
      rw [List.drop_mapFirst] at hputs
      exact ⟨result, hresult, hputs⟩
    | _ =>
      simp only [itemsOf, hv] at hn ⊢
      obtain rfl := Nat.le_zero.1 hn
      exact ⟨form, rfl, Fields.puts_self hnd hget⟩

end Compile

namespace TransitionRule

open TransitionSlot Compile

/-- Writing the names of fields into a form that has an entry for each entry of the fields. Entries
without a port are not looked at. -/
theorem writeAll_held {r : TransitionRule} {fields form : Fields} {f : Json → Json}
    (hnd : form.keys.Nodup) (hfixed : ∀ k ∈ r.fixedKeys, form.get? k = none)
    (hlist : ∀ k, r.list? = some k → form.get? k
      = (fields.get? k).map (Json.onList (List.mapFirst (r.branches fields) f)))
    (hobj : ∀ v name, entryName? v = some name → ∃ entry, f v = .obj entry) :
    ∃ result, writeAll form (r.held fields) = some result ∧ result.keys.Nodup ∧
      (∀ k ∈ r.fixedKeys, result.get? k = (fields.get? k).bind Json.nameOnly) ∧
      (∀ k, r.list? = some k → result.get? k = (fields.get? k).map (Json.onList
        (List.mapFirst (r.branches fields) fun v => withName (entryName? v) (f v)))) ∧
      ∀ k, k ∉ r.ownKeys → result.get? k = form.get? k := by
  obtain ⟨mid, hmid, hnodup, hself, hother⟩ := writeAll_fields fields hnd
    r.nodup_fixedKeys fun s hs hk => SameNames.read_eq_none_of_key? hs hk fields
  have hother : ∀ k, k ∉ r.fixedKeys → mid.get? k = form.get? k := hother
  have hfixed : ∀ k ∈ r.fixedKeys, mid.get? k = (fields.get? k).bind Json.nameOnly := by
    intro k hk
    obtain ⟨s, hs, hkey⟩ := List.mem_filterMap.1 hk
    rw [hself s hs k hkey, hfixed k hk, read_of_key hkey, Option.or_none, Json.bind_nameOnly]
  rw [held, map_snd_slots, List.filterMap_append, writeAll_append, hmid, Option.bind_some]
  cases hl : r.list? with
  | none =>
    refine ⟨mid, rfl, hnodup, hfixed, nofun, fun k hk => hother k fun hmem => ?_⟩
    exact hk (mem_ownKeys_iff.2 (.inl hmem))
  | some list =>
    have hlistmid : mid.get? list
        = (fields.get? list).map (Json.onList (List.mapFirst (r.branches fields) f)) := by
      rw [hother list (list_not_mem_fixedKeys hl), hlist list hl]
    rw [Option.map_some, Option.getD_some, List.filterMap_map]
    show ∃ result, writeAll mid ((List.range (r.branches fields)).filterMap fun i =>
      ((itemsOf fields list)[i]?.bind entryName?).map (branch list i, ·)) = some result ∧ _
    have hentries : r.entries fields = itemsOf fields list := by simp only [entries, hl]
    obtain ⟨result, hresult, hputs⟩ :=
      writeAll_entries (hentries ▸ r.branches_le fields) hnodup hlistmid hobj
    refine ⟨result, hresult, hputs.nodup, fun k hk => ?_, fun k hk => ?_, fun k hk => ?_⟩
    · have hne : k ≠ list := fun he => list_not_mem_fixedKeys hl (he ▸ hk)
      rw [hputs.other k hne, hfixed k hk]
    · obtain rfl := Option.some.inj hk
      exact hputs.self
    · rw [mem_ownKeys_iff, not_or] at hk
      have hne : k ≠ list := fun he => hk.2 (he ▸ hl)
      rw [hputs.other k hne, hother k hk.1]

end TransitionRule

end Workflow
