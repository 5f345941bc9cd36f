import Workflow.Proofs.NodeType.Places
import Workflow.Proofs.NodeType.Written

/-!
# Fields that settle

Fields that were a form and became fields again are almost settled: when they are a form once more
and the same names are written, they come back as they are, the order of keys included, but for
retries that are still a list of one policy (`NodeType.fields_settle`). Names are written beside the
transforms and the retries (`NodeType.ofForm_writeAll`, `NodeType.writeAll_prepare`), and they leave
no mark once they are taken out again (`NodeType.strip_writeAll`).
-/

namespace Workflow

namespace NodeType

variable {t : NodeType} {fields : Fields}

/-- The editor shows fields and their normal form alike. -/
theorem decode_normal (hseparate : t.separate = true) (hkeyed : Json.KeyedFields fields) :
    t.form.onTransforms Transform.decodeValue (t.form.onTransforms Transform.normal fields)
      = t.form.onTransforms Transform.decodeValue fields := by
  refine Fields.alterAll_alterAll (TransformPlace.onTransform Transform.normal)
    (TransformPlace.onTransform Transform.decodeValue)
    (TransformPlace.onTransform Transform.decodeValue) (nodup_places hseparate) hkeyed.nodup
    fun p _ v hv => ?_
  rw [p.bind_onTransform _ _ (hkeyed.of_get? hv)]
  exact congrArg (p.onTransform · v) (funext Transform.bind_decodeValue_normal)

/-- Encoding what is shown of fields gives their normal form. -/
theorem ofForm_decode (hseparate : t.separate = true) (hkeyed : Json.KeyedFields fields)
    (hr : ∀ v ∈ t.transforms fields, Transform.ReadsBack v) (id : String) :
    t.form.ofForm id (t.form.onTransforms Transform.decodeValue fields)
      = .ok (t.form.onTransforms Transform.normal fields) :=
  FormRule.ofForm_onTransforms (TransformPlace.independent_of_nodup (nodup_places hseparate)) hkeyed
    (fun p hp v hv => hr v (List.mem_flatMap.2 ⟨p, hp, hv⟩)) id

end NodeType

/-! ### Names -/

namespace TransitionSlot

/-- A name is written into an entry that is a record. -/
theorem write_branch_eq_some_iff {list : String} {index : Nat} {fields result : Fields}
    {name : String} : (branch list index).write fields name = some result ↔
      ∃ items entry, fields.get? list = some (.arr items) ∧ items[index]? = some (.obj entry) ∧
        result = fields.insert list
          (.arr (items.set index (.obj (Fields.insert entry transitionKey (.str name))))) := by
  constructor
  · intro h
    obtain ⟨entry, hentry, rfl⟩ := write_branch_eq_some h
    rw [itemsOf] at hentry
    rw [changeItems]
    cases hv : fields.get? list with
    | none => simp [hv] at hentry
    | some v =>
      cases v with
      | arr items => exact ⟨items, entry, rfl, by simpa [hv, Json.arr?] using hentry, rfl⟩
      | _ => simp [hv, Json.arr?] at hentry
  · rintro ⟨items, entry, hitems, hentry, rfl⟩
    simp [write, put, itemsOf, changeItems, hitems, Json.arr?, hentry]

theorem get?_clearEntry {key : String} (h : key ≠ transitionKey) (v : Json) :
    (clearEntry v).fieldsOf.get? key = v.fieldsOf.get? key := by
  cases v with
  | obj entry => exact Fields.get?_erase_of_ne entry h
  | _ => rfl

end TransitionSlot

namespace TransitionRule

open TransitionSlot

variable {r : TransitionRule} {port : Port} {s : TransitionSlot} {fields result : Fields}
  {name : String}

/-- The slot of a port is a fixed one or an entry of the list; ports end before some lists do. -/
theorem slot?_cases (hs : r.slot? port = some s) : s ∈ r.fixed ∨
    ∃ list index, r.list? = some list ∧ index < r.mostBranches ∧ s = .branch list index := by
  obtain ⟨i, hi, hslot⟩ := exists_slotAt_of_slot? hs
  have hlt := port.toNat_lt
  unfold slotAt? at hslot
  split at hslot
  next s' hs' =>
    obtain rfl := Option.some.inj hslot
    exact .inl (List.mem_of_getElem? hs')
  next hnone =>
    obtain ⟨list, hl, rfl⟩ := Option.map_eq_some_iff.1 hslot
    have hge := List.getElem?_eq_none_iff.1 hnone
    refine .inr ⟨list, _, hl, ?_, rfl⟩
    rw [mostBranches, PortCount.greatest]
    omega

theorem branch_not_mem_fixed (r : TransitionRule) (list : String) (index : Nat) :
    .branch list index ∉ r.fixed := by
  cases r <;> simp [fixed]

/-- The slot of a port that takes a name is a field of its own or an entry of the list. -/
theorem slot_cases (hs : r.slot? port = some s) (hw : s.write fields name = some result) :
    (∃ key ∈ r.fixedKeys, s.key? = some key) ∨
      ∃ list index, r.list? = some list ∧ index < r.mostBranches ∧ s = .branch list index := by
  refine (slot?_cases hs).imp_left fun hfixed => ?_
  cases hkey : s.key? with
  | none =>
    cases s with
    | branch => exact absurd hfixed (r.branch_not_mem_fixed _ _)
    | error => cases hw
    | _ => cases hkey
  | some key => exact ⟨key, List.mem_filterMap.2 ⟨s, hfixed, hkey⟩, rfl⟩

theorem clearBranches_set {n index : Nat} (h : index < n) {items : List Json} {v w : Json}
    (hv : items[index]? = some v) (hw : clearEntry w = clearEntry v) :
    clearBranches n (items.set index w) = clearBranches n items := by
  rw [clearBranches, List.take_set, List.drop_set_of_lt h, List.map_set, hw, clearBranches]
  congr 1
  have hget : ((items.take n).map clearEntry)[index]? = some (clearEntry v) := by
    rw [List.getElem?_map, List.getElem?_take_of_lt h, hv, Option.map_some]
  obtain ⟨hlt, hget⟩ := List.getElem?_eq_some_iff.1 hget
  rw [← hget]
  exact List.set_getElem_self hlt

/-- A name that was written is gone once the names are taken out. -/
theorem strip_write (hs : r.slot? port = some s) (hw : s.write fields name = some result) :
    r.strip result = r.strip fields := by
  rw [strip_eq_alterAll, strip_eq_alterAll]
  rcases slot_cases hs hw with ⟨key, hkey, hskey⟩ | ⟨list, index, hl, hlt, rfl⟩
  · rw [write_of_key hskey] at hw
    obtain rfl := Option.some.inj hw
    refine Fields.alterAll_insert_of_mem r.nodup_clearings
      (List.mem_append_left _ (List.mem_map_of_mem hkey)) ?_
    exact (Option.bind_fun_none _).symm
  · obtain ⟨items, entry, hitems, hentry, rfl⟩ := write_branch_eq_some_iff.1 hw
    refine Fields.alterAll_insert_of_mem r.nodup_clearings
      (List.mem_append_right _ (List.mem_map_of_mem (Option.mem_toList.2 hl))) ?_
    have hnamed : clearEntry (.obj (Fields.insert entry transitionKey (.str name)))
        = clearEntry (.obj entry) := congrArg Json.obj (Fields.erase_insert_self entry _ _)
    have hclear := clearBranches_set hlt hentry hnamed
    rw [hitems, Option.bind_some]
    simp only [Json.onList, hclear]

/-- Changes of other fields do not matter for a name. -/
theorem write_alterAll {cs : List (String × (Json → Option Json))}
    (hcs : ∀ key ∈ r.ownKeys, key ∉ cs.map Prod.fst) (hs : r.slot? port = some s)
    (hw : s.write fields name = some result) :
    s.write (fields.alterAll cs) name = some (result.alterAll cs) := by
  rcases slot_cases hs hw with ⟨key, hkey, hskey⟩ | ⟨list, index, hl, -, rfl⟩
  · rw [write_of_key hskey] at hw ⊢
    obtain rfl := Option.some.inj hw
    rw [Fields.alterAll_insert_of_not_mem (hcs key (mem_ownKeys_iff.2 (.inl hkey)))]
  · obtain ⟨items, entry, hitems, hentry, rfl⟩ := write_branch_eq_some_iff.1 hw
    have hnot := hcs list (mem_ownKeys_of_list? hl)
    refine write_branch_eq_some_iff.2 ⟨items, entry, ?_, hentry, ?_⟩
    · rw [Fields.get?_alterAll_of_not_mem hnot, hitems]
    · rw [Fields.alterAll_insert_of_not_mem hnot]

end TransitionRule

namespace TransformPlace

open TransitionSlot

/-- Changes of the records of a list see each record alone. -/
theorem eachRecord_set {change : Nat → Fields → Except CodecError Fields} {start index : Nat}
    {items items' : List Json} (h : eachRecord change start items = .ok items')
    {entry : Fields} (hentry : items[index]? = some (.obj entry)) :
    ∃ entry', change (start + index) entry = .ok entry' ∧ items'[index]? = some (.obj entry') ∧
      ∀ named named', change (start + index) named = .ok named' →
        eachRecord change start (items.set index (.obj named))
          = .ok (items'.set index (.obj named')) := by
  induction items generalizing start index items' with
  | nil => cases hentry
  | cons v rest ih =>
    cases index with
    | zero =>
      obtain rfl : v = .obj entry := Option.some.inj hentry
      rw [eachRecord] at h
      obtain ⟨entry', hentry', h⟩ := Except.bind_eq_ok_iff.1 h
      obtain ⟨rest', hrest', h⟩ := Except.bind_eq_ok_iff.1 h
      obtain rfl := Except.pure_eq_ok_iff.1 h
      refine ⟨entry', hentry', rfl, fun named named' hnamed => ?_⟩
      rw [List.set_cons_zero, eachRecord]
      exact Except.bind_eq_ok_iff.2 ⟨named', hnamed, Except.bind_eq_ok_iff.2 ⟨rest', hrest', rfl⟩⟩
    | succ index =>
      have hstep : start + (index + 1) = start + 1 + index := by omega
      rw [hstep]
      cases v with
      | obj record =>
        rw [eachRecord] at h
        obtain ⟨record', hrecord', h⟩ := Except.bind_eq_ok_iff.1 h
        obtain ⟨rest', hrest', h⟩ := Except.bind_eq_ok_iff.1 h
        obtain rfl := Except.pure_eq_ok_iff.1 h
        obtain ⟨entry', hentry', hget, hset⟩ := ih hrest' hentry
        refine ⟨entry', hentry', hget, fun named named' hnamed => ?_⟩
        rw [List.set_cons_succ, eachRecord]
        exact Except.bind_eq_ok_iff.2 ⟨record', hrecord',
          Except.bind_eq_ok_iff.2 ⟨_, hset named named' hnamed, rfl⟩⟩
      | _ =>
        simp only [eachRecord] at h
        obtain ⟨rest', hrest', h⟩ := Except.bind_eq_ok_iff.1 h
        obtain rfl := Except.pure_eq_ok_iff.1 h
        obtain ⟨entry', hentry', hget, hset⟩ := ih hrest' hentry
        refine ⟨entry', hentry', hget, fun named named' hnamed => ?_⟩
        simp only [List.set_cons_succ, eachRecord]
        exact Except.bind_eq_ok_iff.2 ⟨_, hset named named' hnamed, rfl⟩

/-- A transform is encoded beside a name. -/
theorem encode_write {r : TransitionRule} {p : TransformPlace} (hapart : p.apart r = true)
    {id : String} {form form' named : Fields} (he : p.encode id form = .ok form') {port : Port}
    {s : TransitionSlot} (hs : r.slot? port = some s) {name : String}
    (hw : s.write form name = some named) :
    ∃ named', p.encode id named = .ok named' ∧ s.write form' name = some named' := by
  obtain ⟨hfixed, hlist⟩ := outer_of_apart hapart
  rcases TransitionRule.slot_cases hs hw with ⟨key, hkey, hskey⟩ | ⟨list, index, hl, -, rfl⟩
  · have hne : p.outer ≠ key := fun hp => hfixed (hp ▸ hkey)
    rw [write_of_key hskey] at hw
    obtain rfl := Option.some.inj hw
    rw [encode_eq_alterM] at he ⊢
    exact ⟨_, Fields.alterM_insert_of_ne he hne _, write_of_key hskey form' name⟩
  · obtain ⟨items, entry, hitems, hentry, rfl⟩ := write_branch_eq_some_iff.1 hw
    by_cases hp : p.outer = list
    · -- The entry that is named also holds a transform.
      obtain ⟨key, hpkey, hne⟩ := hlist (hp ▸ hl)
      rw [hp] at hpkey
      subst hpkey
      simp only [encode, apply, hitems] at he
      obtain ⟨items', hitems', he⟩ := Except.bind_eq_ok_iff.1 he
      obtain rfl := Except.pure_eq_ok_iff.1 he
      obtain ⟨entry', hentry', hget, hset⟩ := eachRecord_set hitems' hentry
      rw [Fields.encodeAt_eq_alterM] at hentry'
      have hnamed := Fields.alterM_insert_of_ne hentry' hne (.str name)
      rw [← Fields.encodeAt_eq_alterM] at hnamed
      refine ⟨_, ?_, write_branch_eq_some_iff.2 ⟨items', entry', Fields.get?_insert_self .., hget,
        rfl⟩⟩
      simp only [encode, apply, Fields.get?_insert_self]
      refine Except.bind_eq_ok_iff.2 ⟨_, hset _ _ hnamed, Except.pure_eq_ok_iff.2 ?_⟩
      rw [Fields.insert_insert, Fields.insert_insert]
    · rw [encode_eq_alterM] at he ⊢
      refine ⟨_, Fields.alterM_insert_of_ne he hp _, write_branch_eq_some_iff.2
        ⟨items, entry, ?_, hentry, rfl⟩⟩
      rw [Fields.get?_of_alterM he (Ne.symm hp), hitems]

end TransformPlace

/-! ### All names -/

namespace NodeType

open Compile

variable {t : NodeType} {fields form result : Fields} {names : List (TransitionSlot × String)}

theorem strip_writeAll {r : TransitionRule} (hnames : ∀ w ∈ names, ∃ port, r.slot? port = some w.1)
    (hw : writeAll fields names = some result) : r.strip result = r.strip fields := by
  induction names generalizing fields with
  | nil =>
    cases hw
    rfl
  | cons w rest ih =>
    obtain ⟨mid, hmid, hw⟩ := Option.bind_eq_some_iff.1 hw
    obtain ⟨port, hs⟩ := hnames w List.mem_cons_self
    rw [ih (fun w hw => hnames w (List.mem_cons_of_mem _ hw)) hw,
      TransitionRule.strip_write hs hmid]

/-- Changes beside each name are changes beside all of them. -/
theorem writeAll_beside {r : TransitionRule} {f : Fields → Fields}
    (hf : ∀ {port s fields name named}, r.slot? port = some s → s.write fields name = some named →
      s.write (f fields) name = some (f named))
    (hnames : ∀ w ∈ names, ∃ port, r.slot? port = some w.1)
    (hw : writeAll fields names = some result) : writeAll (f fields) names = some (f result) := by
  induction names generalizing fields with
  | nil =>
    cases hw
    rfl
  | cons w rest ih =>
    obtain ⟨mid, hmid, hw⟩ := Option.bind_eq_some_iff.1 hw
    obtain ⟨port, hs⟩ := hnames w List.mem_cons_self
    exact Option.bind_eq_some_iff.2 ⟨f mid, hf hs hmid,
      ih (fun w hw => hnames w (List.mem_cons_of_mem _ hw)) hw⟩

theorem writeAll_prepare {f : FormRule} {r : TransitionRule}
    (hf : ∀ key ∈ r.ownKeys, key ∉ f.preparations.map Prod.fst)
    (hnames : ∀ w ∈ names, ∃ port, r.slot? port = some w.1)
    (hw : writeAll fields names = some result) :
    writeAll (f.prepare fields) names = some (f.prepare result) := by
  refine writeAll_beside (fun hs hw => ?_) hnames hw
  rw [FormRule.prepare_eq_alterAll, FormRule.prepare_eq_alterAll]
  exact TransitionRule.write_alterAll hf hs hw

theorem ofForm_write (hapart : t.apart = true) {id : String}
    (hf : t.form.ofForm id form = .ok fields) {port : Port} {s : TransitionSlot}
    (hs : t.transitions.slot? port = some s) {name : String} {named : Fields}
    (hw : s.write form name = some named) :
    ∃ named', t.form.ofForm id named = .ok named' ∧ s.write fields name = some named' := by
  have hplaces := apart_places hapart
  simp only [FormRule.ofForm_eq] at hf ⊢
  generalize t.form.places = places at hf hplaces ⊢
  induction places generalizing form named with
  | nil =>
    obtain rfl := Except.ok.inj hf
    exact ⟨named, rfl, hw⟩
  | cons p rest ih =>
    obtain ⟨mid, hmid, hf⟩ := Except.bind_eq_ok_iff.1 hf
    obtain ⟨named', hnamed', hw'⟩ :=
      TransformPlace.encode_write (hplaces p List.mem_cons_self) hmid hs hw
    obtain ⟨last, hlast, hwlast⟩ := ih hw' hf fun p hp => hplaces p (List.mem_cons_of_mem _ hp)
    exact ⟨last, Except.bind_eq_ok_iff.2 ⟨named', hnamed', hlast⟩, hwlast⟩

/-- Transforms are encoded beside the names. -/
theorem ofForm_writeAll (hapart : t.apart = true)
    (hnames : ∀ w ∈ names, ∃ port, t.transitions.slot? port = some w.1) {id : String}
    (hf : t.form.ofForm id form = .ok fields) {named : Fields}
    (hw : writeAll form names = some named) :
    ∃ named', t.form.ofForm id named = .ok named' ∧ writeAll fields names = some named' := by
  induction names generalizing form fields with
  | nil =>
    cases hw
    exact ⟨fields, hf, rfl⟩
  | cons w rest ih =>
    obtain ⟨mid, hmid, hw⟩ := Option.bind_eq_some_iff.1 hw
    obtain ⟨port, hs⟩ := hnames w List.mem_cons_self
    obtain ⟨mid', hmid', hwmid⟩ := ofForm_write hapart hf hs hmid
    obtain ⟨named', hnamed', hwrest⟩ :=
      ih (fun w hw => hnames w (List.mem_cons_of_mem _ hw)) hmid' hw
    exact ⟨named', hnamed', Option.bind_eq_some_iff.2 ⟨mid', hwmid, hwrest⟩⟩

/-! ### The fields of a state -/

theorem transforms_strip (hapart : t.apart = true) (fields : Fields) :
    t.transforms (t.transitions.strip fields) = t.transforms fields := by
  unfold transforms
  refine List.flatMap_congr fun p hp => ?_
  obtain ⟨hfixed, hlist⟩ := TransformPlace.outer_of_apart (apart_places hapart p hp)
  by_cases hown : p.outer ∈ t.transitions.ownKeys
  · have hl := (TransitionRule.mem_ownKeys_iff.1 hown).resolve_left hfixed
    obtain ⟨key, hpkey, hne⟩ := hlist hl
    rw [TransitionRule.get?_strip_list hl]
    cases fields.get? p.outer with
    | none => rfl
    | some v =>
      rw [hpkey]
      cases v with
      | arr items =>
        have hitems : (TransitionRule.clearBranches (t.transitions.branches fields) items).filterMap
            (fun v => v.fieldsOf.get? key) = items.filterMap fun v => v.fieldsOf.get? key := by
          rw [TransitionRule.clearBranches, List.filterMap_append, List.filterMap_map]
          conv_rhs => rw [← List.take_append_drop (t.transitions.branches fields) items,
            List.filterMap_append]
          exact congrArg (· ++ _) (List.filterMap_congr fun v _ =>
            TransitionSlot.get?_clearEntry hne v)
        simpa [TransformPlace.values, Json.onList, Json.arr?] using hitems
      | _ => rfl
  · rw [TransitionRule.get?_strip_of_not_mem hown]

theorem transforms_prepare (hseparate : t.separate = true) {fields : Fields}
    (h : fields.keys.Nodup) : t.transforms (t.form.prepare fields) = t.transforms fields := by
  unfold transforms
  refine List.flatMap_congr fun p hp => ?_
  have hkeeps := List.all_eq_true.1 (Bool.and_eq_true_iff.1 hseparate).2 p hp
  rw [t.form.get?_prepare h]
  cases fields.get? p.outer with
  | none => rfl
  | some v => simp [TransformPlace.values_prepared hkeeps]

theorem keyed_prepare {r : FormRule} (h : Json.KeyedFields fields) :
    Json.KeyedFields (r.prepare fields) :=
  Json.KeyedFields.of_nodup (r.nodup_prepare h.nodup) fun k v hv => by
    rw [r.get?_prepare h.nodup] at hv
    obtain ⟨w, hw, rfl⟩ := Option.map_eq_some_iff.1 hv
    exact r.keyed_prepared k (h.of_get? hw)

theorem keyed_toForm {r : FormRule} (h : Json.KeyedFields fields) :
    Json.KeyedFields (r.toForm fields) := by
  rw [FormRule.toForm_eq_onTransforms]
  exact TransformPlace.keyed_alterAll (fun _ _ => Transform.keyed_decodeValue) r.places
    (keyed_prepare h)

/-- Fields that were a form, with names written into it, come back from their form with these names,
but for the retries, which are unwrapped once more. -/
theorem fields_settle (hapart : t.apart = true) (hseparate : t.separate = true)
    (hkeyed : Json.KeyedFields fields) (hr : ∀ v ∈ t.transforms fields, Transform.ReadsBack v)
    (hnames : ∀ w ∈ names, ∃ port, t.transitions.slot? port = some w.1) {id : String}
    (hw : writeAll (t.transitions.strip (t.form.toForm (t.transitions.strip fields))) names
      = some form)
    (hf : t.form.ofForm id form = .ok result) :
    ∃ form', writeAll (t.transitions.strip (t.form.toForm (t.transitions.strip result))) names
        = some form' ∧ t.form.ofForm id form' = .ok (t.form.prepare result) := by
  have hstripped := t.transitions.keyed_strip hkeyed
  -- Without names and with its retries unwrapped, a form has settled but for its transforms.
  obtain ⟨plain, hplain⟩ : ∃ plain, t.form.prepare (t.transitions.strip fields) = plain := ⟨_, rfl⟩
  have hpkeyed : Json.KeyedFields plain := hplain ▸ keyed_prepare hstripped
  have hpstrip : t.transitions.strip plain = plain := by
    rw [← hplain, strip_prepare hapart, TransitionRule.strip_strip _ hkeyed]
  have hpr : ∀ v ∈ t.transforms plain, Transform.ReadsBack v := by
    rwa [← hplain, transforms_prepare hseparate hstripped.nodup, transforms_strip hapart]
  rw [FormRule.toForm_eq_onTransforms, hplain, strip_onTransforms hapart, hpstrip] at hw
  obtain ⟨result', hresult', hnormal⟩ :=
    ofForm_writeAll hapart hnames (ofForm_decode hseparate hpkeyed hpr id) hw
  obtain rfl := Except.ok.inj (hf.symm.trans hresult')
  have hrstrip : t.transitions.strip result = t.form.onTransforms Transform.normal plain := by
    rw [strip_writeAll hnames hnormal, strip_onTransforms hapart, hpstrip]
  have hp'keyed := keyed_prepare (r := t.form) hpkeyed
  have hp'r : ∀ v ∈ t.transforms (t.form.prepare plain), Transform.ReadsBack v := by
    rwa [transforms_prepare hseparate hpkeyed.nodup]
  have hform' : t.transitions.strip (t.form.toForm (t.transitions.strip result))
      = t.form.prepare (t.form.onTransforms Transform.decodeValue plain) := by
    rw [FormRule.toForm_eq_onTransforms, hrstrip, prepare_onTransforms hseparate,
      decode_normal hseparate hp'keyed, strip_onTransforms hapart, strip_prepare hapart, hpstrip,
      prepare_onTransforms hseparate]
  have hwritten := writeAll_prepare (fun _ => not_mem_preparations hapart) hnames hw
  refine ⟨t.form.prepare form, hform' ▸ hwritten, ?_⟩
  rw [prepare_onTransforms hseparate] at hwritten
  obtain ⟨last, hlast, hwlast⟩ :=
    ofForm_writeAll hapart hnames (ofForm_decode hseparate hp'keyed hp'r id) hwritten
  have hwlast' := writeAll_prepare (fun _ => not_mem_preparations hapart) hnames hnormal
  rw [prepare_onTransforms hseparate] at hwlast'
  rw [hlast, Option.some.inj (hwlast.symm.trans hwlast')]

end NodeType

end Workflow
