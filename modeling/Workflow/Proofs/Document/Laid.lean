import Workflow.Proofs.Document.Woven

/-!
# The layout of a value with scripts

What the lines of a value become when its scripts are put in place is the text of a layout, and the
layout means the value with its scripts (`laid`). The induction is on the value with placeholders. It
says so for every place where a value can begin (`Front`): what stands in front of it on its line tells
the column of a block for a script, which has to lie right of the block around the value. One lemma for
each way to write a field leads from the layout of its value to that of the field (`Laid.field`).
-/

namespace Workflow.Document

open Script (Free keyColumn startsValue)
open Yaml (Atom Key Layout Line Written behind joined isAllowed spaces scalarLines styled styleOf
  lines itemLines fieldLines EndsBlock ReadsBack)

/-! ### Lines in front of a value -/

/-- What stands in front of a value at a column, behind a dash or at the start of a line. -/
structure Front (column : Nat) (front : List Char) : Prop where
  opens : Opens front
  margin : ∀ text, startsValue (front ++ text) = true →
    keyColumn (front ++ text) = column + keyColumn text

theorem keyColumn_spaces (n : Nat) (text : List Char) :
    keyColumn (spaces n ++ text) = n + keyColumn text := by
  induction n with
  | zero => exact (Nat.zero_add _).symm
  | succ n ih =>
    rw [Yaml.spaces_succ, List.cons_append, keyColumn, ih]
    omega

theorem opens_spaces (n : Nat) : Opens (spaces n) where
  line := fun hmem => absurd (Yaml.mem_spaces hmem) (by decide)
  free := fun text h => @Free.append_of_not_mem placeholderStart (spaces n) text '_' rfl
    (fun hmem => absurd (Yaml.mem_spaces hmem) (by decide)) h

theorem front_spaces (n : Nat) : Front n (spaces n) :=
  ⟨opens_spaces n, fun text _ => keyColumn_spaces n text⟩

variable {column : Nat} {front : List Char}

/-- The mark of an item, a key or a value does not make a text a placeholder. -/
theorem Opens.mark (h : Opens front) {ch : Char} (hch : ch ∈ ['-', '?', ':']) :
    Opens (front ++ [ch, ' ']) := by
  have hclear : ∀ ch ∈ ['-', '?', ':'], '_' ∉ [ch] ∧ '\n' ∉ [ch] :=
    List.all_iff_forall_prop.1 (by decide)
  have hopens := h.append_cons (c := ' ') (Yaml.Clear.of_not_mem (hclear ch hch).1 (hclear ch hch).2)
    (by decide) (by decide)
  simpa using hopens

theorem Front.dash (h : Front column front) : Front (column + 2) (front ++ ['-', ' ']) where
  opens := h.opens.mark (by decide)
  margin text htext := by
    rw [List.append_assoc] at htext ⊢
    rw [h.margin _ htext, Nat.add_assoc]
    rfl

/-- No value begins behind a colon without a key. -/
theorem startsValue_colon (n : Nat) (text : List Char) :
    startsValue (spaces n ++ ':' :: text) = false := by
  obtain ⟨dashes, hsplit, -, hlength⟩ := Script.exists_dashes (Nat.le_refl (spaces n ++ ':' :: text).length)
  have hafter : Script.afterDashes (spaces n ++ ':' :: text).length (spaces n ++ ':' :: text) =
      ':' :: text := by
    rw [keyColumn_spaces, ← Yaml.length_spaces n] at hlength
    exact (List.append_inj hsplit (by simpa [keyColumn] using hlength)).2.symm
  rw [startsValue, hafter]
  dsimp only
  split
  next key hkey =>
    have hcolon := Transform.eq_of_beforeEnd? hkey
    cases key with
    | nil => rfl
    | cons ch key =>
      obtain ⟨rfl, -⟩ := List.cons.inj hcolon
      simp
  next => rfl

theorem front_colon (n : Nat) : Front (n + 2) (spaces n ++ [':', ' ']) where
  opens := (opens_spaces n).mark (by decide)
  margin text htext := by
    rw [List.append_assoc] at htext
    rw [List.cons_append, startsValue_colon] at htext
    cases htext

/-! ### Scalars -/

/-- A string that is copied and read back. -/
structure Copied (s : String) : Prop where
  free : Free placeholderStart s.toList
  ends : EndsBlock s.toList

/-- The strings, keys and numbers of a value that is read back when its scripts are in place. -/
structure Readable (scripts texts keys : List String) (numbers : List Number) : Prop where
  texts : ∀ s ∈ texts, Copied s ∨ ∃ n script, s = placeholder n ∧ scripts[n]? = some script ∧
    ∀ ch ∈ script.toList, IsSafe ch
  keys : ∀ key ∈ keys, Copied key
  numbers : ∀ n ∈ numbers, ReadsBack n

theorem Readable.split {scripts texts texts' keys keys' : List String} {numbers numbers' : List Number}
    (h : Readable scripts (texts ++ texts') (keys ++ keys') (numbers ++ numbers')) :
    Readable scripts texts keys numbers ∧ Readable scripts texts' keys' numbers' := by
  obtain ⟨htexts, hkeys, hnumbers⟩ := h
  rw [List.forall_mem_append] at htexts hkeys hnumbers
  exact ⟨⟨htexts.1, hkeys.1, hnumbers.1⟩, ⟨htexts.2, hkeys.2, hnumbers.2⟩⟩

theorem clear_scalarLines {v : Json} (htext : ∀ s, v = .str s → Free placeholderStart s.toList) :
    ∀ l ∈ scalarLines v, l.Clear := by
  cases v with
  | str s => exact Yaml.clear_styled false (htext s rfl)
  | num n => exact List.forall_mem_singleton.2 (.of (Yaml.clear_numberChars n))
  | bool b => cases b <;> exact List.forall_mem_singleton.2 (.of (.of_not_mem (by decide) (by decide)))
  | _ => exact List.forall_mem_singleton.2 (.of (.of_not_mem (by decide) (by decide)))

variable {scripts : List String} {indent : Nat} {v : Json}

/-- A scalar without a placeholder is copied. -/
theorem exists_copied (hopens : Opens front) (harr : ∀ x items, v ≠ .arr (x :: items))
    (hobj : ∀ e fields, v ≠ .obj (e :: fields)) (hnumber : ∀ n, v = .num n → ReadsBack n)
    (htext : ∀ s, v = .str s → Copied s) : ∃ written a, Written column written a v ∧
      Comes scripts indent front (column + 2) (scalarLines v) written := by
  obtain ⟨a, hwritten⟩ := Yaml.exists_written harr hobj hnumber fun s hs =>
    (htext s hs).ends
  exact ⟨_, a, hwritten, comes_of_clear hopens (clear_scalarLines fun s hs => (htext s hs).free)
    hwritten.ends hwritten.allowed⟩

/-- A placeholder gives way to its script. -/
theorem exists_spliced {n : Nat} {script : String} (hindent : 0 < indent)
    (hopens : Opens (front ++ [' ']))
    (hcolumn : startsValue (front ++ [' ']) = true → column ≤ keyColumn (front ++ [' ']))
    (hscript : scripts[n]? = some script) (hsafe : ∀ ch ∈ script.toList, IsSafe ch) :
    ∃ written, Written column written (.scalar false script) (.str script) ∧
      Comes scripts indent (front ++ [' ']) (column + 2) (scalarLines (.str (placeholder n))) written := by
  have hfree := hopens.free [] (by decide)
  rw [List.append_nil] at hfree
  have hfine : TextLine.Fine (.slot (front ++ [' ']) n) := .slot hfree
  have hbecomes : TextLine.Becomes scripts indent (.slot (front ++ [' ']) n) _ :=
    becomes_spliceLine hfine fun m hm => by
      obtain rfl := Option.mem_some.1 hm
      exact (List.getElem?_eq_some_iff.1 hscript).1
  obtain ⟨written, houtput, hwritten⟩ :=
    exists_written_script hindent hscript hsafe hcolumn hbecomes
  have hjoined : joined (behind (front ++ [' ']) (column + 2) (scalarLines (.str (placeholder n)))) =
      (TextLine.slot (front ++ [' ']) n).text := by
    simp [Yaml.scalarLines_placeholder, behind, joined, Line.of, TextLine.text]
  have hline : '\n' ∉ front ++ [' '] ++ (placeholder n).toList := by
    rw [List.mem_append, not_or]
    exact ⟨hopens.line, fun hmem => absurd (Yaml.isWordChar_placeholder hmem) (by decide)⟩
  refine ⟨written, hwritten, ?_, ?_, hwritten.allowed⟩
  · rw [hjoined, ← houtput, spliced]
    have hlines := Script.linesWithEnds_append hline []
    rw [TextLine.text, hlines]
    exact List.append_nil _
  · rw [hjoined]
    exact List.getLast?_concat

/-- A value that is no block becomes an atom in every place, its script in the place of a placeholder. -/
def AtomLaid (scripts : List String) (indent : Nat) (v : Json) : Prop :=
  ∀ column front, Opens (front ++ [' ']) →
    (startsValue (front ++ [' ']) = true → column ≤ keyColumn (front ++ [' '])) →
    ∃ written a, Written column written a (v.mapStrings (restore scripts)) ∧
      Comes scripts indent (front ++ [' ']) (column + 2) (scalarLines v) written

theorem atomLaid (hindent : 0 < indent) (harr : ∀ x items, v ≠ .arr (x :: items))
    (hobj : ∀ e fields, v ≠ .obj (e :: fields))
    (hv : Readable scripts v.strings v.keys v.numbers) : AtomLaid scripts indent v := by
  intro column front hopens hcolumn
  have hcopied : (∀ s, v = .str s → Copied s) → ∃ written a, Written column written a v ∧
      Comes scripts indent (front ++ [' ']) (column + 2) (scalarLines v) written :=
    exists_copied hopens harr hobj fun n hn => hv.numbers n (by simp [hn, Json.numbers])
  by_cases hstr : ∃ s, v = .str s
  · obtain ⟨s, rfl⟩ := hstr
    rcases hv.texts s (List.mem_singleton_self s) with hs | ⟨n, script, rfl, hscript, hsafe⟩
    · have hfixed : restore scripts s = s := restore_of_free scripts hs.free
      rw [Json.mapStrings, hfixed]
      exact hcopied fun s' hs' => Json.str.inj hs' ▸ hs
    · obtain ⟨written, hwritten, hcomes⟩ := exists_spliced hindent hopens hcolumn hscript hsafe
      rw [Json.mapStrings, restore_placeholder hscript]
      exact ⟨written, _, hwritten, hcomes⟩
  · have hself := hcopied fun s hs => absurd ⟨s, hs⟩ hstr
    cases v with
    | str s => exact absurd ⟨s, rfl⟩ hstr
    | arr items =>
      cases items with
      | nil => exact hself
      | cons x items => exact absurd rfl (harr x items)
    | obj fields =>
      cases fields with
      | nil => exact hself
      | cons e fields => exact absurd rfl (hobj e fields)
    | _ => exact hself

/-! ### Values -/

section

variable (scripts : List String) (indent : Nat)

/-- List items at a column whose lines become the text of layouts. -/
def ItemsLaid (items : List Json) : Prop :=
  ∀ column front, Front column front → ∃ ls : List Layout, ls ≠ [] ∧ Layout.ItemsFit column ls ∧
    Layout.ItemsMean ls (Json.mapItemStrings (restore scripts) items) ∧ Headed (itemLines items) ∧
    Comes scripts indent front column (itemLines items) (Layout.itemsText column ls)

/-- Record fields at a column whose lines become the text of layouts. -/
def FieldsLaid (fields : List (String × Json)) : Prop :=
  ∀ column front, Front column front → ∃ ls : List (Key × Layout), ls ≠ [] ∧
    Layout.FieldsFit column ls ∧
    Layout.FieldsMean ls (Json.mapFieldStrings (restore scripts) fields) ∧ Headed (fieldLines fields) ∧
    Comes scripts indent front column (fieldLines fields) (Layout.fieldsText column ls)

/-- A value whose lines become the text of a layout. -/
def Laid : Json → Prop
  | .arr (v :: rest) => ItemsLaid scripts indent (v :: rest)
  | .obj (e :: rest) => FieldsLaid scripts indent (e :: rest)
  | v => AtomLaid scripts indent v

end

theorem AtomLaid.exists_layout (h : AtomLaid scripts indent v) (hlines : lines v = scalarLines v)
    (hfront : Front (column + 2) front) (hspace : front.getLast? = some ' ') :
    ∃ l : Layout, l.Fits column (column + 2) ∧ l.Means (v.mapStrings (restore scripts)) ∧
      Comes scripts indent front (column + 2) (lines v) (l.text (column + 2)) := by
  obtain ⟨front, rfl⟩ := List.getLast?_eq_some_iff.1 hspace
  obtain ⟨written, a, hwritten, hcomes⟩ := h column front hfront.opens fun hstarts => by
    have hmargin := hfront.margin [] (by rwa [List.append_nil])
    rw [List.append_nil] at hmargin
    omega
  exact ⟨.atom written a, hwritten.fits, hwritten.means, hlines ▸ hcomes⟩

/-- A value behind the mark of an item. -/
theorem Laid.exists_layout (h : Laid scripts indent v) (hfront : Front (column + 2) front)
    (hspace : front.getLast? = some ' ') : ∃ l : Layout, l.Fits column (column + 2) ∧
      l.Means (v.mapStrings (restore scripts)) ∧
      Comes scripts indent front (column + 2) (lines v) (l.text (column + 2)) := by
  cases v with
  | arr items =>
    cases items with
    | nil => exact AtomLaid.exists_layout h rfl hfront hspace
    | cons v rest =>
      obtain ⟨ls, hne, hfit, hmean, -, hcomes⟩ := h _ _ hfront
      exact ⟨.list ls, ⟨hne, hfit⟩, ⟨_, _, rfl, hmean⟩, hcomes⟩
  | obj fields =>
    cases fields with
    | nil => exact AtomLaid.exists_layout h rfl hfront hspace
    | cons e rest =>
      obtain ⟨ls, hne, hfit, hmean, -, hcomes⟩ := h _ _ hfront
      exact ⟨.record ls, ⟨hne, hfit⟩, ⟨_, _, rfl, hmean⟩, hcomes⟩
  | _ => exact AtomLaid.exists_layout h rfl hfront hspace

/-- The text of a key in front of its value. -/
def keyText (key : String) : List Char := (styled (styleOf true key) key).flatMap Line.text

/-- A field whose lines become the text of a layout. -/
def FieldLaid (scripts : List String) (indent : Nat) (key : String) (v : Json) (column : Nat)
    (front : List Char) : Prop :=
  ∃ (k : Key) (l : Layout), k.text = key ∧ Layout.FieldsFit column [(k, l)] ∧
    (Atom.scalar k.plain k.text).Means (.str k.text) ∧ l.Means (v.mapStrings (restore scripts)) ∧
    Headed (fieldLines [(key, v)]) ∧
    Comes scripts indent front column (fieldLines [(key, v)]) (Layout.fieldsText column [(k, l)])

section Field

variable {key : String} {plain : Bool}

theorem clear_keyText (h : Free placeholderStart key.toList) : Yaml.Clear (keyText key ++ [':']) :=
  (Yaml.clear_key h).append_cons Yaml.clear_nil (by decide) (by decide)

/-- A field with a simple key, by its lines and its text. -/
theorem fieldLaid_of_simple {l : Layout} {ls : List Line} {text : List Char}
    (hkey : Yaml.WrittenKey (keyText key) plain key) (hlines : fieldLines [(key, v)] = ls)
    (hfit : l.FitsBehind column) (hmeans : l.Means (v.mapStrings (restore scripts)))
    (hheaded : Headed ls) (htext : keyText key ++ ':' :: l.behind column = text)
    (hcomes : Comes scripts indent front column ls text) : FieldLaid scripts indent key v column front := by
  subst hlines htext
  refine ⟨⟨key, keyText key, plain, true⟩, l, rfl, ⟨⟨hkey.fits, hfit⟩, trivial⟩, hkey.means, hmeans,
    hheaded, ?_⟩
  simpa [Layout.fieldsText, Layout.onward] using hcomes

theorem fieldLaid_keyed (hsimple : Yaml.isSimpleKey key = true) (hfront : Front column front)
    (hfree : Free placeholderStart key.toList)
    (hlines : fieldLines [(key, v)] = Yaml.keyed key (scalarLines v))
    (h : AtomLaid scripts indent v) : FieldLaid scripts indent key v column front := by
  obtain ⟨plain, hkey⟩ := Yaml.exists_writtenKey hsimple
  have hopens : Opens (front ++ (keyText key ++ [':']) ++ [' ']) :=
    hfront.opens.append_cons (clear_keyText hfree) (by decide) (by decide)
  obtain ⟨written, a, hwritten, hcomes⟩ := h column (front ++ (keyText key ++ [':'])) hopens
    fun hstarts => by
      rw [List.append_assoc] at hstarts ⊢
      have hmargin := hfront.margin _ hstarts
      omega
  have hhead : front ++ (keyText key ++ [':']) ++ [' '] = front ++ (keyText key ++ [':', ' ']) := by simp
  rw [hhead] at hcomes
  refine fieldLaid_of_simple (l := .atom written a) hkey hlines hwritten.fits hwritten.means
    (headed_behind (by simp) 2 hcomes.ne_nil) ?_ (hcomes.behind ?_)
  · simp [Layout.behind, keyText]
  · exact List.forall_mem_append.2 ⟨hkey.allowed, List.all_iff_forall_prop.1 (by decide)⟩

theorem comes_key (hkey : Yaml.WrittenKey (keyText key) plain key) (hopens : Opens front)
    (hfree : Free placeholderStart key.toList) :
    Comes scripts indent front column [.of (keyText key ++ [':'])] (keyText key ++ [':', '\n']) := by
  have hjoined : joined (behind [] column [.of (keyText key ++ [':'])]) = keyText key ++ [':', '\n'] := by
    simp [behind, joined, Line.of]
  have hallowed : ∀ ch ∈ keyText key ++ [':', '\n'], isAllowed ch = true :=
    List.forall_mem_append.2 ⟨hkey.allowed, List.all_iff_forall_prop.1 (by decide)⟩
  rw [← hjoined] at hallowed ⊢
  refine comes_of_clear hopens (List.forall_mem_singleton.2 (.of (clear_keyText hfree))) ?_ hallowed
  simp [hjoined]

theorem headed_key (ls : List Line) : Headed (.of (keyText key ++ [':']) :: ls) :=
  ⟨_, _, rfl, by simp [Line.of]⟩

/-- A list is not indented below its key. -/
theorem fieldLaid_list {items : List Json} {x : Json} (hsimple : Yaml.isSimpleKey key = true)
    (hfront : Front column front) (hfree : Free placeholderStart key.toList)
    (h : ItemsLaid scripts indent (x :: items)) :
    FieldLaid scripts indent key (.arr (x :: items)) column front := by
  obtain ⟨plain, hkey⟩ := Yaml.exists_writtenKey hsimple
  obtain ⟨ls, hne, hfit, hmean, hheaded, hcomes⟩ := h column _ (front_spaces column)
  have hlines : fieldLines [(key, .arr (x :: items))] =
      [.of (keyText key ++ [':'])] ++ (itemLines (x :: items)).map (Line.indent 0) := by
    rw [Yaml.map_indent_zero]
    simp [fieldLines, hsimple, Yaml.headed, lines, keyText]
  refine fieldLaid_of_simple (l := .list ls) hkey hlines ⟨hne, hfit⟩ ⟨_, _, rfl, hmean⟩ (headed_key _) ?_
    ((comes_key hkey hfront.opens hfree).append hheaded hcomes)
  simp [Layout.behind]

theorem fieldLaid_record {fields : List (String × Json)} {e : String × Json}
    (hsimple : Yaml.isSimpleKey key = true) (hfront : Front column front)
    (hfree : Free placeholderStart key.toList) (h : FieldsLaid scripts indent (e :: fields)) :
    FieldLaid scripts indent key (.obj (e :: fields)) column front := by
  obtain ⟨plain, hkey⟩ := Yaml.exists_writtenKey hsimple
  obtain ⟨ls, hne, hfit, hmean, hheaded, hcomes⟩ := h (column + 2) _ (front_spaces (column + 2))
  have hlines : fieldLines [(key, .obj (e :: fields))] =
      [.of (keyText key ++ [':'])] ++ (fieldLines (e :: fields)).map (Line.indent 2) := by
    rw [fieldLines, fieldLines]
    simp [hsimple, Yaml.headed, lines, keyText]
  refine fieldLaid_of_simple (l := .record ls) hkey hlines ⟨hne, hfit⟩ ⟨_, _, rfl, hmean⟩ (headed_key _) ?_
    ((comes_key hkey hfront.opens hfree).append hheaded hcomes)
  simp [Layout.behind]

/-- A key on lines of its own. -/
theorem fieldLaid_explicit (hsimple : Yaml.isSimpleKey key = false) (hfront : Front column front)
    (hkey : Copied key) (h : Laid scripts indent v) : FieldLaid scripts indent key v column front := by
  have hopens : Opens (front ++ ['?', ' ']) := hfront.opens.mark (by decide)
  obtain ⟨written, plain, hwritten, hmark⟩ : ∃ written plain,
      Written column written (.scalar plain key) (.str key) ∧
        Comes scripts indent (front ++ ['?', ' ']) (column + 2) (scalarLines (.str key)) written := by
    obtain ⟨plain, hwritten⟩ := Yaml.exists_written_str hkey.ends
    exact ⟨_, plain, hwritten, comes_of_clear hopens (Yaml.clear_styled false hkey.free) hwritten.ends
      hwritten.allowed⟩
  obtain ⟨l, hfit, hmeans, hcomes⟩ := h.exists_layout (front_colon column) (by simp)
  have hlines : fieldLines [(key, v)] = behind ['?', ' '] 2 (scalarLines (.str key)) ++
      (behind [':', ' '] 2 (lines v)).map (Line.indent 0) := by
    rw [Yaml.map_indent_zero]
    simp [fieldLines, hsimple, Yaml.explicit]
  refine ⟨⟨key, written, plain, false⟩, l, rfl, ⟨⟨hwritten.fits, hfit⟩, trivial⟩, hwritten.means,
    hmeans, ?_, ?_⟩
  · rw [hlines]
    exact (headed_behind (by decide) 2 hmark.ne_nil).append _
  · have hvalue : Comes scripts indent (spaces (column + 0)) (column + 0) (behind [':', ' '] 2 (lines v))
        ([':', ' '] ++ l.text (column + 2)) := hcomes.behind (List.all_iff_forall_prop.1 (by decide))
    have hall := (hmark.behind (List.all_iff_forall_prop.1 (by decide))).append (headed_behind (by decide) 2 hcomes.ne_nil) hvalue
    rw [hlines]
    simpa [Layout.fieldsText, Layout.onward] using hall

theorem Laid.field (h : Laid scripts indent v) (hkey : Copied key) (hfront : Front column front) :
    FieldLaid scripts indent key v column front := by
  cases hsimple : Yaml.isSimpleKey key with
  | false => exact fieldLaid_explicit hsimple hfront hkey h
  | true =>
    cases v with
    | arr items =>
      cases items with
      | nil => exact fieldLaid_keyed hsimple hfront hkey.free (by simp [fieldLines, hsimple]) h
      | cons x items => exact fieldLaid_list hsimple hfront hkey.free h
    | obj fields =>
      cases fields with
      | nil => exact fieldLaid_keyed hsimple hfront hkey.free (by simp [fieldLines, hsimple]) h
      | cons e fields => exact fieldLaid_record hsimple hfront hkey.free h
    | _ => exact fieldLaid_keyed hsimple hfront hkey.free (by simp [fieldLines, hsimple]) h

end Field

theorem itemsLaid_cons {items : List Json} (hv : Laid scripts indent v)
    (hitems : items ≠ [] → ItemsLaid scripts indent items) : ItemsLaid scripts indent (v :: items) := by
  intro column front hfront
  obtain ⟨l, hfit, hmeans, hcomes⟩ := hv.exists_layout hfront.dash (by simp)
  have hheaded : Headed (behind ['-', ' '] 2 (lines v)) := headed_behind (by decide) 2 hcomes.ne_nil
  have hitem : Comes scripts indent front column (behind ['-', ' '] 2 (lines v))
      (['-', ' '] ++ l.text (column + 2)) := hcomes.behind (List.all_iff_forall_prop.1 (by decide))
  by_cases hne : items = []
  · subst hne
    refine ⟨[l], List.cons_ne_nil _ _, ⟨hfit, trivial⟩, ⟨_, _, rfl, hmeans, rfl⟩, hheaded.append _, ?_⟩
    simpa [itemLines, Layout.itemsText, Layout.onward] using hitem
  · obtain ⟨ls, hls, hfits, hmean, hheaded', hcomes'⟩ := hitems hne column _ (front_spaces column)
    have hall := hitem.append (n := 0) hheaded' hcomes'
    rw [Yaml.map_indent_zero] at hall
    refine ⟨l :: ls, List.cons_ne_nil _ _, ⟨hfit, hfits⟩, ⟨_, _, rfl, hmeans, hmean⟩, hheaded.append _, ?_⟩
    have htext : (Layout.itemsText column ls).isEmpty = false := by
      obtain ⟨l', ls, rfl⟩ := List.exists_cons_of_ne_nil hls
      rfl
    simpa [itemLines, Layout.itemsText, Layout.onward, htext] using hall

theorem fieldsLaid_cons {key : String} {fields : List (String × Json)} (hkey : Copied key)
    (hv : Laid scripts indent v) (hfields : fields ≠ [] → FieldsLaid scripts indent fields) :
    FieldsLaid scripts indent ((key, v) :: fields) := by
  intro column front hfront
  obtain ⟨k, l, rfl, hfit, hkeyMeans, hmeans, hheaded, hcomes⟩ := hv.field hkey hfront
  rw [Yaml.fieldLines_cons]
  by_cases hne : fields = []
  · subst hne
    have hnil : fieldLines [] = [] := by rw [fieldLines]
    refine ⟨[(k, l)], List.cons_ne_nil _ _, hfit, ⟨_, _, rfl, hkeyMeans, hmeans, rfl⟩,
      hheaded.append _, ?_⟩
    rwa [hnil, List.append_nil]
  · obtain ⟨ls, hls, hfits, hmean, hheaded', hcomes'⟩ := hfields hne column _ (front_spaces column)
    have hall := hcomes.append (n := 0) hheaded' hcomes'
    rw [Yaml.map_indent_zero] at hall
    refine ⟨(k, l) :: ls, List.cons_ne_nil _ _, ⟨hfit.1, hfits⟩,
      ⟨_, _, rfl, hkeyMeans, hmeans, hmean⟩, hheaded.append _, ?_⟩
    have htext : (Layout.fieldsText column ls).isEmpty = false := by
      obtain ⟨⟨k', l'⟩, ls, rfl⟩ := List.exists_cons_of_ne_nil hls
      cases hsimple : k'.simple <;> simp [Layout.fieldsText, hsimple]
    simpa [Layout.fieldsText, Layout.onward, htext] using hall

mutual

/-- A value with readable texts is written as a layout of the value with its scripts. -/
theorem laid (hindent : 0 < indent) : (v : Json) →
    Readable scripts v.strings v.keys v.numbers → Laid scripts indent v
  | .arr (x :: items), h => laid_items hindent (x :: items) h (List.cons_ne_nil x items)
  | .obj (e :: fields), h => laid_fields hindent (e :: fields) h (List.cons_ne_nil e fields)
  | .null, h | .bool _, h | .num _, h | .str _, h | .arr [], h | .obj [], h =>
    atomLaid hindent nofun nofun h

theorem laid_items (hindent : 0 < indent) : (items : List Json) →
    Readable scripts (Json.gatherItems (fun _ => []) ([·]) items)
      (Json.gatherItems ([·]) (fun _ => []) items) (Json.itemNumbers items) →
    items ≠ [] → ItemsLaid scripts indent items
  | [], _, hne => absurd rfl hne
  | v :: rest, h, _ => itemsLaid_cons (laid hindent v h.split.1) (laid_items hindent rest h.split.2)

theorem laid_fields (hindent : 0 < indent) : (fields : List (String × Json)) →
    Readable scripts (Json.gatherFields (fun _ => []) ([·]) fields)
      (Json.gatherFields ([·]) (fun _ => []) fields) (Json.fieldNumbers fields) →
    fields ≠ [] → FieldsLaid scripts indent fields
  | [], _, hne => absurd rfl hne
  | (key, v) :: rest, h, _ => by
    obtain ⟨⟨htexts, hkeys, hnumbers⟩, hrest⟩ := h.split
    obtain ⟨hkey, hkeys⟩ := List.forall_mem_cons.1 hkeys
    exact fieldsLaid_cons hkey (laid hindent v ⟨htexts, hkeys, hnumbers⟩)
      (laid_fields hindent rest hrest)

end

end Workflow.Document
