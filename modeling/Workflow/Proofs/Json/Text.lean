import Workflow.Json.Source
import Workflow.Proofs.Json.Spelling

/-!
# Values that are read where they were written

What is written with one entry a line is read as the tree of the value, with the numbers that the
numerals spell in place of its own (`Raw.ofText_pretty`), if its containers are not nested too deep. So
the value is read back when its numbers are (`readText_pretty`).
-/

namespace Workflow.Json

mutual

/-- Every number in the value is read back from its text. -/
def Legible : Json → Prop
  | .num n => n.ReadsBack
  | .arr items => LegibleItems items
  | .obj fields => LegibleFields fields
  | .null | .bool _ | .str _ => True

/-- Every item is legible. -/
def LegibleItems : List Json → Prop
  | [] => True
  | v :: rest => v.Legible ∧ LegibleItems rest

/-- The values of all fields are legible. -/
def LegibleFields : List (String × Json) → Prop
  | [] => True
  | (_, v) :: rest => v.Legible ∧ LegibleFields rest

end

mutual

/-- Every number in the value is written as a numeral. -/
def Spelled : Json → Prop
  | .num n => n.IsNumeral
  | .arr items => SpelledItems items
  | .obj fields => SpelledFields fields
  | .null | .bool _ | .str _ => True

/-- Every item is spelled. -/
def SpelledItems : List Json → Prop
  | [] => True
  | v :: rest => v.Spelled ∧ SpelledItems rest

/-- The values of all fields are spelled. -/
def SpelledFields : List (String × Json) → Prop
  | [] => True
  | (_, v) :: rest => v.Spelled ∧ SpelledFields rest

end

mutual

/-- The value with the numbers that are read where its own were written. -/
def reread : Json → Json
  | .num n => .num n.reread
  | .arr items => .arr (rereadItems items)
  | .obj fields => .obj (rereadFields fields)
  | .null => .null
  | .bool b => .bool b
  | .str s => .str s

/-- Each item with the numbers that are read. -/
def rereadItems : List Json → List Json
  | [] => []
  | v :: rest => v.reread :: rereadItems rest

/-- Each field with the numbers that are read. -/
def rereadFields : List (String × Json) → List (String × Json)
  | [] => []
  | (k, v) :: rest => (k, v.reread) :: rereadFields rest

end

mutual

/-- Whether every number in the value is read back can be decided. -/
def decLegible : (v : Json) → Decidable v.Legible
  | .num n => inferInstanceAs (Decidable n.ReadsBack)
  | .arr items => decLegibleItems items
  | .obj fields => decLegibleFields fields
  | .null | .bool _ | .str _ => isTrue trivial

/-- Whether every number in the items is read back can be decided. -/
def decLegibleItems : (items : List Json) → Decidable (LegibleItems items)
  | [] => isTrue trivial
  | v :: rest => @instDecidableAnd _ _ (decLegible v) (decLegibleItems rest)

/-- Whether every number in the fields is read back can be decided. -/
def decLegibleFields : (fields : List (String × Json)) → Decidable (LegibleFields fields)
  | [] => isTrue trivial
  | (_, v) :: rest => @instDecidableAnd _ _ (decLegible v) (decLegibleFields rest)

end

instance (v : Json) : Decidable v.Legible := decLegible v

mutual

/-- What is read back is written as numerals, which spell the value itself. -/
theorem Legible.rereads : {v : Json} → v.Legible → v.Spelled ∧ v.reread = v
  | .null, _ | .bool _, _ | .str _, _ => ⟨trivial, rfl⟩
  | .num _, h => ⟨Number.ReadsBack.isNumeral h, congrArg num (Number.ReadsBack.reread_eq h)⟩
  | .arr _, h => (LegibleItems.rereads h).imp_right (congrArg arr)
  | .obj _, h => (LegibleFields.rereads h).imp_right (congrArg obj)

theorem LegibleItems.rereads : {items : List Json} → LegibleItems items →
    SpelledItems items ∧ rereadItems items = items
  | [], _ => ⟨trivial, rfl⟩
  | _ :: _, ⟨hv, hrest⟩ =>
    have ⟨hv, heq⟩ := Legible.rereads hv
    have ⟨hrest, hrestEq⟩ := LegibleItems.rereads hrest
    ⟨⟨hv, hrest⟩, congrArg₂ List.cons heq hrestEq⟩

theorem LegibleFields.rereads : {fields : List (String × Json)} → LegibleFields fields →
    SpelledFields fields ∧ rereadFields fields = fields
  | [], _ => ⟨trivial, rfl⟩
  | (k, _) :: _, ⟨hv, hrest⟩ =>
    have ⟨hv, heq⟩ := Legible.rereads hv
    have ⟨hrest, hrestEq⟩ := LegibleFields.rereads hrest
    ⟨⟨hv, hrest⟩, congrArg₂ List.cons (congrArg (Prod.mk k) heq) hrestEq⟩

end

theorem legibleItems_iff {items : List Json} : LegibleItems items ↔ ∀ v ∈ items, v.Legible := by
  induction items with
  | nil => exact iff_of_true trivial nofun
  | cons v rest ih => rw [LegibleItems, ih, List.forall_mem_cons]

theorem legibleFields_iff {fields : List (String × Json)} :
    LegibleFields fields ↔ ∀ e ∈ fields, e.2.Legible := by
  induction fields with
  | nil => exact iff_of_true trivial nofun
  | cons e rest ih => rw [LegibleFields, ih, List.forall_mem_cons]

theorem spelledFields_iff {fields : List (String × Json)} :
    SpelledFields fields ↔ ∀ e ∈ fields, e.2.Spelled := by
  induction fields with
  | nil => exact iff_of_true trivial nofun
  | cons e rest ih => rw [SpelledFields, ih, List.forall_mem_cons]

theorem rereadFields_eq_map (fields : List (String × Json)) :
    rereadFields fields = fields.map fun e => (e.1, e.2.reread) := by
  induction fields with
  | nil => rfl
  | cons e rest ih => rw [rereadFields, ih, List.map_cons]

/-! ### Layout -/

theorem length_breakAt_pos (level : Nat) : 0 < (breakAt level).length := Nat.succ_pos _

theorem prettyItems_singleton (level : Nat) (v : Json) :
    prettyItems level [v] = breakAt level ++ v.prettyChars level := by
  rw [prettyItems]

theorem prettyItems_cons (level : Nat) (v w : Json) (items : List Json) :
    prettyItems level (v :: w :: items)
      = breakAt level ++ (v.prettyChars level ++ ',' :: prettyItems level (w :: items)) := by
  rw [prettyItems, List.append_assoc]
  exact List.cons_ne_nil w items

theorem prettyFields_singleton (level : Nat) (k : String) (v : Json) :
    prettyFields level [(k, v)]
      = breakAt level ++ (quoted k ++ ':' :: ' ' :: v.prettyChars level) := by
  rw [prettyFields, List.append_assoc]

theorem prettyFields_cons (level : Nat) (k : String) (v : Json) (e : String × Json)
    (fields : List (String × Json)) :
    prettyFields level ((k, v) :: e :: fields) = breakAt level ++ (quoted k ++ ':' :: ' ' ::
      (v.prettyChars level ++ ',' :: prettyFields level (e :: fields))) := by
  rw [prettyFields]
  · simp only [List.append_assoc, List.cons_append]
  · exact List.cons_ne_nil e fields

theorem prettyChars_arr_cons (level : Nat) (v : Json) (items : List Json) :
    prettyChars level (.arr (v :: items))
      = '[' :: (prettyItems (level + 1) (v :: items) ++ (breakAt level ++ [']'])) := by
  rw [prettyChars, List.cons_append, List.cons_append, List.append_assoc]

theorem prettyChars_obj_cons (level : Nat) (e : String × Json) (fields : List (String × Json)) :
    prettyChars level (.obj (e :: fields))
      = '\x7b' :: (prettyFields (level + 1) (e :: fields) ++ (breakAt level ++ ['\x7d'])) := by
  rw [prettyChars, List.cons_append, List.cons_append, List.append_assoc]

theorem length_prettyFields_pos (level : Nat) (e : String × Json) (fields : List (String × Json)) :
    0 < (prettyFields level (e :: fields)).length := by
  cases fields with
  | nil =>
    rw [prettyFields_singleton]
    exact Nat.succ_pos _
  | cons f fields =>
    rw [prettyFields_cons]
    exact Nat.succ_pos _

theorem delimited_breakAt (level : Nat) (text : List Char) : Delimited (breakAt level ++ text) := by
  intro c hc
  cases hc
  exact .inr rfl

theorem delimited_comma (text : List Char) : Delimited (',' :: text) := by
  intro c hc
  cases hc
  exact .inl rfl

theorem delimited_nil : Delimited [] := nofun

namespace Raw

variable {limit fuel depth : Nat} {rest : List Char}

theorem skipBlanks_of_not_isBlank {c : Char} (h : isBlank c = false) (text : List Char) :
    skipBlanks (c :: text) = c :: text := by
  rw [skipBlanks, h]
  rfl

theorem skipBlanks_breakAt (level : Nat) (text : List Char) :
    skipBlanks (breakAt level ++ text) = skipBlanks text := by
  show skipBlanks (List.replicate (2 * level) ' ' ++ text) = _
  induction 2 * level with
  | zero => rfl
  | succ n ih =>
    rw [List.replicate_succ, List.cons_append]
    exact ih

theorem skipBlanks_skipBlanks (text : List Char) : skipBlanks (skipBlanks text) = skipBlanks text := by
  induction text with
  | nil => rfl
  | cons c text ih =>
    rw [skipBlanks]
    split
    · exact ih
    next h => exact skipBlanks_of_not_isBlank (Bool.eq_false_iff.2 h) text

/-- Blanks in front of a value do not count. -/
theorem parseValue_congr {text text' : List Char} (h : skipBlanks text = skipBlanks text') :
    parseValue limit fuel depth text = parseValue limit fuel depth text' := by
  cases fuel with
  | zero => rw [parseValue, parseValue]
  | succ fuel => rw [parseValue, parseValue, h]

theorem parseValue_space (text : List Char) :
    parseValue limit fuel depth (' ' :: text) = parseValue limit fuel depth text :=
  parseValue_congr rfl

theorem parseItems_congr {text text' : List Char} (h : skipBlanks text = skipBlanks text') :
    parseItems limit fuel depth text = parseItems limit fuel depth text' := by
  cases fuel with
  | zero => rw [parseItems, parseItems]
  | succ fuel => rw [parseItems, parseItems, parseValue_congr h]

theorem parseFields_congr {text text' : List Char} (h : skipBlanks text = skipBlanks text') :
    parseFields limit fuel depth text = parseFields limit fuel depth text' := by
  cases fuel with
  | zero => rw [parseFields, parseFields]
  | succ fuel => rw [parseFields, parseFields, h]

/-! ### Scalars -/

/-- A character that may begin a scalar. -/
structure BeginsScalar (c : Char) : Prop where
  notBlank : isBlank c = false
  notOpening : c ≠ '[' ∧ c ≠ '\x7b'
  notClosing : c ≠ ']'

theorem parseValue_scalar {c : Char} (hc : BeginsScalar c) (text : List Char) :
    parseValue limit (fuel + 1) depth (c :: text) = scalar c text := by
  rw [parseValue, skipBlanks_of_not_isBlank hc.notBlank]
  split
  next heq => cases heq
  next heq => exact absurd (List.cons.inj heq).1 hc.notOpening.1
  next heq => exact absurd (List.cons.inj heq).1 hc.notOpening.2
  next heq =>
    obtain ⟨rfl, rfl⟩ := List.cons.inj heq
    rfl

/-- Whether a character may begin a numeral. -/
def beginsNumeral (c : Char) : Bool := c = '-' || (Numeral.digit? c).isSome

theorem beginsNumeral_of_scan {c : Char} {text r : List Char} {n : Number}
    (h : Numeral.scan (c :: text) = .read n r) : beginsNumeral c = true := by
  rw [beginsNumeral, Bool.or_eq_true, decide_eq_true_eq, Option.isSome_iff_ne_none]
  refine Decidable.byContradiction fun hnot => ?_
  rw [not_or, Decidable.not_not] at hnot
  rw [Numeral.scan_eq_broken hnot.1 hnot.2] at h
  cases h

theorem ne_of_beginsNumeral {c other : Char} (h : beginsNumeral c = true)
    (hother : beginsNumeral other = false) : c ≠ other := by
  rintro rfl
  rw [h] at hother
  cases hother

theorem scalar_number (h : Delimited rest) {n : Number} (hn : n.IsNumeral) :
    ∃ c text, n.write = c :: text ∧ BeginsScalar c ∧
      scalar c (text ++ rest) = (.num n.reread, some rest) := by
  cases hw : n.write with
  | nil =>
    rw [Number.IsNumeral, hw] at hn
    cases hn
  | cons c text =>
    rw [Number.IsNumeral, hw] at hn
    have hscan : Numeral.scan (c :: (text ++ rest)) = .read n.reread rest := by
      rw [← List.cons_append, Numeral.scan_append h, hn]
      rfl
    have hne : ∀ other, beginsNumeral other = false → c ≠ other :=
      fun _ => ne_of_beginsNumeral (beginsNumeral_of_scan hn)
    refine ⟨c, text, rfl, ⟨?_, ⟨?_, ?_⟩, ?_⟩, ?_⟩
    · simp only [isBlank, Bool.or_eq_false_iff, decide_eq_false_iff_not]
      exact ⟨⟨⟨hne _ (by decide), hne _ (by decide)⟩, hne _ (by decide)⟩, hne _ (by decide)⟩
    · exact hne _ (by decide)
    · exact hne _ (by decide)
    · exact hne _ (by decide)
    · rw [scalar]
      · rw [hscan]
      · exact hne _ (by decide)
      · exact hne _ (by decide)
      · exact hne _ (by decide)
      · exact hne _ (by decide)

/-- A scalar at the front of a text is read as what it spells. -/
theorem scalar_scalarChars (h : Delimited rest) : {v : Json} → v.Spelled →
    (∀ items, v ≠ .arr items) → (∀ fields, v ≠ .obj fields) →
    ∃ c text, v.scalarChars = c :: text ∧ BeginsScalar c ∧
      scalar c (text ++ rest) = (ofJson v.reread, some rest)
  | .null, _, _, _ => ⟨'n', "ull".toList, rfl, ⟨by decide, by decide, by decide⟩, rfl⟩
  | .bool true, _, _, _ => ⟨'t', "rue".toList, rfl, ⟨by decide, by decide, by decide⟩, rfl⟩
  | .bool false, _, _, _ => ⟨'f', "alse".toList, rfl, ⟨by decide, by decide, by decide⟩, rfl⟩
  | .num _, hn, _, _ => scalar_number h hn
  | .str s, _, _, _ => by
    refine ⟨'"', s.toList.flatMap Quoted.escape ++ ['"'], rfl,
      ⟨by decide, by decide, by decide⟩, ?_⟩
    rw [List.append_assoc, List.singleton_append]
    simp only [scalar, Quoted.scan_flatMap_escape, String.ofList_toList]
    rfl
  | .arr items, _, harr, _ => absurd rfl (harr items)
  | .obj fields, _, _, hobj => absurd rfl (hobj fields)

/-! ### Containers -/

/-- The first character of a value is the first one that a reader looks at. -/
theorem prettyChars_begins (level : Nat) : {v : Json} → v.Spelled →
    ∃ c text, v.prettyChars level = c :: text ∧ isBlank c = false ∧ c ≠ ']'
  | .arr [], _ | .arr (_ :: _), _ => ⟨'[', _, rfl, by decide, by decide⟩
  | .obj [], _ | .obj (_ :: _), _ => ⟨'\x7b', _, rfl, by decide, by decide⟩
  | .null, h | .bool _, h | .num _, h | .str _, h => by
    obtain ⟨c, text, hc, hbegins, -⟩ := scalar_scalarChars delimited_nil h nofun nofun
    exact ⟨c, text, hc, hbegins.notBlank, hbegins.notClosing⟩

section

variable {items : List Raw} {fields : List (String × Raw)} {ending : Ending} {r : Raw}
  {text after : List Char} {rest? : Option (List Char)}

theorem parseValue_arr (hdepth : depth < limit) {c : Char} {tail : List Char}
    (hskip : skipBlanks text = c :: tail) (hc : c ≠ ']')
    (h : parseItems limit fuel (depth + 1) text = (items, ending, rest?)) :
    parseValue limit (fuel + 1) depth ('[' :: text) = (.arr items ending, rest?) := by
  rw [parseItems_congr (skipBlanks_skipBlanks text).symm, hskip] at h
  rw [parseValue, skipBlanks_of_not_isBlank (by decide)]
  simp only [hskip]
  split
  next heq => exact absurd (List.cons.inj heq).1 hc
  next => simp only [h, nested, if_pos hdepth]

theorem parseValue_obj (hdepth : depth < limit) {c : Char} {tail : List Char}
    (hskip : skipBlanks text = c :: tail) (hc : c ≠ '\x7d')
    (h : parseFields limit fuel (depth + 1) text = (fields, ending, rest?)) :
    parseValue limit (fuel + 1) depth ('\x7b' :: text) = (.obj fields ending, rest?) := by
  rw [parseFields_congr (skipBlanks_skipBlanks text).symm, hskip] at h
  rw [parseValue, skipBlanks_of_not_isBlank (by decide)]
  simp only [hskip]
  split
  next heq => exact absurd (List.cons.inj heq).1 hc
  next => simp only [h, nested, if_pos hdepth]

theorem parseItems_last (hvalue : parseValue limit fuel depth text = (r, some after))
    (hclose : skipBlanks after = ']' :: rest) :
    parseItems limit (fuel + 1) depth text = ([r], .closed, some rest) := by
  rw [parseItems, hvalue]
  simp only [hclose]

theorem parseItems_next (hvalue : parseValue limit fuel depth text = (r, some (',' :: rest)))
    (h : parseItems limit fuel depth rest = (items, ending, rest?)) :
    parseItems limit (fuel + 1) depth text = (r :: items, ending, rest?) := by
  rw [parseItems, hvalue]
  simp only [skipBlanks_of_not_isBlank (by decide : isBlank ',' = false), h]

/-- A key at the front of a line is read, and its value is next. -/
theorem parseFields_key (key : String) (level : Nat) (text : List Char) :
    parseFields limit (fuel + 1) depth (breakAt level ++ (quoted key ++ text))
      = parseField limit fuel depth key text := by
  have hquoted : quoted key ++ text
      = '"' :: (key.toList.flatMap Quoted.escape ++ '"' :: text) := by
    rw [quoted, Quoted.quote, List.append_assoc, List.singleton_append]
    rfl
  rw [parseFields, skipBlanks_breakAt, hquoted, skipBlanks_of_not_isBlank (by decide)]
  simp only [Quoted.scan_flatMap_escape, String.ofList_toList]

theorem parseField_last {key : String} (hvalue : parseValue limit fuel depth text = (r, some after))
    (hclose : skipBlanks after = '\x7d' :: rest) :
    parseField limit (fuel + 1) depth key (':' :: ' ' :: text)
      = ([(key, r)], .closed, some rest) := by
  rw [parseField, skipBlanks_of_not_isBlank (by decide)]
  simp only [parseValue_space, hvalue, hclose]

theorem parseField_next {key : String}
    (hvalue : parseValue limit fuel depth text = (r, some (',' :: rest)))
    (h : parseFields limit fuel depth rest = (fields, ending, rest?)) :
    parseField limit (fuel + 1) depth key (':' :: ' ' :: text)
      = ((key, r) :: fields, ending, rest?) := by
  rw [parseField, skipBlanks_of_not_isBlank (by decide)]
  simp only [parseValue_space, hvalue, skipBlanks_of_not_isBlank (by decide : isBlank ',' = false), h]

end

theorem skipBlanks_breakAt_of_not_isBlank (level : Nat) {c : Char} (h : isBlank c = false)
    (text : List Char) : skipBlanks (breakAt level ++ c :: text) = c :: text :=
  (skipBlanks_breakAt level _).trans (skipBlanks_of_not_isBlank h text)

theorem prettyItems_begins (level : Nat) {v : Json} (hv : v.Spelled) (items : List Json)
    (text : List Char) : ∃ c tail,
      skipBlanks (prettyItems level (v :: items) ++ text) = c :: tail ∧ c ≠ ']' := by
  obtain ⟨c, tail, hc, hblank, hne⟩ := prettyChars_begins level hv
  cases items with
  | nil =>
    rw [prettyItems_singleton, hc, List.append_assoc, List.cons_append]
    exact ⟨c, _, skipBlanks_breakAt_of_not_isBlank level hblank _, hne⟩
  | cons w items =>
    rw [prettyItems_cons, hc, List.append_assoc, List.cons_append, List.cons_append]
    exact ⟨c, _, skipBlanks_breakAt_of_not_isBlank level hblank _, hne⟩

theorem prettyFields_begins (level : Nat) (e : String × Json) (fields : List (String × Json))
    (text : List Char) : ∃ c tail,
      skipBlanks (prettyFields level (e :: fields) ++ text) = c :: tail ∧ c ≠ '\x7d' := by
  refine ⟨'"', ?_⟩
  cases fields with
  | nil =>
    rw [prettyFields_singleton, List.append_assoc]
    exact ⟨_, skipBlanks_breakAt_of_not_isBlank level (by decide) _, by decide⟩
  | cons f fields =>
    rw [prettyFields_cons, List.append_assoc]
    exact ⟨_, skipBlanks_breakAt_of_not_isBlank level (by decide) _, by decide⟩

-- A step of the parser uses up one unit of fuel, and between two steps on the same value stands at
-- least one character; hence twice the length of the text is enough.
mutual

theorem parseValue_prettyChars : (v : Json) → v.Spelled → (level depth fuel : Nat) →
    depth + v.depth ≤ limit → 2 * (v.prettyChars level).length < fuel → {rest : List Char} →
    Delimited rest →
    parseValue limit fuel depth (v.prettyChars level ++ rest) = (ofJson v.reread, some rest)
  | _, _, _, _, 0, _, hfuel, _, _ => absurd hfuel (Nat.not_lt_zero _)
  | .null, hv, level, depth, fuel + 1, _, _, rest, h
  | .bool _, hv, level, depth, fuel + 1, _, _, rest, h
  | .num _, hv, level, depth, fuel + 1, _, _, rest, h
  | .str _, hv, level, depth, fuel + 1, _, _, rest, h => by
    obtain ⟨c, text, hc, hbegins, hread⟩ := scalar_scalarChars h hv nofun nofun
    rw [prettyChars, hc, List.cons_append, parseValue_scalar hbegins, hread]
    all_goals nofun
  | .arr [], _, level, depth, fuel + 1, hdepth, _, rest, h => by
    have hdepth : depth < limit := hdepth
    show parseValue limit (fuel + 1) depth ('[' :: ']' :: rest) = _
    rw [parseValue]
    simp only [skipBlanks_of_not_isBlank (by decide : isBlank '[' = false),
      skipBlanks_of_not_isBlank (by decide : isBlank ']' = false), nested, if_pos hdepth]
    rfl
  | .obj [], _, level, depth, fuel + 1, hdepth, _, rest, h => by
    have hdepth : depth < limit := hdepth
    show parseValue limit (fuel + 1) depth ('\x7b' :: '\x7d' :: rest) = _
    rw [parseValue]
    simp only [skipBlanks_of_not_isBlank (by decide : isBlank '\x7b' = false),
      skipBlanks_of_not_isBlank (by decide : isBlank '\x7d' = false), nested, if_pos hdepth]
    rfl
  | .arr (v :: items), hv, level, depth, fuel + 1, hdepth, hfuel, rest, h => by
    have hdepth : depth + (1 + depthItems (v :: items)) ≤ limit := hdepth
    rw [prettyChars_arr_cons] at hfuel ⊢
    simp only [List.length_cons, List.length_append] at hfuel
    obtain ⟨c, tail, hskip, hc⟩ := prettyItems_begins (level + 1) hv.1 items
      (breakAt level ++ ']' :: rest)
    have hitems := parseItems_prettyItems (v :: items) nofun hv (level + 1) level (depth + 1) fuel
      (by omega) (by omega) rest
    simp only [List.cons_append, List.append_assoc, List.nil_append]
    rw [parseValue_arr (by omega) hskip hc hitems, reread, ofJson]
  | .obj (e :: fields), hv, level, depth, fuel + 1, hdepth, hfuel, rest, h => by
    have hdepth : depth + (1 + depthFields (e :: fields)) ≤ limit := hdepth
    rw [prettyChars_obj_cons] at hfuel ⊢
    simp only [List.length_cons, List.length_append] at hfuel
    obtain ⟨c, tail, hskip, hc⟩ := prettyFields_begins (level + 1) e fields
      (breakAt level ++ '\x7d' :: rest)
    have hfields := parseFields_prettyFields (e :: fields) nofun hv (level + 1) level (depth + 1)
      fuel (by omega) (by omega) rest
    simp only [List.cons_append, List.append_assoc, List.nil_append]
    rw [parseValue_obj (by omega) hskip hc hfields, reread, ofJson]

theorem parseItems_prettyItems : (items : List Json) → items ≠ [] → SpelledItems items →
    (level outer depth fuel : Nat) → depth + depthItems items ≤ limit →
    2 * (prettyItems level items).length < fuel → (rest : List Char) →
    parseItems limit fuel depth (prettyItems level items ++ (breakAt outer ++ ']' :: rest))
      = (ofItems (rereadItems items), .closed, some rest)
  | _, _, _, _, _, _, 0, _, hfuel, _ => absurd hfuel (Nat.not_lt_zero _)
  | [], hne, _, _, _, _, _, _, _, _ => absurd rfl hne
  | [v], _, hv, level, outer, depth, fuel + 1, hdepth, hfuel, rest => by
    have hdepth : depth + max v.depth 0 ≤ limit := hdepth
    have hbreak := length_breakAt_pos level
    rw [prettyItems_singleton] at hfuel ⊢
    rw [List.length_append] at hfuel
    have hvalue := parseValue_prettyChars v hv.1 level depth fuel (by omega) (by omega)
      (delimited_breakAt outer (']' :: rest))
    rw [List.append_assoc]
    refine parseItems_last ?_ (skipBlanks_breakAt_of_not_isBlank outer (by decide) rest)
    rw [parseValue_congr (skipBlanks_breakAt level _), hvalue]
  | v :: w :: items, _, hv, level, outer, depth, fuel + 1, hdepth, hfuel, rest => by
    have hdepth : depth + max v.depth (depthItems (w :: items)) ≤ limit := hdepth
    rw [prettyItems_cons] at hfuel ⊢
    rw [List.length_append, List.length_append, List.length_cons] at hfuel
    have hvalue := parseValue_prettyChars v hv.1 level depth fuel (by omega) (by omega)
      (delimited_comma (prettyItems level (w :: items) ++ (breakAt outer ++ ']' :: rest)))
    have hitems := parseItems_prettyItems (w :: items) nofun hv.2 level outer depth fuel (by omega)
      (by omega) rest
    rw [List.append_assoc, List.append_assoc, List.cons_append]
    refine parseItems_next ?_ hitems
    rw [parseValue_congr (skipBlanks_breakAt level _), hvalue]

theorem parseFields_prettyFields : (fields : List (String × Json)) → fields ≠ [] →
    SpelledFields fields → (level outer depth fuel : Nat) → depth + depthFields fields ≤ limit →
    2 * (prettyFields level fields).length < fuel → (rest : List Char) →
    parseFields limit fuel depth (prettyFields level fields ++ (breakAt outer ++ '\x7d' :: rest))
      = (ofFields (rereadFields fields), .closed, some rest)
  | _, _, _, _, _, _, 0, _, hfuel, _ => absurd hfuel (Nat.not_lt_zero _)
  | [], hne, _, _, _, _, _, _, _, _ => absurd rfl hne
  | e :: fields, _, _, level, _, _, 1, _, hfuel, _ => by
    have hpos := length_prettyFields_pos level e fields
    omega
  | [(k, v)], _, hv, level, outer, depth, fuel + 2, hdepth, hfuel, rest => by
    have hdepth : depth + max v.depth 0 ≤ limit := hdepth
    have hbreak := length_breakAt_pos level
    rw [prettyFields_singleton] at hfuel ⊢
    simp only [List.length_append, List.length_cons] at hfuel
    have hvalue := parseValue_prettyChars v hv.1 level depth fuel (by omega) (by omega)
      (delimited_breakAt outer ('\x7d' :: rest))
    simp only [List.append_assoc, List.cons_append]
    rw [parseFields_key]
    exact parseField_last hvalue (skipBlanks_breakAt_of_not_isBlank outer (by decide) rest)
  | (k, v) :: e :: fields, _, hv, level, outer, depth, fuel + 2, hdepth, hfuel, rest => by
    have hdepth : depth + max v.depth (depthFields (e :: fields)) ≤ limit := hdepth
    rw [prettyFields_cons] at hfuel ⊢
    simp only [List.length_append, List.length_cons] at hfuel
    have hvalue := parseValue_prettyChars v hv.1 level depth fuel (by omega) (by omega)
      (delimited_comma (prettyFields level (e :: fields) ++ (breakAt outer ++ '\x7d' :: rest)))
    have hfields := parseFields_prettyFields (e :: fields) nofun hv.2 level outer depth fuel
      (by omega) (by omega) rest
    simp only [List.append_assoc, List.cons_append]
    rw [parseFields_key]
    exact parseField_next hvalue hfields

end

/-- What is written with one entry a line is read as the tree of what it spells, and nothing is left.
-/
theorem ofText_pretty {v : Json} (hv : v.Spelled) (hdepth : v.depth ≤ limit) :
    ofText limit v.pretty = (ofJson v.reread, true) := by
  have hparse : parseValue limit (2 * (v.prettyChars 0).length + 2) 0 (v.prettyChars 0 ++ [])
      = (ofJson v.reread, some []) :=
    parseValue_prettyChars v hv 0 0 _ (by omega) (by omega) delimited_nil
  rw [List.append_nil] at hparse
  rw [ofText, pretty]
  simp only [String.toList_ofList, hparse, skipBlanks, List.isEmpty_nil]

end Raw

variable {α : Type} (read : Part → Except Complaint α) {v : Json}

/-- Reading what was written with one entry a line reads the tree of what it spells. -/
theorem readText_spelled (hv : v.Spelled) (hdepth : v.depth ≤ depthLimit) :
    readText read v.pretty = read ⟨.ofJson v.reread, true⟩ := by
  rw [readText, Raw.ofText_pretty hv hdepth]
  cases hread : read ⟨.ofJson v.reread, true⟩ <;> simp only [hread, if_true]

/-- Reading what was written with one entry a line reads the tree of the value. -/
theorem readText_pretty (hv : v.Legible) (hdepth : v.depth ≤ depthLimit) :
    readText read v.pretty = read ⟨.ofJson v, true⟩ := by
  rw [readText_spelled read hv.rereads.1 hdepth, hv.rereads.2]

end Workflow.Json
