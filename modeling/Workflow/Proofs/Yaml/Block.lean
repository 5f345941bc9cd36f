import Workflow.Proofs.Yaml.Quoted
import Workflow.Yaml.Style

/-!
# Reading literal blocks

The lines of a literal block stand at one column (`Text.bodyAt`). `block_eq` reads such a block: the
lines come back as they are, and the treatment of the breaks at its end decides what follows the
last one (`Text.content`).
-/

namespace Workflow.Yaml

/-- A line that can stand in a block. -/
def Line.Fits (l : Line) : Prop :=
  (∀ ch ∈ l.text, isBreak ch = false) ∧ isBreak l.ending = true ∧ l.ending ≠ '\r'

namespace Text

/-! ### The head of a block -/

/-- The mark for the treatment of the breaks at the end of a block. -/
def Chomp.mark : Chomp → List Char
  | .strip => ['-']
  | .clip => []
  | .keep => ['+']

/-- The head of a block behind its bar; `hint` when it tells the indentation. -/
def headOf (hint : Bool) (chomp : Chomp) : List Char :=
  (if hint then ['2'] else []) ++ chomp.mark

/-- The end of a head. -/
theorem headEnd {c : Cursor} {more : List Char} (hc : c.rest = '\n' :: more) :
    c.skipWhile isSpace = c ∧ c.shows '#' = false ∧ c.atBreakOrEnd = true ∧
      c.skipBreak = c.past ['\n'] := by
  refine ⟨@Cursor.skipWhile_eq_past _ _ [] _ hc (by simp) (by simp [isSpace]) (by simp), ?_, ?_,
    Cursor.skipBreak_eq_past hc isBreak_lineFeed (by decide)⟩
  · simp [Cursor.shows, hc]
  · rw [Cursor.atBreakOrEnd, Cursor.atBreak_eq hc, isBreak_lineFeed, Bool.or_true]

theorem blockHead_eq {hint : Bool} {chomp : Chomp} {c : Cursor} {more : List Char}
    (hc : c.rest = headOf hint chomp ++ '\n' :: more) :
    blockHead c =
      some (if hint then some 2 else none, chomp, c.past (headOf hint chomp ++ ['\n'])) := by
  have hlast := headEnd (Cursor.rest_past_of_eq hc)
  have hpast : c.past (headOf hint chomp ++ ['\n']) = (c.past (headOf hint chomp)).past ['\n'] :=
    Cursor.past_append _ _ _
  obtain ⟨hspaces, hcomment, hat, hbreak⟩ := hlast
  cases hint <;> cases chomp <;>
    simp only [headOf, Chomp.mark, Bool.false_eq_true, if_true, if_false, List.nil_append,
      List.append_nil, List.cons_append] at hc hspaces hcomment hat hbreak hpast ⊢
  case false.clip =>
    rw [Cursor.past_nil] at hspaces hcomment hat hbreak
    simp [blockHead, Cursor.shows_eq hc, hc, hspaces, hat, hbreak]
  case false.strip | false.keep =>
    have hskip := Cursor.skip_one hc (by decide)
    have hrest := @Cursor.rest_past_of_eq _ [_] _ hc
    simp [blockHead, Cursor.shows_eq hc, hskip, hrest, hspaces, hcomment, hat, hbreak, hpast]
  case true.clip =>
    have hskip := Cursor.skip_one hc (by decide)
    have hrest := @Cursor.rest_past_of_eq _ [_] _ hc
    simp [blockHead, Cursor.shows_eq hc, Cursor.shows_eq hrest, hc, hskip, hspaces, hat, hbreak,
      hpast]
  case true.strip | true.keep =>
    have hskip := Cursor.skip_one hc (by decide)
    have hrest := @Cursor.rest_past_of_eq _ [_] _ hc
    have hskip' : (c.past ['2']).skip 1 = c.past ['2', _] := Cursor.skip_one hrest (by decide)
    simp [blockHead, Cursor.shows_eq hc, Cursor.shows_eq hrest, hc, hskip, hskip', hspaces,
      hcomment, hat, hbreak, hpast]

/-! ### The lines of a block -/

/-- The text of lines at a column. -/
def bodyAt (column : Nat) (lines : List Line) : List Char :=
  lines.flatMap fun l => (l.indent column).text ++ [l.ending]

/-- What the breaks at the end of a block read as: the first one, and the others. -/
def Chomp.tail : Chomp → (first others : List Char) → List Char
  | .strip, _, _ => []
  | .clip, first, _ => first
  | .keep, first, others => first ++ others

/-- What lines read as behind the breaks `first` and `others`. -/
def content (chomp : Chomp) : (first others : List Char) → List Line → List Char
  | first, others, [] => chomp.tail first others
  | first, others, l :: lines =>
    if l.text.isEmpty then content chomp first (others ++ breakChars l.ending) lines
    else first ++ others ++ l.text ++ content chomp (breakChars l.ending) [] lines

theorem reverse_breakChars (ch : Char) : (breakChars ch).reverse = breakChars ch := by
  unfold breakChars
  split <;> rfl

section Lines

variable {column k : Nat} {more : List Char}

/-- An empty line is passed over. -/
theorem blankLines_empty {fuel furthest : Nat} {breaks : List Char} {c : Cursor} {ch : Char}
    (hc : c.rest = ch :: more) (hbreak : isBreak ch = true) (hne : ch ≠ '\r') :
    blankLines column (fuel + 1) furthest breaks c =
      blankLines column fuel (max furthest c.column) (breakChars ch ++ breaks) (c.past [ch]) := by
  have hspace : ch ≠ ' ' := by
    rintro rfl
    cases hbreak
  have htab : ch ≠ '\t' := by
    rintro rfl
    cases hbreak
  have hrun : c.run (· = ' ') = [] :=
    Cursor.run_eq hc (by simp) (by simp [hspace])
  have hskip : c.skip 0 = c := @Cursor.skip_eq_past _ [] _ rfl (by simp)
  have hat : c.atBreak = true := (Cursor.atBreak_eq hc).trans hbreak
  rw [blankLines, hrun]
  simp [hskip, Cursor.shows_eq hc, htab, hat, breakText_eq hc hbreak,
    Cursor.skipBreak_eq_past hc hbreak hne]

theorem isBlank_head (h : more.head?.any isBlank = false) :
    more.head? ≠ some ' ' ∧ more.head? ≠ some '\t' ∧ more.head?.any isBreak = false := by
  cases more with
  | nil => simp
  | cons ch more =>
      have hch : isBlank ch = false := by simpa using h
      simp only [isBlank, isSpace, Bool.or_eq_false_iff, decide_eq_false_iff_not] at hch
      simpa using ⟨hch.1.1, hch.1.2, hch.2⟩

/-- Blank lines end where a character stands behind the indentation. -/
theorem blankLines_end {fuel furthest n : Nat} {breaks : List Char} {c : Cursor}
    (hpos : 0 < column) (hcolumn : c.column = 0) (hn : n ≤ column) (hc : c.rest = spaces n ++ more)
    (hmore : n = column ∨ more.head? ≠ some ' ' ∧ more.head? ≠ some '\t')
    (hbreak : more.head?.any isBreak = false) :
    blankLines column (fuel + 1) furthest breaks c =
      some (max furthest n, breaks, c.past (spaces n)) := by
  have hrun : min (c.run (· = ' ')).length (column - c.column) = n := by
    rw [hcolumn, Nat.sub_zero, Cursor.run, hc,
      List.takeWhile_append_of_pos (fun ch hch => by simp [mem_spaces hch]), List.length_append,
      length_spaces]
    rcases hmore with rfl | ⟨hspace, -⟩
    · omega
    · cases more with
      | nil => simp [Nat.min_eq_left hn]
      | cons ch more =>
          have : ch ≠ ' ' := by simpa using hspace
          simp [this, Nat.min_eq_left hn]
  have hskip : c.skip n = c.past (spaces n) := by
    have := Cursor.skip_eq_past hc fun ch hch => not_isBreak_of_mem_spaces hch
    rwa [length_spaces] at this
  have hpast : (c.past (spaces n)).column = n := by
    rw [Cursor.column_past_spaces, hcolumn, Nat.zero_add]
  have hrest : (c.past (spaces n)).rest = more := Cursor.rest_past_of_eq hc
  have hat : (c.past (spaces n)).atBreak = false := by rw [Cursor.atBreak, hrest, hbreak]
  have htab : (n < column && (c.past (spaces n)).shows '\t') = false := by
    rcases hmore with rfl | ⟨-, htab⟩
    · simp
    · simp [Cursor.shows, hrest, htab]
  have hzero : column ≠ 0 := Nat.ne_of_gt hpos
  rw [blankLines, if_neg hzero, hrun, hskip]
  simp only [hpast, hat, htab, decide_eq_false hzero, Bool.false_or, Bool.false_eq_true, if_false]

/-- Blank lines of a block whose column is not known yet. -/
theorem blankLines_unknown {fuel : Nat} {c : Cursor} (hcolumn : c.column = 0)
    (hc : c.rest = spaces column ++ more) (hmore : more.head?.any isBlank = false) :
    blankLines 0 (fuel + 1) 0 [] c = some (column, [], c.past (spaces column)) := by
  have hhead : more.head?.any isSpace = false ∧ more.head?.any isBreak = false := by
    cases more with
    | nil => exact ⟨rfl, rfl⟩
    | cons ch more => exact isBlank_eq_false (by simpa using hmore)
  have hrun : c.run (· = ' ') = spaces column := by
    refine Cursor.run_eq hc (fun ch hch => by simp [mem_spaces hch]) ?_
    cases more with
    | nil => rfl
    | cons ch more =>
        have := hhead.1
        simp only [isSpace, List.head?_cons, Option.any_some, Bool.or_eq_false_iff] at this
        exact this.1
  have hskip := Cursor.skip_eq_past hc fun ch hch => not_isBreak_of_mem_spaces hch
  have hpast : (c.past (spaces column)).column = column := by
    rw [Cursor.column_past_spaces, hcolumn, Nat.zero_add]
  have hrest : (c.past (spaces column)).rest = more := Cursor.rest_past_of_eq hc
  have hat : (c.past (spaces column)).atBreak = false := by rw [Cursor.atBreak, hrest, hhead.2]
  have htab : (c.past (spaces column)).shows '\t' = false := by
    cases more with
    | nil => simp [Cursor.shows, hrest]
    | cons ch more =>
        have := hhead.1
        simp only [isSpace, List.head?_cons, Option.any_some, Bool.or_eq_false_iff] at this
        rw [Cursor.shows_eq hrest, this.2]
  rw [blankLines, hrun, if_pos rfl, hskip]
  simp [hpast, hat, htab]

/-- One line of a block is read, and then the blank lines behind it. -/
theorem blockLine_eq {chomp : Chomp} {least fuel : Nat} {acc first others : List Char}
    {blank : Bool} {text : List Char} {ending : Char} {c : Cursor} (hpos : 0 < column)
    (hcolumn : c.column = column) (hc : c.rest = text ++ ending :: more) (hne : text ≠ [])
    (htext : ∀ ch ∈ text, isBreak ch = false) (hending : isBreak ending = true)
    (hreturn : ending ≠ '\r') :
    blockLines false chomp least (fuel + 1) column acc first others blank c =
      (blankLines column (fuel + 1) 0 [] ((c.past text).past [ending])).bind fun r =>
        blockLines false chomp least fuel column ((first ++ others ++ text).reverse ++ acc)
          (breakChars ending) r.2.1.reverse c.atSpace r.2.2 := by
  have hline : c.run (!isBreak ·) = text :=
    Cursor.run_eq hc (fun ch hch => by simp [htext ch hch]) (by simp [hending])
  have hskip : c.skipWhile (!isBreak ·) = c.past text :=
    Cursor.skipWhile_eq_past hc (fun ch hch => by simp [htext ch hch]) (by simp [hending]) htext
  have hrest : (c.past text).rest = ending :: more := Cursor.rest_past_of_eq hc
  have hbreak := Cursor.skipBreak_eq_past hrest hending hreturn
  have hchars := breakText_eq hrest hending
  have hnonempty : c.rest.isEmpty = false := by
    rw [hc]
    cases text <;> rfl
  have hzero : column ≠ 0 := Nat.ne_of_gt hpos
  conv =>
    lhs
    unfold blockLines
  simp only [hcolumn, hnonempty, hline, hskip, hbreak, hchars, settleIndent, if_neg hzero]
  simp [Option.bind_assoc]

/-- The lines of a block, from the start of one of them on. `breaks` are the reversed breaks of the
blank lines in front of it, and `first` the break that ends the line before those. -/
theorem blockLines_eq {chomp : Chomp} {least : Nat} {lines : List Line} (hpos : 0 < column)
    (hlines : ∀ l ∈ lines, l.Fits) (hk : k < column) (hmore : more.head?.any isBlank = false) :
    ∀ {fuel fuel' furthest : Nat} {breaks acc first : List Char} {blank : Bool} {c : Cursor},
      c.column = 0 → c.rest = bodyAt column lines ++ (spaces k ++ more) →
      lines.length < fuel → lines.length < fuel' →
      ((blankLines column fuel furthest breaks c).bind fun r =>
        blockLines false chomp least fuel' column acc first r.2.1.reverse blank r.2.2) =
      some (acc.reverse ++ content chomp first breaks.reverse lines,
        c.past (bodyAt column lines ++ spaces k)) := by
  induction lines with
  | nil =>
      intro fuel fuel' furthest breaks acc first blank c hcolumn hc hfuel hfuel'
      obtain ⟨fuel, rfl⟩ : ∃ n, fuel = n + 1 := ⟨fuel - 1, by omega⟩
      obtain ⟨fuel', rfl⟩ : ∃ n, fuel' = n + 1 := ⟨fuel' - 1, by omega⟩
      have hrest : c.rest = spaces k ++ more := hc
      have hends := isBlank_head hmore
      have hcol : (c.past (spaces k)).column ≠ column := by
        rw [Cursor.column_past_spaces, hcolumn]
        omega
      rw [blankLines_end hpos hcolumn (Nat.le_of_lt hk) hrest (.inr ⟨hends.1, hends.2.1⟩) hends.2.2,
        Option.bind_some]
      unfold blockLines
      rw [if_neg (by simp [hcol]), content]
      cases chomp <;> simp [Chomp.tail, bodyAt]
  | cons l lines ih =>
      intro fuel fuel' furthest breaks acc first blank c hcolumn hc hfuel hfuel'
      obtain ⟨fuel, rfl⟩ : ∃ n, fuel = n + 1 := ⟨fuel - 1, by omega⟩
      obtain ⟨fuel', rfl⟩ : ∃ n, fuel' = n + 1 := ⟨fuel' - 1, by omega⟩
      obtain ⟨⟨htext, hending, hne⟩, hlines⟩ := List.forall_mem_cons.1 hlines
      have hnext : (c.past ((l.indent column).text ++ [l.ending])).rest =
          bodyAt column lines ++ (spaces k ++ more) :=
        Cursor.rest_past_of_eq (by rw [hc, bodyAt, List.flatMap_cons, List.append_assoc]; rfl)
      have hstart : (c.past ((l.indent column).text ++ [l.ending])).column = 0 :=
        Cursor.column_past_break c _ hending 0
      simp only [List.length_cons] at hfuel hfuel'
      cases ht : l.text with
      | nil =>
          have hindent : (l.indent column).text = [] := by simp [Line.indent, ht]
          rw [hindent, List.nil_append] at hnext hstart
          have hc' : c.rest = l.ending :: (bodyAt column lines ++ (spaces k ++ more)) := by
            rw [hc, bodyAt, List.flatMap_cons, hindent]
            rfl
          rw [blankLines_empty hc' hending hne, ih hlines hstart hnext (by omega) (by omega)]
          simp [content, ht, reverse_breakChars, bodyAt, hindent, Cursor.past_cons]
      | cons ch text =>
          have hindent : (l.indent column).text = spaces column ++ l.text := by
            simp [Line.indent, ht, spaces]
          have hc' : c.rest = spaces column ++ (l.text ++
              l.ending :: (bodyAt column lines ++ (spaces k ++ more))) := by
            rw [hc, bodyAt, List.flatMap_cons, hindent]
            simp [bodyAt]
          have hhead : (l.text ++ l.ending :: (bodyAt column lines ++ (spaces k ++ more))).head?.any
              isBreak = false := by
            rw [ht]
            exact htext ch (ht ▸ List.mem_cons_self)
          have hrest : (c.past (spaces column)).rest =
              l.text ++ l.ending :: (bodyAt column lines ++ (spaces k ++ more)) :=
            Cursor.rest_past_of_eq hc'
          have hcol : (c.past (spaces column)).column = column := by
            rw [Cursor.column_past_spaces, hcolumn, Nat.zero_add]
          have hpast : ((c.past (spaces column)).past l.text).past [l.ending] =
              c.past ((l.indent column).text ++ [l.ending]) := by
            rw [hindent, Cursor.past_append, Cursor.past_append]
          rw [blankLines_end hpos hcolumn (Nat.le_refl _) hc' (.inl rfl) hhead, Option.bind_some]
          have hline := @blockLine_eq _ _ chomp least fuel' acc first breaks.reverse blank _ _ _ hpos hcol
            hrest (by simp [ht]) htext hending hne
          have hend : (c.past ((l.indent column).text ++ [l.ending])).past
              (bodyAt column lines ++ spaces k) = c.past (bodyAt column (l :: lines) ++ spaces k) := by
            rw [← Cursor.past_append, bodyAt, bodyAt, List.flatMap_cons, List.append_assoc,
              List.append_assoc, List.append_assoc]
          rw [hline, hpast, ih hlines hstart hnext (by omega) (by omega), hend]
          simp [content, ht]

end Lines

/-- The column of a block is told by its head, or its first line tells it. -/
def Settles (hint : Bool) (parent : Option Nat) (column : Nat) (lines : List Line) : Prop :=
  if hint then column = parent.getD 0 + 2
  else (∀ n ∈ parent, n < column) ∧
    ∃ l rest, lines = l :: rest ∧ l.text.head?.any (!isBlank ·) = true

/-- The column at which the lines of a block with a parent stand at least. -/
def leastOf (parent : Option Nat) : Nat :=
  match parent with
  | some n => max (n + 1) 1
  | none => 1

/-- The column of a block is settled in front of its first line. -/
theorem settleIndent_eq {hint : Bool} {parent : Option Nat} {column fuel : Nat} {lines : List Line}
    {c : Cursor} {more : List Char} (hpos : 0 < column)
    (hsettles : Settles hint parent column lines) (hcolumn : c.column = 0)
    (hc : c.rest = bodyAt column lines ++ more) :
    settleIndent (fuel + 1) (leastOf parent) (if hint then parent.getD 0 + 2 else 0) c =
      (blankLines column (fuel + 1) 0 [] c).bind fun r => some (column, r.2.1.reverse, r.2.2) := by
  have hzero : column ≠ 0 := Nat.ne_of_gt hpos
  cases hint with
  | true =>
      obtain rfl : column = parent.getD 0 + 2 := hsettles
      simp [settleIndent]
  | false =>
      obtain ⟨hparent, l, rest, rfl, hl⟩ := hsettles
      obtain ⟨ch, text, ht⟩ : ∃ ch text, l.text = ch :: text := by
        cases ht : l.text with
        | nil => simp [ht] at hl
        | cons ch text => exact ⟨ch, text, rfl⟩
      have hch : isBlank ch = false := by simpa [ht] using hl
      have hsplit : c.rest = spaces column ++ (l.text ++ l.ending :: (bodyAt column rest ++ more)) := by
        simp [hc, bodyAt, Line.indent, ht, spaces]
      have hfirst := @blankLines_unknown _ _ fuel _ hcolumn hsplit (by simp [ht, hch])
      have hlater := @blankLines_end _ _ fuel 0 _ [] _ hpos hcolumn
        (Nat.le_refl _) hsplit (.inl rfl) (by simp [ht, (isBlank_eq_false hch).2])
      have hleast : max column (leastOf parent) = column := by
        cases parent with
        | none => exact Nat.max_eq_left hpos
        | some n =>
            have : n < column := hparent n rfl
            simp only [leastOf]
            omega
      rw [settleIndent, hlater]
      simp [hfirst, hleast]

/-- A literal block, from its bar on. -/
theorem block_eq {hint : Bool} {chomp : Chomp} {parent : Option Nat} {column k fuel : Nat}
    {lines : List Line} {c : Cursor} {more : List Char} (hpos : 0 < column)
    (hsettles : Settles hint parent column lines) (hlines : ∀ l ∈ lines, l.Fits) (hk : k < column)
    (hmore : more.head?.any isBlank = false)
    (hc : c.rest = '|' :: (headOf hint chomp ++ '\n' :: (bodyAt column lines ++ (spaces k ++ more))))
    (hfuel : lines.length < fuel) :
    block fuel false parent c = some (content chomp [] [] lines,
      c.past ('|' :: headOf hint chomp ++ '\n' :: (bodyAt column lines ++ spaces k))) := by
  obtain ⟨fuel, rfl⟩ : ∃ n, fuel = n + 1 := ⟨fuel - 1, by omega⟩
  have hskip : c.skip 1 = c.past ['|'] := Cursor.skip_one hc (by decide)
  have hhead := blockHead_eq (@Cursor.rest_past_of_eq _ ['|'] _ hc)
  have hrest : (c.past ('|' :: headOf hint chomp ++ ['\n'])).rest =
      bodyAt column lines ++ (spaces k ++ more) :=
    Cursor.rest_past_of_eq (by simpa using hc)
  have hcolumn : (c.past ('|' :: headOf hint chomp ++ ['\n'])).column = 0 :=
    Cursor.column_past_break c _ isBreak_lineFeed 0
  have hpast : (c.past ['|']).past (headOf hint chomp ++ ['\n']) =
      c.past ('|' :: headOf hint chomp ++ ['\n']) := by
    rw [← Cursor.past_append]
    rfl
  have hend : (c.past ('|' :: headOf hint chomp ++ ['\n'])).past (bodyAt column lines ++ spaces k) =
      c.past ('|' :: headOf hint chomp ++ '\n' :: (bodyAt column lines ++ spaces k)) := by
    rw [← Cursor.past_append, List.append_assoc]
    rfl
  have hsettled := @settleIndent_eq _ _ _ fuel _ _ _ hpos hsettles hcolumn hrest
  have hread := @blockLines_eq _ _ _ chomp (leastOf parent) _ hpos hlines hk hmore _ _ 0 [] [] [] false _
    hcolumn hrest hfuel hfuel
  rw [hend] at hread
  unfold block
  simp only [hskip, hhead, hpast, Option.bind_eq_bind, Option.bind_some]
  cases hint <;> cases parent <;>
    simp only [leastOf, Bool.false_eq_true, if_true, if_false] at hsettled hread ⊢ <;>
    rw [hsettled, Option.bind_assoc] <;> exact hread

end Text

end Workflow.Yaml
