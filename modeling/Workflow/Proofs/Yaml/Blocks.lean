import Workflow.Proofs.Yaml.Leaves

/-!
# Blocks between tokens

How the texts of items and fields add up to the text of a block. A text is read where its first
character stands: at the column of a block (`Lexer.ReadsBlock`), right of the block around it
(`Lexer.ReadsAt`), or behind the colon of a key (`Lexer.ReadsBehind`). The block around every other one
begins at the first column, and its tokens are those of the whole text
(`Lexer.ReadsBlock.ofText?_eq`).
-/

namespace Workflow.Yaml

/-- A text that starts like a token whatever follows it, so there is something in it. -/
def Starts (text : List Char) : Prop := ∀ more, Next (text ++ more)

theorem Starts.append {text : List Char} (h : Starts text) (more : List Char) :
    Starts (text ++ more) := fun rest => List.append_assoc text more rest ▸ h _

theorem starts_cons {ch : Char} {rest : List Char}
    (h : isBlank ch = false ∧ ch ≠ '#' ∧ ch ≠ byteOrderMark) : Starts (ch :: rest) :=
  fun _ => next_cons.2 h

/-- A text that ends its line. -/
def EndsLine (text : List Char) : Prop := ∃ front ch, isBreak ch = true ∧ text = front ++ [ch]

theorem EndsLine.append {text : List Char} (h : EndsLine text) (first : List Char) :
    EndsLine (first ++ text) := by
  obtain ⟨front, ch, hch, rfl⟩ := h
  exact ⟨first ++ front, ch, hch, (List.append_assoc ..).symm⟩

theorem EndsLine.cons {text : List Char} (h : EndsLine text) (ch : Char) : EndsLine (ch :: text) :=
  h.append [ch]

theorem EndsLine.column_past {text : List Char} (h : EndsLine text) (c : Cursor) (k : Nat) :
    (c.past (text ++ spaces k)).column = k := by
  obtain ⟨front, ch, hch, rfl⟩ := h
  rw [List.append_assoc]
  exact Cursor.column_past_break c front hch k

namespace Lexer

variable {p column : Nat} {text more : List Char} {tokens : List Token} {start : Token}

/-- A text that stands at a column in a block further left reads as tokens. -/
def ReadsAt (p column : Nat) (text : List Char) (tokens : List Token) : Prop :=
  ∀ ⦃c : Cursor⦄ ⦃ts : List Token⦄ ⦃is : List (Option Nat)⦄ ⦃k : Nat⦄ ⦃more : List Char⦄,
    c.rest = text ++ (spaces k ++ more) → Next more → k ≤ p → c.column = column →
      Leads (between c ts (some p) is true)
        (between (c.past (text ++ spaces k)) (tokens.reverse ++ ts) (some p) is true)

/-- A text behind the colon of a key reads as tokens. -/
def ReadsBehind (p : Nat) (text : List Char) (tokens : List Token) : Prop :=
  ∀ ⦃c : Cursor⦄ ⦃ts : List Token⦄ ⦃is : List (Option Nat)⦄ ⦃k : Nat⦄ ⦃more : List Char⦄,
    c.rest = text ++ (spaces k ++ more) → Next more → k ≤ p → p < c.column →
      Leads (between c ts (some p) is false)
        (between (c.past (text ++ spaces k)) (tokens.reverse ++ ts) (some p) is true)

/-- A part of a block at a column reads as tokens. -/
def ReadsBlock (start : Token) (column : Nat) (text : List Char) (tokens : List Token) : Prop :=
  ∀ ⦃c : Cursor⦄ ⦃ts ts' : List Token⦄ ⦃i : Option Nat⦄ ⦃is is' : List (Option Nat)⦄ ⦃k : Nat⦄
    ⦃more : List Char⦄, c.rest = text ++ (spaces k ++ more) → Next more → k ≤ column →
      c.column = column → Opens start column ts i is ts' is' →
        Leads (between c ts i is true)
          (between (c.past (text ++ spaces k)) (tokens.reverse ++ ts') (some column) is' true)

/-! ### Values -/

theorem ReadsAs.at (h : ReadsAs p text tokens) (hp : p < column) :
    ReadsAt p column text tokens := by
  intro c ts is k more hc hmore hk hcolumn
  exact h hc hmore hk (by omega)

/-- A block ends where a line begins that lies left of it. -/
theorem ReadsBlock.at (h : ReadsBlock start column text tokens) (hends : EndsLine text)
    (hp : p < column) : ReadsAt p column text (start :: tokens ++ [Token.blockEnd]) := by
  intro c ts is k more hc hmore hk hcolumn
  have hrest : (c.past (text ++ spaces k)).rest = more := Cursor.rest_past_of_eq (by simpa using hc)
  have hend := hends.column_past c k
  have hopens : Opens start column ts (some p) is (start :: ts) (some p :: is) :=
    .now (decide_eq_true hp)
  have hclose := @leads_blockEnd _ (tokens.reverse ++ (start :: ts)) (some p) is true column
    (hrest ▸ hmore) (by omega)
  have htokens : (start :: tokens ++ [Token.blockEnd]).reverse ++ ts =
      .blockEnd :: (tokens.reverse ++ (start :: ts)) := by simp
  rw [htokens]
  exact (h hc hmore (by omega) hcolumn hopens).trans hclose

/-! ### Behind a key -/

/-- A value on the line of its key. -/
theorem ReadsAs.behind (h : ReadsAs p text tokens) (hstarts : Starts text) :
    ReadsBehind p (' ' :: text) tokens := by
  intro c ts is k more hc hmore hk hcolumn
  have hrest : c.rest = spaces 1 ++ (text ++ (spaces k ++ more)) := hc
  have hspaces := Cursor.column_past_spaces c 1
  have hvalue := @h _ ts is false _ _ (Cursor.rest_past_of_eq hrest) hmore hk (by omega)
  rw [← Cursor.past_append] at hvalue
  exact (leads_spaces hrest (hstarts _)).trans hvalue

/-- A value on the line behind its key. -/
theorem ReadsAt.behind (h : ReadsAt p column text tokens) (hstarts : Starts text) :
    ReadsBehind p ('\n' :: (spaces column ++ text)) tokens := by
  intro c ts is k more hc hmore hk hcolumn
  have hrest : c.rest = '\n' :: (spaces column ++ (text ++ (spaces k ++ more))) := by simpa using hc
  have hline := leads_line (l := between c ts (some p) is false) rfl rfl rfl nofun hrest (hstarts _)
  have hvalue := @h (c.past ('\n' :: spaces column)) ts is _ _
    (Cursor.rest_past_of_eq hrest) hmore hk (Cursor.column_past_break c [] isBreak_lineFeed column)
  rw [← Cursor.past_append] at hvalue
  have hpast : '\n' :: spaces column ++ (text ++ spaces k) =
      '\n' :: (spaces column ++ text) ++ spaces k := by simp
  rw [hpast] at hvalue
  exact hline.trans hvalue

/-- A list whose marks stand at the column of the key in front of it is part of the record. -/
theorem ReadsBlock.behind (h : ReadsBlock start column text tokens) (hstarts : Starts text) :
    ReadsBehind column ('\n' :: (spaces column ++ text)) tokens :=
  ReadsAt.behind (fun _ _ _ _ _ hc hmore hk hcolumn => h hc hmore hk hcolumn .already) hstarts

/-! ### Items and fields -/

/-- A block goes on on the next line. -/
theorem ReadsBlock.append {other : List Char} {others : List Token}
    (h : ReadsBlock start column text tokens) (hends : EndsLine text)
    (hother : ReadsBlock start column other others) (hstarts : Starts other) :
    ReadsBlock start column (text ++ (spaces column ++ other)) (tokens ++ others) := by
  intro c ts ts' i is is' k more hc hmore hk hcolumn hopens
  have hrest : c.rest = text ++ (spaces column ++ (other ++ (spaces k ++ more))) := by simpa using hc
  have hfirst := h hrest (hstarts _) (Nat.le_refl _) hcolumn hopens
  have hsecond := @hother (c.past (text ++ spaces column)) (tokens.reverse ++ ts') _ _ is' _ _ _
    (Cursor.rest_past_of_eq (by simpa using hrest)) hmore hk (hends.column_past c column)
    .already
  rw [← Cursor.past_append] at hsecond
  have hpast : text ++ spaces column ++ (other ++ spaces k) =
      text ++ (spaces column ++ other) ++ spaces k := by simp
  have htokens : others.reverse ++ (tokens.reverse ++ ts') = (tokens ++ others).reverse ++ ts' := by
    simp
  rw [hpast, htokens] at hsecond
  exact hfirst.trans hsecond

/-- An item behind its dash. -/
theorem ReadsAt.item (h : ReadsAt column (column + 2) text tokens) (hstarts : Starts text) :
    ReadsBlock .blockSequenceStart column ('-' :: ' ' :: text) (.blockEntry :: tokens) := by
  intro c ts ts' i is is' k more hc hmore hk hcolumn hopens
  have hmark := leads_mark (.inl ⟨rfl, rfl, rfl⟩) hc (hstarts _) hcolumn hopens
  have hitem := @h (c.past ['-', ' ']) (.blockEntry :: ts') is' _ _
    (Cursor.rest_past_of_eq hc) hmore hk (by rw [Cursor.column_past_mark c rfl, hcolumn])
  rw [← Cursor.past_append] at hitem
  have htokens : tokens.reverse ++ Token.blockEntry :: ts' =
      (Token.blockEntry :: tokens).reverse ++ ts' := by simp
  rw [htokens] at hitem
  exact hmark.trans hitem

/-- A key with its value behind it. -/
theorem ReadsAsKey.field {written : List Char} {plain : Bool} {key : String}
    (hkey : ReadsAsKey written plain key) (hline : ∀ ch ∈ written, isBreak ch = false)
    (h : ReadsBehind column text tokens) (hblank : atBlank text = true) (hends : EndsLine text) :
    ReadsBlock .blockMappingStart column (written ++ ':' :: text)
      (.key :: .scalar plain key :: .value :: tokens) := by
  intro c ts ts' i is is' k more hc hmore hk hcolumn hopens
  subst hcolumn
  have hrest : c.rest = written ++ ':' :: (text ++ (spaces k ++ more)) := by simpa using hc
  have hlead := hkey hrest (by
    obtain ⟨front, ch, -, rfl⟩ := hends
    cases front <;> exact hblank) hopens
  have hvalue := @h (c.past (written ++ [':'])) (.value :: .scalar plain key :: .key :: ts') is' _ _
    (Cursor.rest_past_of_eq (by simpa using hrest)) hmore hk (by
      have hcolon : ∀ ch ∈ written ++ [':'], isBreak ch = false := by
        intro ch hch
        rcases List.mem_append.1 hch with hch | hch
        · exact hline ch hch
        · rw [List.mem_singleton.1 hch]
          decide
      rw [(Cursor.past_of_noBreak hcolon).1, List.length_append]
      simp)
  rw [← Cursor.past_append] at hvalue
  have hpast : written ++ [':'] ++ (text ++ spaces k) = written ++ ':' :: text ++ spaces k := by simp
  have htokens : tokens.reverse ++ Token.value :: .scalar plain key :: .key :: ts' =
      (Token.key :: .scalar plain key :: .value :: tokens).reverse ++ ts' := by simp
  rw [hpast, htokens] at hvalue
  exact hlead.trans hvalue

/-- A colon at the start of a line stands in front of the value of the key on the lines before it. -/
theorem leads_valueMark {c : Cursor} {ts : List Token} {is : List (Option Nat)}
    (hc : c.rest = ':' :: ' ' :: more) (hmore : Next more) :
    Leads (between c ts (some c.column) is true)
      (between (c.past [':', ' ']) (.value :: ts) (some c.column) is true) := by
  have hrest : (c.past [':']).rest = ' ' :: more := Cursor.rest_past_of_eq hc
  have hskip : c.skip 1 = c.past [':'] := Cursor.skip_one hc (by decide)
  have hmark : c.atDocumentMark = false := by simp [Cursor.atDocumentMark, hc]
  have hnext : Next c.rest := by
    rw [hc]
    exact next_cons.2 (by decide)
  have hcolon : Leads (between c ts (some c.column) is true)
      (between (c.past [':']) (.value :: ts) (some c.column) is true) := by
    refine leads_token hnext (decide_eq_false (Nat.lt_irrefl _)) ?_ fun fuel ch rest _ hhead => ?_
    · show (c.past [':']).rest.length < c.rest.length
      rw [hrest, hc]
      simp
    · obtain ⟨rfl, rfl⟩ : ':' = ch ∧ ' ' :: more = rest := by
        rw [hc] at hhead
        exact List.cons.inj hhead
      have hblank : atBlank (' ' :: more) = true := rfl
      unfold token
      simp [between, hmark, hblank, mappingValue, inFlow, openBlock, take, push, hskip]
  have hspace := @leads_spaces _ _ 1 (.value :: ts) (some c.column) is true hrest hmore
  rw [← Cursor.past_append] at hspace
  exact hcolon.trans hspace

/-- A key on lines of its own, and its value behind a colon on the next line. -/
theorem ReadsAs.field {key : List Char} {keys : List Token} (hkey : ReadsAs column key keys)
    (hstartsKey : Starts key) (hendsKey : EndsLine key)
    (h : ReadsAt column (column + 2) text tokens) (hstarts : Starts text) :
    ReadsBlock .blockMappingStart column
      ('?' :: ' ' :: (key ++ (spaces column ++ ':' :: ' ' :: text)))
      (.key :: keys ++ .value :: tokens) := by
  intro c ts ts' i is is' k more hc hmore hk hcolumn hopens
  have hrest : c.rest = '?' :: ' ' :: (key ++ (spaces column ++ (':' :: ' ' ::
      (text ++ (spaces k ++ more))))) := by simpa using hc
  have hmark := leads_mark (.inr ⟨rfl, rfl, rfl⟩) hrest (hstartsKey _) hcolumn hopens
  have hbehind : (c.past ['?', ' ']).column = column + 2 := by
    rw [Cursor.column_past_mark c rfl, hcolumn]
  have hread := @hkey _ (.key :: ts') is' true _ _
    (@Cursor.rest_past_of_eq _ ['?', ' '] _ hrest) (next_cons.2 (by decide)) (Nat.le_refl _)
    (by omega)
  rw [← Cursor.past_append] at hread
  have hcolon : (c.past (['?', ' '] ++ (key ++ spaces column))).rest =
      ':' :: ' ' :: (text ++ (spaces k ++ more)) :=
    Cursor.rest_past_of_eq (by simpa using hrest)
  have hat : (c.past (['?', ' '] ++ (key ++ spaces column))).column = column := by
    rw [← List.append_assoc]
    exact (hendsKey.append ['?', ' ']).column_past c column
  have hvalueMark := @leads_valueMark _ _ (keys.reverse ++ .key :: ts') is' hcolon (hstarts _)
  rw [hat, ← Cursor.past_append] at hvalueMark
  have hvalue := @h (c.past (['?', ' '] ++ (key ++ spaces column) ++ [':', ' ']))
    (.value :: (keys.reverse ++ .key :: ts')) is' _ _ (Cursor.rest_past_of_eq (by simpa using hrest)) hmore hk
    (by rw [Cursor.past_append, Cursor.column_past_mark _ rfl, hat])
  rw [← Cursor.past_append] at hvalue
  have hpast : ['?', ' '] ++ (key ++ spaces column) ++ [':', ' '] ++ (text ++ spaces k) =
      '?' :: ' ' :: (key ++ (spaces column ++ ':' :: ' ' :: text)) ++ spaces k := by simp
  have htokens : tokens.reverse ++ Token.value :: (keys.reverse ++ .key :: ts') =
      (Token.key :: keys ++ .value :: tokens).reverse ++ ts' := by simp
  rw [hpast, htokens] at hvalue
  exact hmark.trans (hread.trans (hvalueMark.trans hvalue))

/-! ### Whole texts -/

/-- The text of a block at the first column splits into its tokens. -/
theorem ReadsBlock.ofText?_eq {written : String} (h : ReadsBlock start 0 written.toList tokens)
    (hallowed : ∀ ch ∈ written.toList, isAllowed ch = true) :
    Token.ofText? written = some (start :: tokens ++ [.blockEnd]) := by
  have hopens : Opens start 0 [] none [] [start] [none] := .now rfl
  have hlead := h (c := .start written.toList) (k := 0) (by simp [Cursor.start]) next_nil
    (Nat.le_refl 0) rfl hopens
  obtain ⟨fuel, hfuel, hrun⟩ := hlead (written.toList.length + 1) (Nat.lt_succ_self _)
  obtain ⟨fuel, rfl⟩ : ∃ n, fuel = n + 1 := ⟨fuel - 1, by omega⟩
  generalize hlast : (Cursor.start written.toList).past (written.toList ++ spaces 0) = last at hrun
  have hrest : last.rest = [] := by
    rw [← hlast]
    exact Cursor.rest_past_of_eq (by simp [Cursor.start])
  have hend : run (fuel + 1) (between last (tokens.reverse ++ [start]) (some 0) [none] true) =
      (between last (tokens.reverse ++ [start]) (some 0) [none] true).leaveBlocks := by
    have hleft : isLeftOf (some last.column) (some 0) = false :=
      decide_eq_false (Nat.not_lt_zero last.column)
    rw [run_succ, settle_between (hrest ▸ next_nil) hleft]
    simp only [Option.bind_some, between, hrest]
  have hleave : (between last (tokens.reverse ++ [start]) (some 0) [none] true).leaveBlocks =
      some { between last (.blockEnd :: (tokens.reverse ++ [start])) none [] false with } := by
    simp [leaveBlocks, closeBlocks, closeBlocks.go, between, inFlow, isLeftOf, push, dropCandidate]
  have hall : written.toList.all isAllowed = true := List.all_eq_true.2 hallowed
  have hstart : Lexer.start written.toList = between (.start written.toList) [] none [] true := rfl
  rw [Token.ofText?, hall, hstart, hrun, hend, hleave]
  simp [between]

end Lexer

end Workflow.Yaml
