import Workflow.Proofs.Yaml.Block
import Workflow.Proofs.Yaml.Plain
import Workflow.Yaml.Lexer

/-!
# Lexing written text

How the lexer moves over a text that was written in blocks. `Lexer.between` is a lexer between two
tokens, outside of brackets; `Lexer.Leads` says that the run of one lexer goes on as that of another
one. A token leads over itself and the blanks behind it (`Leads.of_token`, `Leads.of_settle`).
-/

namespace Workflow.Yaml

/-- What can stand at the start of a token. -/
def Next (text : List Char) : Prop :=
  ∀ ch ∈ text.head?, isBlank ch = false ∧ ch ≠ '#' ∧ ch ≠ byteOrderMark

theorem next_nil : Next [] := nofun

theorem next_cons {ch : Char} {rest : List Char} :
    Next (ch :: rest) ↔ isBlank ch = false ∧ ch ≠ '#' ∧ ch ≠ byteOrderMark := by
  simp [Next]

theorem Next.any_isBlank {text : List Char} (h : Next text) : text.head?.any isBlank = false := by
  cases text with
  | nil => rfl
  | cons ch rest => exact (next_cons.1 h).1

namespace Cursor

variable {c : Cursor} {more : List Char}

theorem shows_of_next (h : Next c.rest) : c.shows '#' = false ∧ c.shows byteOrderMark = false := by
  unfold shows
  cases hc : c.rest with
  | nil => simp
  | cons ch rest =>
    rw [hc] at h
    simp [(next_cons.1 h).2]

theorem atBreak_of_next (h : Next c.rest) : c.atBreak = false := by
  unfold atBreak
  cases hc : c.rest with
  | nil => rfl
  | cons ch rest =>
    rw [hc] at h
    exact (isBlank_eq_false (next_cons.1 h).1).2

theorem line_le_past (c : Cursor) (text : List Char) : c.line ≤ (c.past text).line := by
  induction text generalizing c with
  | nil => exact Nat.le_refl _
  | cons ch text ih =>
    refine Nat.le_trans ?_ (ih (c.step ch))
    rw [step]
    split <;> simp

/-- A line break ends the line of a text without one. -/
theorem line_past_break {text : List Char} (h : ∀ ch ∈ text, isBreak ch = false) (k : Nat) :
    (c.past (text ++ '\n' :: spaces k)).line = c.line + 1 := by
  rw [past_append, past_cons, (past_of_noBreak fun _ h => not_isBreak_of_mem_spaces h).2, step,
    (past_of_noBreak h).2]
  rfl

end Cursor

namespace Lexer

/-- A lexer between two tokens, outside of brackets and without a key candidate. -/
def between (c : Cursor) (tokens : List Token) (indent : Option Nat) (indents : List (Option Nat))
    (keyAllowed : Bool) : Lexer where
  cursor := c
  tokens := tokens
  count := tokens.length
  candidate := none
  outer := []
  indent := indent
  indents := indents
  flowLevel := 0
  keyAllowed := keyAllowed

variable {l l' l'' : Lexer} {c : Cursor} {more : List Char} {k fuel : Nat}

/-! ### Blanks -/

theorem toNext_spaces (hc : l.cursor.rest = spaces k ++ more) (hmore : Next more) :
    toNext (fuel + 1) l = { l with cursor := l.cursor.past (spaces k) } := by
  have hbom : (l.cursor.column = 0 && l.cursor.shows byteOrderMark) = false := by
    rw [Bool.and_eq_false_iff]
    right
    cases k with
    | zero => exact (Cursor.shows_of_next (by rw [hc]; exact hmore)).2
    | succ k =>
      have hc' : l.cursor.rest = ' ' :: (spaces k ++ more) := hc
      rw [Cursor.shows_eq hc']
      decide
  have hskip : l.cursor.skipWhile
      (fun ch => ch = ' ' || ((l.inFlow || !l.keyAllowed) && ch = '\t')) = l.cursor.past (spaces k) := by
    refine Cursor.skipWhile_eq_past hc (fun ch hch => by simp [mem_spaces hch]) ?_
      (fun ch hch => not_isBreak_of_mem_spaces hch)
    cases more with
    | nil => rfl
    | cons ch more =>
      have hblank := (isBlank_eq_false (next_cons.1 hmore).1).1
      simp only [isSpace, Bool.or_eq_false_iff, decide_eq_false_iff_not] at hblank
      simp [hblank.1, hblank.2]
  have hrest : (l.cursor.past (spaces k)).rest = more := Cursor.rest_past_of_eq hc
  have hnext : Next (l.cursor.past (spaces k)).rest := hrest ▸ hmore
  unfold toNext
  simp only [hbom, Bool.false_eq_true, if_false, hskip, (Cursor.shows_of_next hnext).1,
    Cursor.atBreak_of_next hnext]

theorem toNext_of_next (h : Next l.cursor.rest) : toNext (fuel + 1) l = l := by
  rw [toNext_spaces (k := 0) rfl h]
  rfl

theorem toNext_line (hc : l.cursor.rest = '\n' :: (spaces k ++ more)) (hmore : Next more) :
    toNext (fuel + 2) l = { l with
      cursor := l.cursor.past ('\n' :: spaces k), keyAllowed := l.keyAllowed || !l.inFlow } := by
  have hbom : (l.cursor.column = 0 && l.cursor.shows byteOrderMark) = false := by
    rw [Cursor.shows_eq hc]
    simp [byteOrderMark]
  have hskip : l.cursor.skipWhile
      (fun ch => ch = ' ' || ((l.inFlow || !l.keyAllowed) && ch = '\t')) = l.cursor := by
    exact @Cursor.skipWhile_eq_past l.cursor _ [] l.cursor.rest rfl nofun (by rw [hc]; simp) nofun
  have hcomment : l.cursor.shows '#' = false := by rw [Cursor.shows_eq hc]; decide
  have hbreak : l.cursor.atBreak = true := Cursor.atBreak_eq hc
  have hskipBreak : l.cursor.skipBreak = l.cursor.past ['\n'] :=
    Cursor.skipBreak_eq_past hc isBreak_lineFeed (by decide)
  rw [toNext]
  simp only [hbom, Bool.false_eq_true, if_false, hskip, hcomment, hbreak, if_true, hskipBreak]
  rw [toNext_spaces (k := k) (Cursor.rest_past_of_eq hc) hmore]
  simp only [Cursor.past_cons, Cursor.past_nil]

/-! ### Runs -/

/-- The lexer at its next token, after the blocks that end in front of it. -/
def settle (fuel : Nat) (l : Lexer) : Option Lexer := do
  let l ← (l.toNext fuel).dropStale
  return l.closeBlocks (some l.cursor.column)

theorem run_succ (fuel : Nat) (l : Lexer) : run (fuel + 1) l = (settle (fuel + 1) l).bind fun l =>
    match l.cursor.rest with
    | [] => l.leaveBlocks
    | ch :: rest => (l.token (fuel + 1) ch rest).bind (run fuel) := by
  rw [run, settle]
  cases (l.toNext (fuel + 1)).dropStale <;> rfl

/-- The run of the first lexer goes on as that of the second one. -/
def Leads (l l' : Lexer) : Prop :=
  ∀ fuel, l.cursor.rest.length < fuel →
    ∃ fuel', l'.cursor.rest.length < fuel' ∧ run fuel l = run fuel' l'

theorem Leads.trans (h : Leads l l') (h' : Leads l' l'') : Leads l l'' := by
  intro fuel hfuel
  obtain ⟨fuel', hfuel', heq⟩ := h fuel hfuel
  obtain ⟨fuel'', hfuel'', heq'⟩ := h' fuel' hfuel'
  exact ⟨fuel'', hfuel'', heq.trans heq'⟩

/-- Two lexers that have the same next token go on alike. -/
theorem Leads.of_settle (h : ∀ fuel, l.cursor.rest.length ≤ fuel →
    settle (fuel + 1) l = settle (fuel + 1) l')
    (hle : l'.cursor.rest.length ≤ l.cursor.rest.length) : Leads l l' := by
  intro fuel hfuel
  obtain ⟨fuel, rfl⟩ : ∃ n, fuel = n + 1 := ⟨fuel - 1, by omega⟩
  exact ⟨fuel + 1, by omega, by rw [run_succ, run_succ, h fuel (by omega)]⟩

/-- A lexer goes on behind its next token. -/
theorem Leads.of_token (h : ∀ fuel, l.cursor.rest.length ≤ fuel → ∃ l₀ ch rest,
    settle (fuel + 1) l = some l₀ ∧ l₀.cursor.rest = ch :: rest ∧
      l₀.token (fuel + 1) ch rest = some l')
    (hlt : l'.cursor.rest.length < l.cursor.rest.length) : Leads l l' := by
  intro fuel hfuel
  obtain ⟨fuel, rfl⟩ : ∃ n, fuel = n + 1 := ⟨fuel - 1, by omega⟩
  obtain ⟨l₀, ch, rest, hsettle, hrest, htoken⟩ := h fuel (by omega)
  refine ⟨fuel, by omega, ?_⟩
  rw [run_succ, hsettle]
  simp only [Option.bind_some, hrest, htoken]

/-! ### From line to line -/

variable {ts ts' : List Token} {i : Option Nat} {is is' : List (Option Nat)} {ka : Bool}
  {column : Nat}

theorem closeBlocks_of_not_left (h : isLeftOf (some k) l.indent = false) :
    l.closeBlocks (some k) = l := by
  unfold closeBlocks
  split
  · rfl
  · cases l.indents with
    | nil => rfl
    | cons outer rest => rw [closeBlocks.go, h, if_neg Bool.false_ne_true]

/-- A lexer in front of a token that ends no block. -/
theorem settle_between (hc : Next c.rest) (hleft : isLeftOf (some c.column) i = false) :
    settle (fuel + 1) (between c ts i is ka) = some (between c ts i is ka) := by
  have hnext : Next (between c ts i is ka).cursor.rest := hc
  rw [settle, toNext_of_next hnext]
  show some ((between c ts i is ka).closeBlocks (some c.column)) = _
  rw [closeBlocks_of_not_left (l := between c ts i is ka) hleft]

/-- Spaces in front of a token are passed over. -/
theorem leads_spaces (hc : c.rest = spaces k ++ more) (hmore : Next more) :
    Leads (between c ts i is ka) (between (c.past (spaces k)) ts i is ka) := by
  have hrest : (c.past (spaces k)).rest = more := Cursor.rest_past_of_eq hc
  refine Leads.of_settle (fun fuel _ => ?_) ?_
  · have hnext : Next (between (c.past (spaces k)) ts i is ka).cursor.rest := hrest ▸ hmore
    rw [settle, settle, toNext_spaces (l := between c ts i is ka) hc hmore, toNext_of_next hnext]
    rfl
  · show (c.past (spaces k)).rest.length ≤ c.rest.length
    rw [hrest, hc, List.length_append]
    omega

/-- A line break and the spaces behind it are passed over; what was a candidate for a key on the
line before is none any more. -/
theorem leads_line (hflow : l.flowLevel = 0) (houter : l.outer = [])
    (hcount : l.count = l.tokens.length)
    (hcandidate : ∀ key ∈ l.candidate, key.required = false ∧ key.line ≤ l.cursor.line)
    (hc : l.cursor.rest = '\n' :: (spaces k ++ more)) (hmore : Next more) :
    Leads l (between (l.cursor.past ('\n' :: spaces k)) l.tokens l.indent l.indents true) := by
  have hrest : (l.cursor.past ('\n' :: spaces k)).rest = more :=
    Cursor.rest_past_of_eq hc
  have hline : (l.cursor.past ('\n' :: spaces k)).line = l.cursor.line + 1 :=
    @Cursor.line_past_break _ [] nofun k
  refine Leads.of_settle (fun fuel hfuel => ?_) ?_
  · obtain ⟨fuel, rfl⟩ : ∃ n, fuel = n + 1 := ⟨fuel - 1, by rw [hc] at hfuel; simp at hfuel; omega⟩
    have hnext : Next (between (l.cursor.past ('\n' :: spaces k)) l.tokens l.indent l.indents
        true).cursor.rest := hrest ▸ hmore
    rw [settle, settle, toNext_line hc hmore, toNext_of_next hnext]
    congr 1
    rcases l with ⟨cursor, tokens, count, candidate, outer, indent, indents, flowLevel, keyAllowed⟩
    simp only at hflow houter hcount hcandidate hline
    subst hflow houter hcount
    cases candidate with
    | none => simp [dropStale, between, inFlow]
    | some key =>
      obtain ⟨hrequired, hle⟩ := hcandidate key rfl
      have hlt : key.line < (cursor.past ('\n' :: spaces k)).line := by omega
      simp [dropStale, dropCandidate, isStale, hlt, hrequired, between, inFlow]
  · show (l.cursor.past ('\n' :: spaces k)).rest.length ≤ _
    rw [hrest, hc, List.length_cons, List.length_append]
    omega

/-- A lexer that has passed over the line break behind its last token. -/
theorem leads_stale (hflow : l.flowLevel = 0) (houter : l.outer = [])
    (hcount : l.count = l.tokens.length) (hallowed : l.keyAllowed = true)
    (hcandidate : ∀ key ∈ l.candidate, key.required = false ∧ key.line < l.cursor.line)
    (hnext : Next l.cursor.rest) : Leads l (between l.cursor l.tokens l.indent l.indents true) := by
  refine Leads.of_settle (fun fuel _ => ?_) (Nat.le_refl _)
  have hnext' : Next (between l.cursor l.tokens l.indent l.indents true).cursor.rest := hnext
  rw [settle, settle, toNext_of_next hnext, toNext_of_next hnext']
  rcases l with ⟨cursor, tokens, count, candidate, outer, indent, indents, flowLevel, keyAllowed⟩
  simp only at hflow houter hcount hallowed hcandidate
  subst hflow houter hcount hallowed
  cases candidate with
  | none => rfl
  | some key =>
    obtain ⟨hrequired, hlt⟩ := hcandidate key rfl
    simp [dropStale, dropCandidate, isStale, hlt, hrequired, between]

/-- A block ends in front of a token that lies left of it. -/
theorem leads_blockEnd (hc : Next c.rest) (hlt : c.column < column) :
    Leads (between c ts (some column) (i :: is) ka) (between c (.blockEnd :: ts) i is ka) := by
  refine Leads.of_settle (fun fuel _ => ?_) (Nat.le_refl _)
  have hnext : Next (between c ts (some column) (i :: is) ka).cursor.rest := hc
  have hnext' : Next (between c (.blockEnd :: ts) i is ka).cursor.rest := hc
  rw [settle, settle, toNext_of_next hnext, toNext_of_next hnext']
  have hclose : (between c ts (some column) (i :: is) ka).closeBlocks (some c.column)
      = (between c (.blockEnd :: ts) i is ka).closeBlocks (some c.column) := by
    have hleft : isLeftOf (some c.column) (some column) = true := decide_eq_true hlt
    simp only [closeBlocks, between, inFlow, closeBlocks.go, hleft, if_true, push]
    rfl
  exact congrArg some hclose

/-! ### Marks -/

/-- A block at a column is open already, or it is opened now. -/
inductive Opens (start : Token) (column : Nat) : List Token → Option Nat → List (Option Nat) →
    List Token → List (Option Nat) → Prop
  | already {ts : List Token} {is : List (Option Nat)} :
      Opens start column ts (some column) is ts is
  | now {ts : List Token} {i : Option Nat} {is : List (Option Nat)} (h : i.all (· < column) = true) :
      Opens start column ts i is (start :: ts) (i :: is)

theorem Opens.not_left {start : Token} (h : Opens start column ts i is ts' is') :
    ∀ k, column ≤ k → isLeftOf (some k) i = false := by
  intro k hk
  cases h with
  | already => exact decide_eq_false (Nat.not_lt.2 hk)
  | now h =>
    cases i with
    | none => rfl
    | some n =>
      have hn : n < column := by simpa using h
      exact decide_eq_false (by omega)

theorem Opens.openBlock_eq {start : Token} (h : Opens start column ts i is ts' is') :
    (between c ts i is ka).openBlock column ts.length start = between c ts' (some column) is' ka := by
  cases h with
  | already => simp [openBlock, between, inFlow]
  | now h =>
    simp [openBlock, between, inFlow, h, insertAt]

/-- A mark that is no key and stands in front of a space. -/
theorem leads_mark {mark start : Token} {ch : Char} (hch : ch = '-' ∧ mark = .blockEntry ∧
      start = .blockSequenceStart ∨ ch = '?' ∧ mark = .key ∧ start = .blockMappingStart)
    (hc : c.rest = ch :: ' ' :: more) (hmore : Next more) (hcolumn : c.column = column)
    (hopens : Opens start column ts i is ts' is') :
    Leads (between c ts i is true)
      (between (c.past [ch, ' ']) (mark :: ts') (some column) is' true) := by
  have hnext : Next c.rest := by
    rw [hc, next_cons]
    rcases hch with ⟨rfl, -⟩ | ⟨rfl, -⟩ <;> decide
  have hskip : c.skip 1 = c.past [ch] :=
    Cursor.skip_one hc (isBlank_eq_false (next_cons.1 (hc ▸ hnext)).1).2
  have hrest : (c.past [ch]).rest = ' ' :: more := Cursor.rest_past_of_eq hc
  have hopen := @Opens.openBlock_eq c _ _ _ _ _ true _ _ hopens
  have hblank : atBlank (' ' :: more) = true := rfl
  have hmark : c.atDocumentMark = false := by
    unfold Cursor.atDocumentMark
    rw [hc]
    rcases hch with ⟨rfl, -⟩ | ⟨rfl, -⟩ <;> simp
  refine Leads.trans (@Leads.of_token _ (between (c.past [ch]) (mark :: ts') (some column) is' true)
    (fun fuel _ => ⟨_, ch, ' ' :: more, settle_between hnext (hopens.not_left _ (by omega)), hc, ?_⟩) ?_)
    (leads_spaces (k := 1) hrest hmore)
  · rcases hch with ⟨rfl, rfl, rfl⟩ | ⟨rfl, rfl, rfl⟩
    all_goals
      have hcursor : (between c ts i is true).cursor = c := rfl
      have hflow : (between c ts i is true).inFlow = false := rfl
      have hallowed : (between c ts i is true).keyAllowed = true := rfl
      have hcount : (between c ts i is true).count = ts.length := rfl
      unfold token
      simp only [hcursor, hmark, hblank, Bool.and_true, hflow, blockEntry, explicitKey,
        hallowed, hcount, hcolumn, hopen]
      simp [single, dropCandidate, take, push, between, hskip]
  · show (c.past [ch]).rest.length < c.rest.length
    rw [hrest, hc]
    simp

end Lexer

end Workflow.Yaml
