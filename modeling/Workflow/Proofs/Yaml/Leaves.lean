import Workflow.Proofs.Yaml.Escapes
import Workflow.Proofs.Yaml.Lexing

/-!
# Scalars between tokens

A scalar stands at the end of a line, behind the mark of an item or the colon of a key
(`Lexer.ReadsAs`), or it is a key itself, in front of its colon (`Lexer.ReadsAsKey`). Both are stated
for each way to write a scalar; an empty container in brackets stands like a scalar.
-/

namespace Workflow.Yaml

namespace Lexer

variable {c : Cursor} {more : List Char} {ts ts' : List Token} {i : Option Nat}
  {is is' : List (Option Nat)} {ka : Bool} {column fuel k p : Nat} {text : List Char}

/-- A text at the end of a line in a block at a column reads as tokens. -/
def ReadsAs (p : Nat) (text : List Char) (tokens : List Token) : Prop :=
  ∀ ⦃c : Cursor⦄ ⦃ts : List Token⦄ ⦃is : List (Option Nat)⦄ ⦃ka : Bool⦄ ⦃k : Nat⦄ ⦃more : List Char⦄,
    c.rest = text ++ (spaces k ++ more) → Next more → k ≤ p → p < c.column →
      Leads (between c ts (some p) is ka)
        (between (c.past (text ++ spaces k)) (tokens.reverse ++ ts) (some p) is true)

/-- A text in front of a colon reads as the key of a record. -/
def ReadsAsKey (text : List Char) (plain : Bool) (key : String) : Prop :=
  ∀ ⦃c : Cursor⦄ ⦃ts ts' : List Token⦄ ⦃i : Option Nat⦄ ⦃is is' : List (Option Nat)⦄
    ⦃more : List Char⦄, c.rest = text ++ ':' :: more → atBlank more = true →
      Opens .blockMappingStart c.column ts i is ts' is' →
        Leads (between c ts i is true)
          (between (c.past (text ++ [':'])) (.value :: .scalar plain key :: .key :: ts')
            (some c.column) is' false)

/-! ### Candidates for keys -/

/-- A scalar that stands right of the column of its block need not be a key. -/
theorem saveCandidate_between (h : p < c.column) : ∃ candidate,
    (between c ts (some p) is ka).saveCandidate = some { between c ts (some p) is ka with candidate } ∧
      ∀ key ∈ candidate, key.required = false ∧ key.line = c.line := by
  cases ka with
  | false => exact ⟨none, rfl, nofun⟩
  | true =>
    refine ⟨some ⟨false, ts.length, c.offset, c.line, c.column⟩, ?_, by simp⟩
    have hne : p ≠ c.column := Nat.ne_of_lt h
    simp [saveCandidate, dropCandidate, between, inFlow, hne]

/-- A lexer between two tokens goes on behind the next one, which ends no block. -/
theorem leads_token {l' : Lexer} (hnext : Next c.rest) (hleft : isLeftOf (some c.column) i = false)
    (hlt : l'.cursor.rest.length < c.rest.length)
    (htoken : ∀ fuel ch rest, c.rest.length ≤ fuel → c.rest = ch :: rest →
      (between c ts i is ka).token (fuel + 1) ch rest = some l') :
    Leads (between c ts i is ka) l' := by
  obtain ⟨ch, rest, hhead⟩ := List.exists_cons_of_length_pos (Nat.zero_lt_of_lt hlt)
  exact Leads.of_token (fun fuel hfuel => ⟨_, ch, rest, settle_between hnext hleft, hhead,
    htoken fuel ch rest hfuel hhead⟩) hlt

/-- A lexer behind a scalar that may turn out to be a key. -/
def behindScalar (c' : Cursor) (t : Token) (ts : List Token) (i : Option Nat)
    (is : List (Option Nat)) (candidate : Option KeyCandidate) (ka : Bool) : Lexer :=
  { between c' (t :: ts) i is ka with candidate }

/-- On its line, and not too far behind its start, a scalar can still be a key. -/
theorem settle_behindScalar {c' : Cursor} {t : Token} {key : KeyCandidate} (hnext : Next c'.rest)
    (hline : c'.line ≤ key.line) (hoffset : c'.offset ≤ key.offset + longestSimpleKey)
    (hleft : isLeftOf (some c'.column) i = false) :
    settle (fuel + 1) (behindScalar c' t ts i is (some key) ka) =
      some (behindScalar c' t ts i is (some key) ka) := by
  have hnext' : Next (behindScalar c' t ts i is (some key) ka).cursor.rest := hnext
  have hstale : (behindScalar c' t ts i is (some key) ka).dropStale =
      some (behindScalar c' t ts i is (some key) ka) := by
    simp [dropStale, isStale, behindScalar, between, Nat.not_lt.2 hline, Nat.not_lt.2 hoffset]
  rw [settle, toNext_of_next hnext', hstale]
  exact congrArg some (closeBlocks_of_not_left hleft)

/-- The colon behind a scalar makes it a key. -/
theorem token_colon {c' : Cursor} {t : Token} {key : KeyCandidate} (hcolumn : c'.column ≠ 0)
    (hmore : atBlank more = true) (hposition : key.position = ts.length)
    (hopens : Opens .blockMappingStart key.column ts i is ts' is') :
    (behindScalar c' t ts i is (some key) ka).token fuel ':' more =
      some (between (c'.skip 1) (.value :: t :: .key :: ts') (some key.column) is' false) := by
  have hmark : c'.atDocumentMark = false := Text.atDocumentMark_of_column hcolumn
  have hlater : ts.length + 1 + 1 - ts.length = 2 := by omega
  unfold token
  simp only [behindScalar, between, inFlow, hmark, hmore]
  cases hopens with
  | already => simp [mappingValue, insertAt, openBlock, inFlow, take, push, hposition]
  | now h => simp [mappingValue, insertAt, openBlock, inFlow, take, push, hposition, h, hlater]

/-- A scalar in front of a colon is a key. -/
theorem leads_key {t : Token} {required : Bool} (hnext : Next c.rest)
    (hc : c.rest = text ++ ':' :: more) (hmore : atBlank more = true) (hne : text ≠ [])
    (hbreak : ∀ ch ∈ text, isBreak ch = false) (hlength : Cursor.byteCount text ≤ longestSimpleKey)
    (hopens : Opens .blockMappingStart c.column ts i is ts' is')
    (htoken : ∀ fuel ch rest, c.rest.length ≤ fuel → c.rest = ch :: rest →
      (between c ts i is true).token (fuel + 1) ch rest = some (behindScalar (c.past text) t ts i is
        (some ⟨required, ts.length, c.offset, c.line, c.column⟩) false)) :
    Leads (between c ts i is true)
      (between (c.past (text ++ [':'])) (.value :: t :: .key :: ts') (some c.column) is' false) := by
  have hpos : 0 < text.length := List.length_pos_iff.2 hne
  have hrest : (c.past text).rest = ':' :: more := Cursor.rest_past_of_eq hc
  have hlast : (c.past (text ++ [':'])).rest = more :=
    Cursor.rest_past_of_eq (by rw [hc, List.append_assoc]; rfl)
  have hpast := Cursor.past_of_noBreak (c := c) hbreak
  have hoffset := Cursor.offset_past c text
  have hskip : (c.past text).skip 1 = c.past (text ++ [':']) := by
    rw [Cursor.skip_one hrest (by decide), ← Cursor.past_append]
  have hcolon : Next (c.past text).rest := by
    rw [hrest, next_cons]
    decide
  have hscalar : Leads (between c ts i is true) (behindScalar (c.past text) t ts i is
      (some ⟨required, ts.length, c.offset, c.line, c.column⟩) false) := by
    refine leads_token hnext (hopens.not_left _ (Nat.le_refl _)) ?_ htoken
    show (c.past text).rest.length < c.rest.length
    rw [hrest, hc, List.length_append]
    omega
  refine hscalar.trans (Leads.of_token (fun fuel _ => ⟨_, ':', more,
    settle_behindScalar hcolon (Nat.le_of_eq hpast.2) (by simp only; omega)
      (hopens.not_left _ (by rw [hpast.1]; omega)), hrest, ?_⟩) ?_)
  · rw [← hskip]
    exact token_colon (by omega) hmore rfl hopens
  · show (c.past (text ++ [':'])).rest.length < (c.past text).rest.length
    rw [hlast, hrest, List.length_cons]
    exact Nat.lt_succ_self _

/-! ### The first character of a scalar -/

/-- A character that may start a plain scalar starts nothing else. -/
theorem token_plain {ch : Char} {rest : List Char} {l : Lexer} (hflow : l.flowLevel = 0)
    (hmark : l.cursor.atDocumentMark = false) (hblank : isBlank ch = false)
    (hstart : Features.indicatorAtStart (ch :: rest) = false) :
    l.token fuel ch rest = l.plainScalar fuel := by
  obtain ⟨hspace, hbreak⟩ := isBlank_eq_false hblank
  simp only [Features.indicatorAtStart, Features.leadingIndicators, Bool.or_eq_false_iff,
    List.contains_eq_mem, List.mem_cons, List.not_mem_nil, or_false, decide_eq_false_iff_not,
    not_or] at hstart
  obtain ⟨hother, hsign⟩ := hstart
  have hdash : (decide (ch = '-') && atBlank rest) = false := by grind
  have hquestion : (decide (ch = '?') && atBlank rest) = false := by grind
  have hcolon : (decide (ch = ':') && atBlank rest) = false := by grind
  have hspaceBehind : atBlank rest = false → rest.head?.any isSpace = false := by
    intro h
    cases rest with
    | nil => rfl
    | cons d rest => exact (isBlank_eq_false h).1
  have hplain : startsPlain false ch rest = true := by
    have hmarks : "-?:,[]\x7b\x7d#&*!|>'\"%@\x60".toList =
      ['-', '?', ':', ',', '[', ']', '\x7b', '\x7d', '#', '&', '*', '!', '|', '>', '\'', '"', '%', '@',
        '\x60'] := by decide
    have hmember : (['-', '?', ':', ',', '[', ']', '\x7b', '\x7d', '#', '&', '*', '!', '|', '>', '\'',
        '"', '%', '@', '\x60'].contains ch) = (ch = '-' || ch = '?' || ch = ':') := by
      simp [hother, Bool.or_assoc]
    simp only [startsPlain, hspace, hbreak, hmarks, hmember]
    cases hrest : atBlank rest with
    | true => simp_all
    | false =>
      rw [hspaceBehind hrest]
      cases decide (ch = '-') <;> cases decide (ch = '?') <;> cases decide (ch = ':') <;> rfl
  have hin : l.inFlow = false := by simp [inFlow, hflow]
  unfold token
  simp [hmark, hin, hplain, hdash, hquestion, hcolon, hother]

/-- A quote starts a quoted scalar. -/
theorem token_quote {single : Bool} {rest : List Char} {l : Lexer}
    (hmark : l.cursor.atDocumentMark = false) :
    l.token fuel (Text.Piece.quoteOf single) rest = l.quotedScalar fuel single := by
  unfold token
  cases single <;> simp [Text.Piece.quoteOf, hmark]

/-- A bar starts a literal block. -/
theorem token_bar {rest : List Char} {l : Lexer} (hflow : l.flowLevel = 0)
    (hmark : l.cursor.atDocumentMark = false) :
    l.token fuel '|' rest = l.blockScalar fuel false := by
  unfold token
  simp [hmark, inFlow, hflow]

/-! ### Plain scalars -/

/-- What can be written plain: words that begin with a character that starts nothing else. -/
structure Plain (text : List Char) : Prop where
  words : Text.Words text
  start : Features.indicatorAtStart text = false
  visible : text.head? ≠ some byteOrderMark

/-- Whether a text can start a plain scalar does not depend on what follows it. -/
theorem indicatorAtStart_append (hne : text ≠ []) (h : Features.indicatorAtStart text = false) :
    Features.indicatorAtStart (text ++ more) = false := by
  rcases text with _ | ⟨ch, _ | ⟨d, text⟩⟩
  · exact absurd rfl hne
  · simp only [Features.indicatorAtStart, atBlank, Bool.and_true, Bool.or_eq_false_iff] at h
    simp only [List.cons_append, Features.indicatorAtStart, h, Bool.false_and, Bool.or_self]
  · exact h

namespace Plain

theorem next (h : Plain text) : Next (text ++ more) := by
  obtain ⟨ch, rest, rfl, hblank, hne⟩ := h.words.head
  exact next_cons.2 ⟨hblank, hne, by simpa using h.visible⟩

theorem token_eq {l : Lexer} {ch : Char} {rest : List Char} (h : Plain text) (hflow : l.flowLevel = 0)
    (hmark : l.cursor.atDocumentMark = false) (hrest : text ++ more = ch :: rest) :
    l.token fuel ch rest = l.plainScalar fuel := by
  have hstart := @indicatorAtStart_append more _ h.words.ne_nil h.start
  have hnext : Next (text ++ more) := h.next
  rw [hrest] at hstart hnext
  exact token_plain hflow hmark (next_cons.1 hnext).1 hstart

end Plain

theorem readsAs_plain (h : Plain text) :
    ReadsAs p (text ++ ['\n']) [.scalar true (String.ofList text)] := by
  intro c ts is ka k more hc hmore hk hp
  rw [List.append_assoc] at hc ⊢
  have hlast : (c.past (text ++ (['\n'] ++ spaces k))).rest = more :=
    Cursor.rest_past_of_eq (by simpa using hc)
  have hline : (c.past (text ++ (['\n'] ++ spaces k))).line = c.line + 1 :=
    Cursor.line_past_break h.words.noBreak k
  obtain ⟨candidate, hsave, hcandidate⟩ := saveCandidate_between hp
  have hmark : c.atDocumentMark = false := Text.atDocumentMark_of_column (by omega)
  have hscalar : Leads (between c ts (some p) is ka) (behindScalar
      (c.past (text ++ (['\n'] ++ spaces k))) (.scalar true (String.ofList text)) ts (some p) is
      candidate true) := by
    refine leads_token (hc ▸ h.next) (decide_eq_false (by omega)) ?_ fun fuel ch rest hfuel hhead => ?_
    · show (c.past (text ++ (['\n'] ++ spaces k))).rest.length < c.rest.length
      rw [hlast, hc]
      simp
      omega
    · have hplain := @Text.plain_line (p + 1) (fuel + 1) _ _ _ _ h.words hc
        hmore.any_isBlank (.inl (by omega)) hmark (by omega) (by omega)
      rw [h.token_eq rfl hmark (hc.symm.trans hhead), plainScalar, hsave]
      show (Text.plain (fuel + 1) false (p + 1) c).bind _ = _
      rw [hplain]
      rfl
  refine hscalar.trans (leads_stale rfl rfl rfl rfl (fun key hkey => ?_) ?_)
  · obtain ⟨hrequired, hkeyLine⟩ := hcandidate key hkey
    refine ⟨hrequired, ?_⟩
    show key.line < (c.past (text ++ (['\n'] ++ spaces k))).line
    omega
  · show Next (c.past (text ++ (['\n'] ++ spaces k))).rest
    exact hlast ▸ hmore

/-- Where a key may start its place is remembered. -/
theorem saveCandidate_key : (between c ts i is true).saveCandidate = some
    { between c ts i is true with
      candidate := some ⟨decide (i = some c.column), ts.length, c.offset, c.line, c.column⟩ } := by
  rfl

/-- A text that does not begin like the mark of a document stands at none. -/
theorem atDocumentMark_key (hmark : Features.isDocumentMark text = false)
    (hc : c.rest = text ++ ':' :: more) : c.atDocumentMark = false := by
  have hstarts : Text.startsMark text = false := by
    refine Bool.eq_false_iff.2 fun h => ?_
    obtain ⟨d, ch, rest, rfl | rfl, rfl, -⟩ := Text.startsMark_iff.1 h <;> cases hmark
  rw [Text.atDocumentMark_append ⟨by decide, by decide, by decide⟩ hc, hstarts, Bool.and_false]

/-- The column that the lines of a plain scalar have to reach. -/
def marginOf (indent : Option Nat) : Nat :=
  match indent with
  | some n => n + 1
  | none => 0

theorem readsAsKey_plain (h : Plain text) (hmark : Features.isDocumentMark text = false)
    (hlength : Cursor.byteCount text ≤ longestSimpleKey) :
    ReadsAsKey text true (String.ofList text) := by
  intro c ts ts' i is is' more hc hmore hopens
  have hdocument := atDocumentMark_key hmark hc
  refine @leads_key _ _ _ _ _ _ _ _ _ (decide (i = some c.column)) (hc ▸ h.next) hc hmore h.words.ne_nil
    h.words.noBreak hlength hopens fun fuel ch rest hfuel hhead => ?_
  have hmargin : marginOf i ≤ c.column + 1 := by
    cases hopens with
    | already => exact Nat.le_refl _
    | now hi =>
      cases i with
      | none => exact Nat.zero_le _
      | some n =>
        have hlt : n < c.column := by simpa using hi
        exact Nat.succ_le_succ (Nat.le_of_lt hlt)
  have hplain := @Text.plain_key _ (fuel + 1) _ _ _ h.words hc hmore hdocument hmargin (by omega)
  rw [h.token_eq rfl hdocument (hc.symm.trans hhead), plainScalar, saveCandidate_key]
  show (Text.plain (fuel + 1) false (marginOf i) c).bind _ = _
  rw [hplain]
  rfl

/-! ### Quoted scalars -/

open Yaml.Text (Piece)
open Yaml.Text.Piece (quoteOf writtenAll)

/-- What is written between quotes. -/
def quoted (single : Bool) (row : List Piece) : List Char :=
  quoteOf single :: writtenAll row ++ [quoteOf single]

/-- A row of pieces between quotes that reads as a text. -/
structure Quoted (single : Bool) (row : List Piece) (value : List Char) : Prop where
  fits : ∀ piece ∈ row, piece.Fits single
  reads : Piece.text? false .empty row = some value

variable {single : Bool} {row : List Piece} {value : List Char}

theorem next_quoted : Next (quoted single row ++ more) := by
  cases single <;> exact next_cons.2 (by decide)

theorem Quoted.scan {fuel : Nat} (h : Quoted single row value)
    (hc : c.rest = quoted single row ++ more) (hmore : more.head? ≠ some '\'')
    (hfuel : c.rest.length ≤ fuel) :
    Text.quoted (fuel + 1) single c = some (value, c.past (quoted single row)) := by
  have hlength : (writtenAll row).length < fuel + 1 := by
    rw [hc, List.length_append, quoted, List.length_append, List.length_cons] at hfuel
    omega
  rw [Text.quoted_eq h.fits (by simpa [quoted] using hc) hmore hlength, h.reads]
  rfl

theorem readsAs_quoted (h : Quoted single row value) :
    ReadsAs p (quoted single row ++ ['\n']) [.scalar false (String.ofList value)] := by
  intro c ts is ka k more hc hmore hk hp
  have hrest : c.rest = quoted single row ++ ('\n' :: (spaces k ++ more)) := by simpa using hc
  have hlast : (c.past (quoted single row)).rest = '\n' :: (spaces k ++ more) :=
    Cursor.rest_past_of_eq hrest
  obtain ⟨candidate, hsave, hcandidate⟩ := saveCandidate_between hp
  have hmark : c.atDocumentMark = false := Text.atDocumentMark_of_column (by omega)
  have hscalar : Leads (between c ts (some p) is ka) (behindScalar (c.past (quoted single row))
      (.scalar false (String.ofList value)) ts (some p) is candidate false) := by
    refine leads_token (hrest ▸ next_quoted) (decide_eq_false (by omega)) ?_
      fun fuel ch rest hfuel hhead => ?_
    · show (c.past (quoted single row)).rest.length < c.rest.length
      rw [hlast, hrest, quoted]
      simp
      omega
    · obtain rfl : quoteOf single = ch := by
        rw [hrest, quoted] at hhead
        exact (List.cons.inj hhead).1
      rw [token_quote hmark, quotedScalar, scanned, hsave]
      show ((Text.quoted (fuel + 1) single c).bind _ >>= _) = _
      rw [h.scan hrest (by simp) hfuel]
      rfl
  have hpast : c.past (quoted single row ++ ['\n'] ++ spaces k) =
      (c.past (quoted single row)).past ('\n' :: spaces k) := by
    rw [← Cursor.past_append]
    simp
  rw [hpast]
  refine hscalar.trans (leads_line rfl rfl rfl (fun key hkey => ?_) hlast hmore)
  obtain ⟨hrequired, hline⟩ := hcandidate key hkey
  refine ⟨hrequired, ?_⟩
  exact hline ▸ Cursor.line_le_past c _

theorem readsAsKey_quoted (h : Quoted single row value)
    (hbreak : ∀ ch ∈ writtenAll row, isBreak ch = false)
    (hlength : Cursor.byteCount (quoted single row) ≤ longestSimpleKey) :
    ReadsAsKey (quoted single row) false (String.ofList value) := by
  intro c ts ts' i is is' more hc hmore hopens
  have hdocument : c.atDocumentMark = false := by
    refine atDocumentMark_key ?_ hc
    cases single <;> rfl
  have hquote : isBreak (quoteOf single) = false := by cases single <;> decide
  refine @leads_key _ _ _ _ _ _ _ _ _ (decide (i = some c.column)) (hc ▸ next_quoted) hc hmore
    (List.cons_ne_nil _ _) ?_ hlength hopens fun fuel ch rest hfuel hhead => ?_
  · intro ch hch
    rcases List.mem_cons.1 hch with rfl | hch
    · exact hquote
    · rcases List.mem_append.1 hch with hch | hch
      · exact hbreak ch hch
      · exact List.mem_singleton.1 hch ▸ hquote
  · obtain rfl : quoteOf single = ch := by
      rw [hc, quoted] at hhead
      exact (List.cons.inj hhead).1
    rw [token_quote hdocument, quotedScalar, scanned, saveCandidate_key]
    show ((Text.quoted (fuel + 1) single c).bind _ >>= _) = _
    rw [h.scan hc (by simp) hfuel]
    rfl

/-! ### Literal blocks -/

theorem length_le_bodyAt (column : Nat) (lines : List Line) :
    lines.length ≤ (Text.bodyAt column lines).length := by
  induction lines with
  | nil => exact Nat.le_refl _
  | cons l lines ih =>
    have hcons : Text.bodyAt column (l :: lines) =
        (l.indent column).text ++ l.ending :: Text.bodyAt column lines := by simp [Text.bodyAt]
    rw [hcons, List.length_append, List.length_cons, List.length_cons]
    omega

/-- The text of a literal block from its bar on. -/
def literal (hint : Bool) (chomp : Text.Chomp) (column : Nat) (lines : List Line) : List Char :=
  '|' :: (Text.headOf hint chomp ++ '\n' :: Text.bodyAt column lines)

theorem readsAs_literal (chomp : Text.Chomp) {hint : Bool} {lines : List Line} (hcolumn : p < column)
    (hsettles : Text.Settles hint (some p) column lines) (hlines : ∀ l ∈ lines, l.Fits) :
    ReadsAs p (literal hint chomp column lines)
      [.scalar false (String.ofList (Text.content chomp [] [] lines))] := by
  intro c ts is ka k more hc hmore hk hp
  have hrest : c.rest = '|' :: (Text.headOf hint chomp ++ '\n' ::
      (Text.bodyAt column lines ++ (spaces k ++ more))) := by simpa [literal] using hc
  have hlast : (c.past (literal hint chomp column lines ++ spaces k)).rest = more :=
    Cursor.rest_past_of_eq (by simpa using hc)
  have hmark : c.atDocumentMark = false := Text.atDocumentMark_of_column (by omega)
  have hnext : Next c.rest := by
    rw [hrest]
    exact next_cons.2 (by decide)
  refine leads_token hnext (decide_eq_false (by omega)) ?_ fun fuel ch rest hfuel hhead => ?_
  · show (c.past (literal hint chomp column lines ++ spaces k)).rest.length < c.rest.length
    rw [hlast, hc, literal]
    simp
    omega
  · obtain rfl : '|' = ch := by
      rw [hrest] at hhead
      exact (List.cons.inj hhead).1
    have hread := @Text.block_eq _ _ _ _ _ (fuel + 1) _ _ _ (Nat.zero_lt_of_lt hcolumn)
      hsettles hlines (Nat.lt_of_le_of_lt hk hcolumn) hmore.any_isBlank hrest (by
        have hle := length_le_bodyAt column lines
        rw [hc, literal] at hfuel
        simp only [List.length_append, List.length_cons] at hfuel
        omega)
    rw [token_bar rfl hmark, blockScalar]
    show (Text.block (fuel + 1) false (some p) c).bind _ = _
    rw [hread]
    simp [between, push, literal]

/-! ### Brackets -/

/-- The marks of an empty list or record. -/
inductive Brackets : (first last : Char) → (start stop : Token) → Prop
  | list : Brackets '[' ']' .flowSequenceStart .flowSequenceEnd
  | record : Brackets '\x7b' '\x7d' .flowMappingStart .flowMappingEnd

/-- A lexer in brackets in which nothing stands. -/
def inBrackets (c : Cursor) (start : Token) (ts : List Token) (i : Option Nat)
    (is : List (Option Nat)) (candidate : Option KeyCandidate) : Lexer :=
  { between c (start :: ts) i is true with outer := [candidate], flowLevel := 1 }

theorem readsAs_brackets {first last : Char} {start stop : Token}
    (h : Brackets first last start stop) : ReadsAs p [first, last, '\n'] [start, stop] := by
  intro c ts is ka k more hc hmore hk hp
  have hfirst : c.rest = first :: last :: '\n' :: (spaces k ++ more) := hc
  have hbreak : isBreak first = false ∧ isBreak last = false := by cases h <;> decide
  have hskip : c.skip 1 = c.past [first] := Cursor.skip_one hfirst hbreak.1
  have hlast : (c.past [first]).rest = last :: '\n' :: (spaces k ++ more) :=
    Cursor.rest_past_of_eq hfirst
  have hskipLast : (c.past [first]).skip 1 = c.past [first, last] := Cursor.skip_one hlast hbreak.2
  have hend : (c.past [first, last]).rest = '\n' :: (spaces k ++ more) :=
    Cursor.rest_past_of_eq hfirst
  obtain ⟨candidate, hsave, hcandidate⟩ := saveCandidate_between hp
  have hmark : c.atDocumentMark = false := Text.atDocumentMark_of_column (by omega)
  have hzero : c.column ≠ 0 := by omega
  have hcolumn : (c.past [first]).column = c.column + 1 :=
    (Cursor.past_of_noBreak (by simpa using hbreak.1)).1
  have hzeroLast : (c.past [first]).column ≠ 0 := by omega
  have hmarkLast : (c.past [first]).atDocumentMark = false :=
    Text.atDocumentMark_of_column hzeroLast
  have hopen : Leads (between c ts (some p) is ka)
      (inBrackets (c.past [first]) start ts (some p) is candidate) := by
    refine leads_token ?_ (decide_eq_false (by omega)) ?_ fun fuel ch rest _ hhead => ?_
    · rw [hfirst, next_cons]
      cases h <;> decide
    · show (c.past [first]).rest.length < c.rest.length
      rw [hlast, hfirst]
      simp
    · obtain rfl : first = ch := by
        rw [hfirst] at hhead
        exact (List.cons.inj hhead).1
      have hopenFlow : (between c ts (some p) is ka).openFlow start =
          some (inBrackets (c.past [first]) start ts (some p) is candidate) := by
        rw [openFlow, hsave, ← hskip]
        rfl
      rw [← hopenFlow]
      cases h <;> simp [token, between, hmark]
  have hclose : Leads (inBrackets (c.past [first]) start ts (some p) is candidate)
      (behindScalar (c.past [first, last]) stop (start :: ts) (some p) is candidate false) := by
    refine Leads.of_token (fun fuel _ =>
      ⟨inBrackets (c.past [first]) start ts (some p) is candidate, last, _, ?_, hlast, ?_⟩) ?_
    · have hnext : Next (inBrackets (c.past [first]) start ts (some p) is candidate).cursor.rest := by
        show Next (c.past [first]).rest
        rw [hlast, next_cons]
        cases h <;> decide
      rw [settle, toNext_of_next hnext]
      rfl
    · rw [← hskipLast]
      cases h <;> simp [token, inBrackets, between, hmarkLast, closeFlow, dropCandidate, take, push,
        behindScalar]
    · show (c.past [first, last]).rest.length < (c.past [first]).rest.length
      rw [hend, hlast]
      simp
  have hpast : c.past ([first, last, '\n'] ++ spaces k) =
      (c.past [first, last]).past ('\n' :: spaces k) := by
    rw [← Cursor.past_append]
    rfl
  rw [hpast]
  refine (hopen.trans hclose).trans (leads_line rfl rfl rfl (fun key hkey => ?_) hend hmore)
  obtain ⟨hrequired, hline⟩ := hcandidate key hkey
  exact ⟨hrequired, hline ▸ Cursor.line_le_past c _⟩

end Lexer

end Workflow.Yaml
