import Mathlib.Algebra.Group.Int.Defs
import Mathlib.Algebra.Group.Nat.Defs
import Workflow.Json.Printer
import Workflow.Json.Raw

/-!
# Scalars that are read where they were written

A string that was written is scanned back whatever follows its closing quote (`Quoted.scan_quote`). A
numeral has no end of its own: it is scanned in front of other text as it is alone when that text
begins with a comma or a new line (`Numeral.scan_append`). Integers are read back
(`Number.readsBack_int`); whether a float is (`Number.ReadsBack`) depends on how it is rounded when it
is read, and what stands in its place otherwise is `Number.reread`.
-/

namespace Workflow

namespace Json

/-! ### Strings -/

namespace Quoted

theorem hexWord?_of_lt : ∀ n < 32,
    hexWord? '0' '0' (hexDigit (n / 16)) (hexDigit (n % 16)) = some n := by decide

theorem scanFrom_escape (c : Char) (tail : List Char) :
    scanFrom none (escape c ++ tail) = (scanFrom none tail).push c := by
  unfold escape
  split
  · rfl
  · rfl
  · rfl
  · rfl
  · rfl
  · rfl
  · rfl
  next hquote hslash _ _ _ _ _ =>
    split
    next hcontrol =>
      have hword := hexWord?_of_lt _ hcontrol
      have hhigh : isHigh c.toNat = false := by simp only [isHigh, Bool.and_eq_false_iff]; grind
      have hlow : isLow c.toNat = false := by simp only [isLow, Bool.and_eq_false_iff]; grind
      rw [List.cons_append, List.cons_append, List.cons_append, List.cons_append, List.cons_append,
        List.cons_append, List.nil_append, scanFrom, hword]
      simp only [hhigh, hlow, Bool.false_eq_true, if_false, Scan.settle, Option.isSome_none,
        Char.ofNat_toNat]
    next hcontrol =>
      have hplain : ¬(c.toNat < 32 ∨ c = '\\') := not_or.2 ⟨hcontrol, hslash⟩
      rw [List.singleton_append, scanFrom, if_neg hplain]
      · rfl
      · exact hquote
      · exact fun _ _ _ _ _ h => absurd h hslash
      · exact fun _ _ h => absurd h hslash

theorem scan_flatMap_escape (text rest : List Char) :
    scan (text.flatMap escape ++ '"' :: rest) = .closed text rest := by
  unfold scan
  induction text with
  | nil => rfl
  | cons c text ih =>
    rw [List.flatMap_cons, List.append_assoc, scanFrom_escape, ih]
    rfl

end Quoted

/-! ### Numerals -/

/-- What may stand behind a value that is written with one entry a line. -/
def Delimited (text : List Char) : Prop := ∀ c ∈ text.head?, c = ',' ∨ c = '\n'

theorem Delimited.cases {text : List Char} (h : Delimited text) :
    text = [] ∨ (∃ rest, text = ',' :: rest) ∨ ∃ rest, text = '\n' :: rest := by
  cases text with
  | nil => exact .inl rfl
  | cons c rest =>
    rcases h c rfl with rfl | rfl
    · exact .inr (.inl ⟨rest, rfl⟩)
    · exact .inr (.inr ⟨rest, rfl⟩)

namespace Numeral

variable {rest : List Char}

/-- What was scanned, with more text behind it. -/
def Scan.before (rest : List Char) : Scan → Scan
  | read n r => read n (r ++ rest)
  | overflow r => overflow (r ++ rest)
  | broken => broken

theorem of_append (n? : Option Number) (text rest : List Char) :
    Scan.of n? (text ++ rest) = (Scan.of n? text).before rest := by
  cases n? <;> rfl

theorem digits_append (h : Delimited rest) (text : List Char) :
    digits (text ++ rest) = ((digits text).1, (digits text).2 ++ rest) := by
  induction text with
  | nil => rcases h.cases with rfl | ⟨rest, rfl⟩ | ⟨rest, rfl⟩ <;> rfl
  | cons c text ih =>
    rw [List.cons_append, digits, digits]
    cases digit? c with
    | none => rfl
    | some d => simp only [ih]

/-- The number that the digits at the front of a text spell, and the rest; none without digits. -/
def unsigned? (text : List Char) : Option (Nat × List Char) :=
  match digits text with
  | ([], _) => none
  | (ds, rest) => some (value ds, rest)

theorem unsigned?_append (h : Delimited rest) (text : List Char) :
    unsigned? (text ++ rest) = (unsigned? text).map fun r => (r.1, r.2 ++ rest) := by
  unfold unsigned?
  rw [digits_append h]
  rcases digits text with ⟨_ | ⟨d, ds⟩, r⟩ <;> rfl

theorem power?_minus (text : List Char) :
    power? ('-' :: text) = (unsigned? text).map fun r => (-(r.1 : Int), r.2) := by
  show (match digits text with | ([], _) => none | (ds, rest) => some (-(value ds : Int), rest)) = _
  unfold unsigned?
  rcases digits text with ⟨_ | ⟨d, ds⟩, r⟩ <;> rfl

theorem power?_plus (text : List Char) :
    power? ('+' :: text) = (unsigned? text).map fun r => ((r.1 : Int), r.2) := by
  show (match digits text with | ([], _) => none | (ds, rest) => some ((value ds : Int), rest)) = _
  unfold unsigned?
  rcases digits text with ⟨_ | ⟨d, ds⟩, r⟩ <;> rfl

theorem power?_of_ne {c : Char} (hminus : c ≠ '-') (hplus : c ≠ '+') (text : List Char) :
    power? (c :: text) = (unsigned? (c :: text)).map fun r => ((r.1 : Int), r.2) := by
  rw [power?]
  · unfold unsigned?
    rcases digits (c :: text) with ⟨_ | ⟨d, ds⟩, r⟩ <;> rfl
  · exact fun _ h => hminus (List.cons.inj h).1
  · exact fun _ h => hplus (List.cons.inj h).1

theorem power?_append (h : Delimited rest) (text : List Char) :
    power? (text ++ rest) = (power? text).map fun r => (r.1, r.2 ++ rest) := by
  cases text with
  | nil => rcases h.cases with rfl | ⟨rest, rfl⟩ | ⟨rest, rfl⟩ <;> rfl
  | cons c text =>
    by_cases hminus : c = '-'
    · subst hminus
      simp only [List.cons_append, power?_minus, unsigned?_append h, Option.map_map]
      rfl
    by_cases hplus : c = '+'
    · subst hplus
      simp only [List.cons_append, power?_plus, unsigned?_append h, Option.map_map]
      rfl
    · rw [List.cons_append, power?_of_ne hminus hplus, power?_of_ne hminus hplus,
        ← List.cons_append, unsigned?_append h, Option.map_map, Option.map_map]
      rfl

/-- The end of a float with a power of ten. -/
theorem scanPower_append_of_power (h : Delimited rest) (negative : Bool) (n : Nat) (exponent : Int)
    {c : Char} (hc : c = 'e' ∨ c = 'E') (text : List Char) :
    scanPower negative n exponent (c :: text ++ rest)
      = (scanPower negative n exponent (c :: text)).before rest := by
  have hnone : ∀ {text}, power? text = none →
      scanPower negative n exponent (c :: text) = .broken := by
    intro text hp
    rcases hc with rfl | rfl <;> simp only [scanPower, hp]
  have hsome : ∀ {text p r}, power? text = some (p, r) →
      scanPower negative n exponent (c :: text) = .of (float? negative n (exponent + p)) r := by
    intro text p r hp
    rcases hc with rfl | rfl <;> simp only [scanPower, hp]
  have happend := power?_append h text
  rw [List.cons_append]
  cases hp : power? text with
  | none =>
    rw [hp] at happend
    rw [hnone happend, hnone hp]
    rfl
  | some r =>
    rw [hp] at happend
    rw [hsome happend, hsome hp]
    exact of_append _ _ _

theorem scanPower_append (h : Delimited rest) (negative : Bool) (n : Nat) (exponent : Int)
    (text : List Char) : scanPower negative n exponent (text ++ rest)
      = (scanPower negative n exponent text).before rest := by
  cases text with
  | nil =>
    have hrest : scanPower negative n exponent rest = .of (float? negative n exponent) rest := by
      rcases h.cases with rfl | ⟨rest, rfl⟩ | ⟨rest, rfl⟩ <;> rfl
    exact hrest.trans (of_append _ [] rest)
  | cons c text =>
    by_cases hc : c = 'e' ∨ c = 'E'
    · exact scanPower_append_of_power h negative n exponent hc text
    · have hplain : ∀ text : List Char, scanPower negative n exponent (c :: text)
          = .of (float? negative n exponent) (c :: text) := by
        intro text
        rw [scanPower]
        · exact fun _ he => hc (.inl (List.cons.inj he).1)
        · exact fun _ he => hc (.inr (List.cons.inj he).1)
      rw [List.cons_append, hplain, hplain, ← List.cons_append]
      exact of_append _ _ _

/-- A numeral after the digits in front of its point. -/
def scanTail (negative : Bool) (ds : List Nat) : List Char → Scan
  | '.' :: rest =>
    match digits rest with
    | ([], _) => .broken
    | (fraction, rest) =>
      let (n, dropped) := absorb 0 ds
      let (n, ignored) := absorb n fraction
      scanPower negative n (dropped - (fraction.length - ignored : Nat)) rest
  | 'e' :: rest => scanPower negative (absorb 0 ds).1 (absorb 0 ds).2 ('e' :: rest)
  | 'E' :: rest => scanPower negative (absorb 0 ds).1 (absorb 0 ds).2 ('E' :: rest)
  | rest => .of (integer? negative ds) rest

theorem scanUnsigned_of_digits (negative : Bool) {text r : List Char} {ds : List Nat}
    (h : digits text = (ds, r)) (hnil : ds ≠ []) (hzero : ∀ d rest, ds ≠ 0 :: d :: rest) :
    scanUnsigned negative text = scanTail negative ds r := by
  unfold scanUnsigned
  rw [h]
  split
  next heq => exact absurd (Prod.mk.inj heq).1 hnil
  next heq => exact absurd (Prod.mk.inj heq).1 (hzero _ _)
  next heq =>
    obtain ⟨rfl, rfl⟩ := Prod.mk.inj heq
    rfl
  next heq =>
    obtain ⟨rfl, rfl⟩ := Prod.mk.inj heq
    rfl
  next heq =>
    obtain ⟨rfl, rfl⟩ := Prod.mk.inj heq
    rfl
  next hpoint he hE heq =>
    obtain ⟨rfl, rfl⟩ := Prod.mk.inj heq
    rw [scanTail]
    · exact hpoint
    · exact he
    · exact hE

theorem scanTail_append (h : Delimited rest) (negative : Bool) (ds : List Nat) (text : List Char) :
    scanTail negative ds (text ++ rest) = (scanTail negative ds text).before rest := by
  cases text with
  | nil =>
    have hrest : scanTail negative ds rest = .of (integer? negative ds) rest := by
      rcases h.cases with rfl | ⟨rest, rfl⟩ | ⟨rest, rfl⟩ <;> rfl
    exact hrest.trans (of_append _ [] rest)
  | cons c text =>
    rw [List.cons_append]
    by_cases hpoint : c = '.'
    · subst hpoint
      simp only [scanTail, digits_append h]
      rcases digits text with ⟨_ | ⟨d, fraction⟩, r⟩
      · rfl
      · exact scanPower_append h _ _ _ _
    by_cases he : c = 'e'
    · subst he
      exact scanPower_append h _ _ _ ('e' :: text)
    by_cases hE : c = 'E'
    · subst hE
      exact scanPower_append h _ _ _ ('E' :: text)
    · have hplain : ∀ text : List Char, scanTail negative ds (c :: text)
          = .of (integer? negative ds) (c :: text) := by
        intro text
        rw [scanTail]
        · exact fun _ heq => hpoint (List.cons.inj heq).1
        · exact fun _ heq => he (List.cons.inj heq).1
        · exact fun _ heq => hE (List.cons.inj heq).1
      rw [hplain, hplain, ← List.cons_append]
      exact of_append _ _ _

theorem scanUnsigned_append (h : Delimited rest) (negative : Bool) (text : List Char) :
    scanUnsigned negative (text ++ rest) = (scanUnsigned negative text).before rest := by
  obtain ⟨ds, r, hdigits⟩ : ∃ ds r, digits text = (ds, r) := ⟨_, _, rfl⟩
  have happend : digits (text ++ rest) = (ds, r ++ rest) := by rw [digits_append h, hdigits]
  by_cases hnil : ds = []
  · subst hnil
    rw [scanUnsigned, scanUnsigned, hdigits, happend]
    rfl
  by_cases hzero : ∃ d ds', ds = 0 :: d :: ds'
  · obtain ⟨d, ds, rfl⟩ := hzero
    rw [scanUnsigned, scanUnsigned, hdigits, happend]
    rfl
  · have hzero : ∀ d ds', ds ≠ 0 :: d :: ds' := fun d ds' heq => hzero ⟨d, ds', heq⟩
    rw [scanUnsigned_of_digits negative happend hnil hzero,
      scanUnsigned_of_digits negative hdigits hnil hzero]
    exact scanTail_append h negative ds r

/-- A numeral in front of other text is scanned as it is alone. -/
theorem scan_append (h : Delimited rest) (text : List Char) :
    scan (text ++ rest) = (scan text).before rest := by
  cases text with
  | nil => rcases h.cases with rfl | ⟨rest, rfl⟩ | ⟨rest, rfl⟩ <;> rfl
  | cons c text =>
    rw [List.cons_append]
    by_cases hminus : c = '-'
    · subst hminus
      exact scanUnsigned_append h true text
    · have hplain : ∀ text : List Char, scan (c :: text) = scanUnsigned false (c :: text) := by
        intro text
        rw [scan]
        exact fun _ heq => hminus (List.cons.inj heq).1
      rw [hplain, hplain]
      exact scanUnsigned_append h false (c :: text)

/-- A text that begins neither with a sign nor with a digit is no numeral. -/
theorem scan_eq_broken {c : Char} (hminus : c ≠ '-') (hdigit : digit? c = none)
    (text : List Char) : scan (c :: text) = .broken := by
  rw [scan, scanUnsigned, digits, hdigit]
  exact fun _ heq => hminus (List.cons.inj heq).1

/-! ### Integers -/

/-- Digits that spell a number without zeros in front. -/
structure Spells (ds : List Nat) (n : Nat) : Prop where
  value : value ds = n
  ne_nil : ds ≠ []
  leading : ∀ d rest, ds ≠ 0 :: d :: rest

theorem digits_digitChar : ∀ n < 10, digits [Nat.digitChar n] = ([n], []) := by decide

theorem digits_append_digit {text : List Char} {ds : List Nat} (h : digits text = (ds, []))
    {d : Nat} (hd : d < 10) : digits (text ++ [Nat.digitChar d]) = (ds ++ [d], []) := by
  induction text generalizing ds with
  | nil =>
    cases h
    exact digits_digitChar d hd
  | cons c text ih =>
    rw [digits] at h
    rw [List.cons_append, digits]
    cases hc : digit? c with
    | none =>
      rw [hc] at h
      cases h
    | some first =>
      rw [hc] at h
      obtain ⟨rfl, hr⟩ := Prod.mk.inj h
      simp only [ih (Prod.ext rfl hr), List.cons_append]

theorem digits_digitsOf (n : Nat) :
    ∃ ds, digits (FloatNotation.digitsOf n) = (ds, []) ∧ Spells ds n := by
  unfold FloatNotation.digitsOf
  induction n using Nat.strongRecOn with
  | _ n ih =>
    rw [Nat.toDigits_eq_if (by decide)]
    split
    next hn =>
      exact ⟨[n], digits_digitChar n hn, ⟨Nat.zero_add n, nofun, nofun⟩⟩
    next hn =>
      obtain ⟨ds, hds, hspells⟩ := ih (n / 10) (by omega)
      refine ⟨ds ++ [n % 10], digits_append_digit hds (Nat.mod_lt _ (by decide)), ⟨?_, ?_, ?_⟩⟩
      · rw [value, List.foldl_append]
        show 10 * value ds + n % 10 = n
        rw [hspells.value]
        omega
      · exact List.append_ne_nil_of_right_ne_nil _ nofun
      · intro d rest heq
        cases ds with
        | nil => exact hspells.ne_nil rfl
        | cons d' ds =>
          obtain ⟨rfl, -⟩ := List.cons.inj heq
          cases ds with
          | nil =>
            have hzero : n / 10 = 0 := hspells.value.symm
            omega
          | cons next ds => exact hspells.leading next ds rfl

/-- Digits are absorbed as far as the number that they spell fits. -/
theorem absorb_eq {n : Nat} {ds : List Nat} (h : ds.foldl (fun n d => 10 * n + d) n < 2 ^ 64) :
    absorb n ds = (ds.foldl (fun n d => 10 * n + d) n, 0) := by
  have hle : ∀ (ds : List Nat) (n : Nat), n ≤ ds.foldl (fun n d => 10 * n + d) n := by
    intro ds
    induction ds with
    | nil => exact fun n => Nat.le_refl n
    | cons d ds ih =>
      intro n
      have := ih (10 * n + d)
      rw [List.foldl_cons]
      omega
  induction ds generalizing n with
  | nil => rfl
  | cons d ds ih =>
    rw [List.foldl_cons] at h ⊢
    have := hle ds (10 * n + d)
    rw [absorb, if_pos (by rw [Nat.pow_eq]; omega), ih h]

theorem Spells.absorb_eq {ds : List Nat} {n : Nat} (h : Spells ds n) (hn : n < 2 ^ 64) :
    absorb 0 ds = (n, 0) := by
  have hvalue : ds.foldl (fun n d => 10 * n + d) 0 = n := h.value
  rw [Numeral.absorb_eq (hvalue ▸ hn), hvalue]

/-- A text that begins with digits has no sign. -/
theorem scan_of_digits {text r : List Char} {ds : List Nat} (h : digits text = (ds, r))
    (hne : ds ≠ []) : scan text = scanUnsigned false text := by
  unfold scan
  split
  next => exact absurd (Prod.mk.inj h).1.symm hne
  next => rfl

end Numeral

end Json

namespace Number

open Json.Numeral

/-- The number is the one that its JSON text spells. -/
def ReadsBack (n : Number) : Prop := scan n.write = .read n []

instance (n : Number) : Decidable n.ReadsBack := inferInstanceAs (Decidable (_ = _))

/-- The number that is read where a number was written. -/
def reread (n : Number) : Number :=
  match scan n.write with
  | .read m _ => m
  | _ => n

/-- The text of the number is a numeral, if perhaps that of another number. -/
def IsNumeral (n : Number) : Prop := scan n.write = .read n.reread []

instance (n : Number) : Decidable n.IsNumeral := inferInstanceAs (Decidable (_ = _))

theorem ReadsBack.reread_eq {n : Number} (h : n.ReadsBack) : n.reread = n := by
  rw [reread, h]

theorem ReadsBack.isNumeral {n : Number} (h : n.ReadsBack) : n.IsNumeral := by
  rw [IsNumeral, h.reread_eq, h]

/-- The integers of a document are read back. -/
theorem readsBack_int {n : Int} (hlow : -2 ^ 63 ≤ n) (hhigh : n < 2 ^ 64) :
    (Number.int n).ReadsBack := by
  obtain ⟨ds, hdigits, hspells⟩ := digits_digitsOf n.natAbs
  have hscan : ∀ negative, scanUnsigned negative (FloatNotation.digitsOf n.natAbs)
      = .of (integer? negative ds) [] := fun negative =>
    scanUnsigned_of_digits negative hdigits hspells.ne_nil hspells.leading
  have habsorb := hspells.absorb_eq (by omega)
  by_cases hneg : n < 0
  · have hint : integer? true ds = some (.int n) := by
      have hfits : ¬(n.natAbs = 0 ∨ Nat.pow 2 63 < n.natAbs) := by rw [Nat.pow_eq]; omega
      have habs : -(n.natAbs : Int) = n := by omega
      simp only [integer?, habsorb, Bool.not_true, Bool.false_eq_true, if_false, if_neg hfits, habs]
    rw [ReadsBack, write, if_pos hneg, scan, hscan, hint]
    rfl
  · have hint : integer? false ds = some (.int n) := by
      have habs : (n.natAbs : Int) = n := by omega
      simp only [integer?, habsorb, Bool.not_false, if_true, habs]
    rw [ReadsBack, write, if_neg hneg, scan_of_digits hdigits hspells.ne_nil, hscan, hint]
    rfl

end Number

end Workflow
