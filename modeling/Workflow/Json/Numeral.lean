import Workflow.Json.Basic

/-!
# JSON numerals

`Numeral.scan` reads a numeral from the front of a text. A numeral without point and power is an
integer if it lies between `-2 ^ 63` and `2 ^ 64 - 1`; every other numeral is a float. The float is
computed from at most as many digits as fit 64 bits and a power of ten, with one rounding for the
digits and one for each scaling step, so it may differ from the nearest one in the last place.
-/

namespace Workflow

namespace Json.Numeral

/-- The value of a decimal digit. -/
def digit? (c : Char) : Option Nat :=
  if '0' ≤ c ∧ c ≤ '9' then some (c.toNat - '0'.toNat) else none

/-- The digits at the front of a text, and the rest. -/
def digits : List Char → List Nat × List Char
  | [] => ([], [])
  | c :: rest =>
    match digit? c with
    | some d => let (ds, rest) := digits rest; (d :: ds, rest)
    | none => ([], c :: rest)

/-- The number that a list of digits spells. -/
def value (ds : List Nat) : Nat := ds.foldl (fun n d => 10 * n + d) 0

/-- Appends digits to a number as long as it fits 64 bits; also counts the digits left over. -/
def absorb (n : Nat) : List Nat → Nat × Nat
  | [] => (n, 0)
  | d :: ds => if 10 * n + d < Nat.pow 2 64 then absorb (10 * n + d) ds else (n, ds.length + 1)

/-- A power of ten as a float. -/
def powerOfTen (n : Nat) : BinaryFloat :=
  (FloatWidth.double.round false (Nat.pow 10 n) 1).getD default

/-- `x * 10 ^ exponent`, rounded at each step; `none` when it is too large. A power below the
three-hundred-and-eighth negative one takes several steps, the first of which make `x` zero. -/
def scale : Nat → BinaryFloat → Int → Option BinaryFloat
  | 0, x, _ => some (.zero x.negative)
  | fuel + 1, x, exponent =>
    if exponent.natAbs ≤ 308 then
      if exponent < 0 then FloatWidth.double.div x (powerOfTen exponent.natAbs)
      else FloatWidth.double.mul x (powerOfTen exponent.natAbs)
    else if x.mantissa = 0 then some x
    else if 0 < exponent then none
    else match FloatWidth.double.div x (powerOfTen 308) with
      | some y => scale fuel y (exponent + 308)
      | none => none

/-- The float of a sign, a number of at most 64 bits and a power of ten. -/
def float? (negative : Bool) (significand : Nat) (exponent : Int) : Option Number :=
  match FloatWidth.double.round negative significand 1 with
  | some x => (scale 4 x exponent).map .float
  | none => none

/-- The integer of a sign and digits, or the float when it lies outside the range of integers. A
negated zero is a float. -/
def integer? (negative : Bool) (ds : List Nat) : Option Number :=
  match absorb 0 ds with
  | (n, 0) =>
    if !negative then some (.int n)
    else if n = 0 ∨ Nat.pow 2 63 < n then float? true n 0
    else some (.int (-n))
  | (n, dropped) => float? negative n dropped

/-- What stands at the front of a text where a numeral is expected. -/
inductive Scan where
  /-- A numeral and the rest of the text. -/
  | read (n : Number) (rest : List Char)
  /-- A numeral too large for a float, and the rest of the text. -/
  | overflow (rest : List Char)
  /-- No numeral. -/
  | broken
  deriving DecidableEq

/-- A numeral that was well formed, with the number if it has one. -/
def Scan.of (n? : Option Number) (rest : List Char) : Scan :=
  match n? with
  | some n => .read n rest
  | none => .overflow rest

/-- The power of ten after `e`: an optional sign and at least one digit. -/
def power? : List Char → Option (Int × List Char)
  | '-' :: rest => match digits rest with
    | ([], _) => none
    | (ds, rest) => some (-(value ds : Int), rest)
  | '+' :: rest => match digits rest with
    | ([], _) => none
    | (ds, rest) => some (value ds, rest)
  | rest => match digits rest with
    | ([], _) => none
    | (ds, rest) => some (value ds, rest)

/-- The end of a numeral that is a float: a power of ten, if there is one. -/
def scanPower (negative : Bool) (significand : Nat) (exponent : Int) (text : List Char) : Scan :=
  match text with
  | 'e' :: rest | 'E' :: rest =>
    match power? rest with
    | some (p, rest) => .of (float? negative significand (exponent + p)) rest
    | none => .broken
  | rest => .of (float? negative significand exponent) rest

/-- A numeral after its sign. -/
def scanUnsigned (negative : Bool) (text : List Char) : Scan :=
  match digits text with
  | ([], _) => .broken
  | (0 :: _ :: _, _) => .broken
  | (ds, '.' :: rest) =>
    match digits rest with
    | ([], _) => .broken
    | (fraction, rest) =>
      let (n, dropped) := absorb 0 ds
      let (n, ignored) := absorb n fraction
      scanPower negative n (dropped - (fraction.length - ignored : Nat)) rest
  | (ds, 'e' :: rest) =>
    let (n, dropped) := absorb 0 ds
    scanPower negative n dropped ('e' :: rest)
  | (ds, 'E' :: rest) =>
    let (n, dropped) := absorb 0 ds
    scanPower negative n dropped ('E' :: rest)
  | (ds, rest) => .of (integer? negative ds) rest

/-- Reads a numeral from the front of a text. -/
def scan : List Char → Scan
  | '-' :: rest => scanUnsigned true rest
  | text => scanUnsigned false text

example : scan "-12,".toList = .read (.int (-12)) [','] := by decide
example : scan "18446744073709551615".toList = .read (.int 18446744073709551615) [] := by
  decide +kernel
example : scan "-0".toList = .read (.float (.zero true)) [] := by decide +kernel
example : scan "1.50e0".toList = .read (.float ⟨false, 3 * 2 ^ 51, -52⟩) [] := by decide +kernel
example : scan "1e400 ".toList = .overflow [' '] := by decide +kernel
example : scan "01".toList = .broken := by decide
example : scan "1.e5".toList = .broken := by decide

end Json.Numeral

end Workflow
