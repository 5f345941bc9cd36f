import Workflow.Number.Rounding

/-!
# The shortest decimal that reads back

The reals that round to a float form an interval around it. `FloatWidth.shortest` looks at decimal
grids from coarse to fine and takes the first grid with a point in that interval; of the float's two
neighbours on that grid it takes the nearer one. A `Tie` says which one it takes when both are
equally near.
-/

namespace Workflow

/-- A decimal numeral: `digits * 10 ^ exponent`. -/
structure DecimalNumeral where
  digits : Nat
  exponent : Int
  deriving DecidableEq, Repr

namespace DecimalNumeral

/-- Moves up to `fuel` trailing zeros of the digits into the exponent. -/
def trim : Nat → DecimalNumeral → DecimalNumeral
  | 0, d => d
  | fuel + 1, d =>
    if d.digits % 10 = 0 ∧ d.digits ≠ 0 then trim fuel ⟨d.digits / 10, d.exponent + 1⟩ else d

end DecimalNumeral

/-- Which of two neighbours on a grid stands for a float that lies halfway between them. -/
inductive Tie where
  /-- The even one. -/
  | toEven
  /-- The greater one. -/
  | up
  deriving DecidableEq, Repr

/-- Whether the lower one of two neighbours wins, which has the digits `below`. -/
def Tie.staysAt : Tie → (below : Nat) → Bool
  | toEven, below => below % 2 = 0
  | up, _ => false

/-- A positive float with the ends of its rounding interval, all as numerators over one
denominator. -/
structure RoundingInterval where
  value : Nat
  low : Nat
  high : Nat
  denominator : Nat
  closed : Bool

namespace RoundingInterval

/-- Whether a numerator over the same denominator lies in the interval. -/
def contains (r : RoundingInterval) (numerator : Nat) : Bool :=
  if r.closed then r.low ≤ numerator && numerator ≤ r.high
  else r.low < numerator && numerator < r.high

/-- The point of the grid `10 ^ exponent` that stands for the float, if one of its two neighbours on
that grid lies in the interval. A grid coarser than the float itself has none. -/
def pointOn? (tie : Tie) (r : RoundingInterval) (exponent : Int) : Option Nat :=
  let scale := if exponent < 0 then 1 else Nat.pow 10 exponent.natAbs
  let widen := if exponent < 0 then Nat.pow 10 exponent.natAbs else 1
  let step := r.denominator * scale
  let value := r.value * widen
  let wide : RoundingInterval :=
    { r with value, low := r.low * widen, high := r.high * widen }
  let below := value / step
  if below = 0 then none
  else
    let down := value - below * step
    let up := (below + 1) * step - value
    match wide.contains (below * step), wide.contains ((below + 1) * step) with
    | true, true => some (if down < up ∨ (down = up ∧ tie.staysAt below) then below else below + 1)
    | true, false => some below
    | false, true => some (below + 1)
    | false, false => none

/-- The first grid with a point for the float, from the grid `10 ^ exponent` downwards. -/
def search (tie : Tie) (r : RoundingInterval) : Nat → Int → DecimalNumeral
  | 0, exponent => ⟨r.value, exponent⟩
  | fuel + 1, exponent =>
    match r.pointOn? tie exponent with
    | some digits => ⟨digits, exponent⟩
    | none => search tie r fuel (exponent - 1)

end RoundingInterval

namespace FloatWidth

/-- The reals that round to a positive float. The interval is narrower below a power of two, and
its ends belong to it when the mantissa is even. -/
def interval (w : FloatWidth) (x : BinaryFloat) : RoundingInterval :=
  let narrow := x.mantissa = Nat.pow 2 (w.precision - 1) ∧ w.minExponent < x.exponent
  let scale := if x.exponent < 0 then 1 else Nat.pow 2 x.exponent.natAbs
  let denominator := if x.exponent < 0 then 4 * Nat.pow 2 x.exponent.natAbs else 4
  { value := 4 * x.mantissa * scale
    low := (if narrow then 4 * x.mantissa - 1 else 4 * x.mantissa - 2) * scale
    high := (4 * x.mantissa + 2) * scale
    denominator
    closed := x.mantissa % 2 = 0 }

/-- The shortest numeral that reads back as the magnitude of `x`, nearest to it among those. -/
def shortest (w : FloatWidth) (tie : Tie) (x : BinaryFloat) : DecimalNumeral :=
  if x.mantissa = 0 then ⟨0, 0⟩
  else
    let top := ((x.mantissa.log2 : Int) + x.exponent + 1) * 30103 / 100000 + 1
    ((w.interval x).search tie 24 top).trim 24

example : double.shortest .toEven ⟨false, 1, -1074⟩ = ⟨5, -324⟩ := by decide +kernel
example : double.shortest .toEven ⟨false, 2, -1074⟩ = ⟨1, -323⟩ := by decide +kernel
example : (double.ofDecimal false 3 (-1)).map (double.shortest .toEven) = some ⟨3, -1⟩ := by
  decide +kernel
example : (double.ofDecimal false 112589990684262425 (-2)).map (double.shortest .toEven)
    = some ⟨11258999068426242, -1⟩ := by decide +kernel
example : (double.ofDecimal false 112589990684262425 (-2)).map (double.shortest .up)
    = some ⟨11258999068426243, -1⟩ := by decide +kernel
example : (double.ofDecimal false 1 23).map (double.shortest .toEven) = some ⟨1, 23⟩ := by
  decide +kernel
example : (single.ofDecimal false 30000001 (-8)).map (single.shortest .toEven) = some ⟨3, -1⟩ := by
  decide +kernel

end FloatWidth

end Workflow
