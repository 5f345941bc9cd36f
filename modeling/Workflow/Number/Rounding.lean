/-!
# Binary floating-point values and rounding

A finite binary float is kept exactly, as a sign, a mantissa and a power of two, so that reading and
writing decimal text is integer arithmetic. `FloatWidth.round` takes a ratio of naturals to the
nearest float of a width; a ratio halfway between two floats goes to the even mantissa.
-/

namespace Workflow

/-- The size of a binary floating-point format: its mantissa has `precision` bits and its exponent
lies between the two bounds. -/
structure FloatWidth where
  precision : Nat
  minExponent : Int
  maxExponent : Int
  deriving DecidableEq, Repr

namespace FloatWidth

/-- The 64-bit format. -/
def double : FloatWidth := ⟨53, -1074, 971⟩

/-- The 32-bit format. -/
def single : FloatWidth := ⟨24, -149, 104⟩

end FloatWidth

/-- A finite binary float: `mantissa * 2 ^ exponent`, negated when `negative`. -/
structure BinaryFloat where
  negative : Bool
  mantissa : Nat
  exponent : Int
  deriving DecidableEq, Repr, Inhabited

namespace BinaryFloat

/-- Zero of either sign. -/
def zero (negative : Bool) : BinaryFloat := ⟨negative, 0, 0⟩

/-- The magnitude as a ratio: numerator and (positive) denominator. -/
def ratio (x : BinaryFloat) : Nat × Nat :=
  if x.exponent < 0 then (x.mantissa, Nat.pow 2 x.exponent.natAbs)
  else (x.mantissa * Nat.pow 2 x.exponent.natAbs, 1)

end BinaryFloat

/-- A float as text can spell it: finite, infinite with either sign, or not a number. -/
inductive ExtendedFloat where
  | finite (x : BinaryFloat)
  | infinite (negative : Bool)
  | nan
  deriving DecidableEq, Repr

namespace FloatWidth

/-- `numerator / (denominator * 2 ^ exponent)`, rounded to the nearest natural and to the even one
on a tie. -/
def quotient (numerator denominator : Nat) (exponent : Int) : Nat :=
  let n := if exponent < 0 then numerator * Nat.pow 2 exponent.natAbs else numerator
  let d := if exponent < 0 then denominator else denominator * Nat.pow 2 exponent.natAbs
  let q := n / d
  let r := n % d
  if d < 2 * r ∨ (2 * r = d ∧ q % 2 = 1) then q + 1 else q

/-- The exponent at which a positive ratio has a mantissa of full precision, or the least exponent
when the ratio is too small for that. -/
def exponentOf (w : FloatWidth) (numerator denominator : Nat) : Int :=
  let k : Int := (numerator.log2 : Int) - denominator.log2
  let reached :=
    if k < 0 then denominator ≤ numerator * Nat.pow 2 k.natAbs
    else denominator * Nat.pow 2 k.natAbs ≤ numerator
  let e := if reached then k - w.precision + 1 else k - w.precision
  max e w.minExponent

/-- The float nearest to `numerator / denominator` with the given sign; `none` when the ratio is too
large for every finite float. -/
def round (w : FloatWidth) (negative : Bool) (numerator denominator : Nat) : Option BinaryFloat :=
  if numerator = 0 then some (.zero negative)
  else
    let e := w.exponentOf numerator denominator
    let m := quotient numerator denominator e
    if m = 0 then some (.zero negative)
    else
      let (m, e) := if m = Nat.pow 2 w.precision then (m / 2, e + 1) else (m, e)
      if w.maxExponent < e then none else some ⟨negative, m, e⟩

/-- The float nearest to an integer. -/
def ofInt (w : FloatWidth) (n : Int) : Option BinaryFloat := w.round (n < 0) n.natAbs 1

/-- The float of width `w` nearest to a float of any width. -/
def convert (w : FloatWidth) (x : BinaryFloat) : Option BinaryFloat :=
  w.round x.negative x.ratio.1 x.ratio.2

/-- The product, rounded. The sign is that of the left factor. -/
def mul (w : FloatWidth) (x y : BinaryFloat) : Option BinaryFloat :=
  w.round x.negative (x.ratio.1 * y.ratio.1) (x.ratio.2 * y.ratio.2)

/-- The quotient by a nonzero float, rounded. The sign is that of the dividend. -/
def div (w : FloatWidth) (x y : BinaryFloat) : Option BinaryFloat :=
  w.round x.negative (x.ratio.1 * y.ratio.2) (x.ratio.2 * y.ratio.1)

/-- The float nearest to `digits * 10 ^ exponent`. A power of ten that leaves the range whatever the
digits are is not computed. -/
def ofDecimal (w : FloatWidth) (negative : Bool) (digits : Nat) (exponent : Int) :
    Option BinaryFloat :=
  if digits = 0 then some (.zero negative)
  else if 400 < exponent then none
  else if exponent < -400 - (digits.log2 : Int) then some (.zero negative)
  else if exponent < 0 then w.round negative digits (Nat.pow 10 exponent.natAbs)
  else w.round negative (digits * Nat.pow 10 exponent.natAbs) 1

example : double.ofInt 1 = some ⟨false, 2 ^ 52, -52⟩ := by decide
example : double.ofDecimal false 1 (-324) = some (.zero false) := by decide +kernel
example : double.ofDecimal false 5 (-324) = some ⟨false, 1, -1074⟩ := by decide +kernel
example : double.ofDecimal false 1 309 = none := by decide +kernel
example : single.ofInt 16777217 = some ⟨false, 2 ^ 23, 1⟩ := by decide +kernel

end FloatWidth

end Workflow
