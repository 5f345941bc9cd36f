import Workflow.Number.Shortest

/-!
# Writing floats

A `FloatNotation` says when a float is written with all its digits in place and when with a power of
ten. The digits are always the shortest ones that read back, and a whole number keeps one zero after
the point unless a power of ten follows.
-/

namespace Workflow

/-- How a decimal numeral is laid out. -/
structure FloatNotation where
  /-- The places of the decimal point (counted from the first digit) that are written in place;
  `none` when every number is. -/
  inPlace : Option (Int × Int)
  /-- Whether a power of ten that is not negative has a plus sign. -/
  plusSign : Bool
  /-- Which of two equally near numerals is written. -/
  tie : Tie

namespace FloatNotation

/-- The decimal digits of a natural number. -/
def digitsOf (n : Nat) : List Char := Nat.toDigits 10 n

/-- A run of zeros. -/
def zeros (n : Nat) : List Char := List.replicate n '0'

/-- All digits in place, the point after position `point`. -/
def placed (digits : List Char) (point : Int) : List Char :=
  if point ≤ 0 then '0' :: '.' :: zeros point.natAbs ++ digits
  else if digits.length ≤ point.natAbs then
    digits ++ zeros (point.natAbs - digits.length) ++ ['.', '0']
  else digits.take point.natAbs ++ '.' :: digits.drop point.natAbs

/-- One digit, the others behind the point, and a power of ten. -/
def scientific (fmt : FloatNotation) (digits : List Char) (point : Int) : List Char :=
  let power := point - 1
  let sign := if power < 0 then ['-'] else if fmt.plusSign then ['+'] else []
  let fraction := if digits.length ≤ 1 then [] else '.' :: digits.drop 1
  digits.take 1 ++ fraction ++ 'e' :: sign ++ digitsOf power.natAbs

/-- The text of a numeral. -/
def write (fmt : FloatNotation) (negative : Bool) (d : DecimalNumeral) : List Char :=
  let digits := digitsOf d.digits
  let point := digits.length + d.exponent
  let body :=
    if d.digits = 0 then ['0', '.', '0']
    else match fmt.inPlace with
      | none => placed digits point
      | some (first, last) =>
        if first ≤ point ∧ point ≤ last then placed digits point else fmt.scientific digits point
  if negative then '-' :: body else body

/-- The text of a float: its shortest digits in this notation. -/
def float (fmt : FloatNotation) (w : FloatWidth) (x : BinaryFloat) : List Char :=
  fmt.write x.negative (w.shortest fmt.tie x)

/-- Every digit in place, however long the number; the greater of two equally near numerals. -/
def full : FloatNotation := ⟨none, false, .up⟩

example : full.write false ⟨15, -1⟩ = "1.5".toList := by decide +kernel
example : full.write true ⟨0, 0⟩ = "-0.0".toList := by decide +kernel
example : full.write false ⟨1, -5⟩ = "0.00001".toList := by decide +kernel
example : full.write false ⟨12, 3⟩ = "12000.0".toList := by decide +kernel
example : (FloatNotation.mk (some (-4, 16)) true .up).write false ⟨12, 20⟩ = "1.2e+21".toList := by
  decide +kernel
example : (FloatNotation.mk (some (-4, 16)) false .up).write false ⟨1, -7⟩ = "1e-7".toList := by
  decide +kernel

end FloatNotation

end Workflow
