import Workflow.Json.Basic

/-!
# What a plain scalar means

An unquoted scalar is null, a boolean, a number or a string, depending on its spelling alone.
`Scalar.resolve` decides it; the writer uses the same rule to find the strings that have to be
quoted.
-/

namespace Workflow.Yaml

/-- The meaning of a scalar. -/
inductive Scalar where
  | null
  | bool (b : Bool)
  /-- An integer between `-2 ^ 63` and `2 ^ 64 - 1`. -/
  | int (n : Int)
  /-- An integer outside that range that fits 128 bits. -/
  | wide (n : Int)
  | float (x : ExtendedFloat)
  | str (s : String)
  deriving DecidableEq, Repr

namespace Scalar

/-- The value of a digit, in lower or upper case. -/
def digit? (c : Char) : Option Nat :=
  if '0' ≤ c ∧ c ≤ '9' then some (c.toNat - '0'.toNat)
  else if 'a' ≤ c ∧ c ≤ 'z' then some (c.toNat - 'a'.toNat + 10)
  else if 'A' ≤ c ∧ c ≤ 'Z' then some (c.toNat - 'A'.toNat + 10)
  else none

/-- The number that digits of a radix spell after those of `n`. -/
def spelled? (radix : Nat) (n : Nat) : List Char → Option Nat
  | [] => some n
  | c :: rest =>
    match digit? c with
    | some d => if d < radix then spelled? radix (radix * n + d) rest else none
    | none => none

/-- The natural number that a text spells in a radix; there is at least one digit. -/
def natural? (radix : Nat) : List Char → Option Nat
  | [] => none
  | text => spelled? radix 0 text

/-- Whether a character is a decimal digit. -/
def isDigit (c : Char) : Bool := '0' ≤ c && c ≤ '9'

/-- The text without one sign at its front. -/
def unsigned : List Char → List Char
  | '+' :: rest | '-' :: rest => rest
  | text => text

/-- Whether a text spells digits with a needless zero in front, which makes it a string. -/
def isPadded (text : List Char) : Bool :=
  match unsigned text with
  | '0' :: c :: rest => (c :: rest).all isDigit
  | _ => false

/-- The text without one plus sign at its front. -/
def withoutPlus : List Char → List Char
  | '+' :: rest => rest
  | text => text

/-- The natural number of a text with an optional plus sign. -/
def positive? (text : List Char) : Option Nat :=
  let body := withoutPlus text
  let based := match body with
    | '0' :: 'x' :: rest => natural? 16 rest
    | '0' :: 'o' :: rest => natural? 8 rest
    | '0' :: 'b' :: rest => natural? 2 rest
    | _ => none
  based <|> if isPadded text then none else natural? 10 body

/-- The number whose negation a text with a minus sign spells. -/
def negative? (text : List Char) : Option Nat :=
  match text with
  | '-' :: body =>
    let based := match body with
      | '0' :: 'x' :: rest => natural? 16 rest
      | '0' :: 'o' :: rest => natural? 8 rest
      | '0' :: 'b' :: rest => natural? 2 rest
      | _ => none
    based <|> if isPadded text then none else natural? 10 body
  | _ => none

/-- The integer that a text spells, unless it does not fit 128 bits. -/
def integer? (text : List Char) : Option Scalar :=
  match positive? text, negative? text with
  | some n, _ =>
    if n < Nat.pow 2 64 then some (.int n) else if n < Nat.pow 2 128 then some (.wide n) else none
  | none, some n =>
    if n ≤ Nat.pow 2 63 then some (.int (-n)) else if n ≤ Nat.pow 2 127 then some (.wide (-n)) else none
  | none, none => none

/-- The power of ten at the end of a decimal: nothing, or `e` with an integer. -/
def power? : List Char → Option Int
  | [] => some 0
  | 'e' :: rest | 'E' :: rest =>
    match rest with
    | '-' :: rest => (natural? 10 rest).map fun n => -n
    | rest => (natural? 10 (withoutPlus rest)).map fun n => n
  | _ => none

/-- The float that a decimal spells, if it is finite: digits with an optional point and an optional
power of ten. -/
def decimal? (text : List Char) : Option BinaryFloat :=
  let body := unsigned text
  let whole := body.takeWhile isDigit
  let rest := body.dropWhile isDigit
  let (fraction, rest) := match rest with
    | '.' :: rest => (rest.takeWhile isDigit, rest.dropWhile isDigit)
    | rest => ([], rest)
  if whole.isEmpty && fraction.isEmpty then none
  else do
    let digits ← natural? 10 (whole ++ fraction)
    let power ← power? rest
    FloatWidth.double.ofDecimal (text.head? = some '-') digits (power - fraction.length)

/-- The spellings of infinity. -/
def infinities : List (List Char) := [".inf".toList, ".Inf".toList, ".INF".toList]

/-- The float that a text spells. -/
def float? (text : List Char) : Option ExtendedFloat :=
  let body := withoutPlus text
  if infinities.contains body then some (.infinite false)
  else if text.head? = some '-' && infinities.contains text.tail then some (.infinite true)
  else if [".nan".toList, ".NaN".toList, ".NAN".toList].contains text then some .nan
  else if text.head? = some '+' && (body.head? = some '+' || body.head? = some '-') then none
  else (decimal? body).map .finite

/-- Whether a text spells null. -/
def isNull (text : List Char) : Bool :=
  ["null".toList, "Null".toList, "NULL".toList, ['~']].contains text

/-- The boolean that a text spells. -/
def bool? (text : List Char) : Option Bool :=
  if ["true".toList, "True".toList, "TRUE".toList].contains text then some true
  else if ["false".toList, "False".toList, "FALSE".toList].contains text then some false
  else none

/-- The meaning of an unquoted scalar. -/
def resolve (s : String) : Scalar :=
  let text := s.toList
  if text.isEmpty || isNull text then .null
  else match bool? text with
    | some b => .bool b
    | none =>
      match integer? text with
      | some n => n
      | none =>
        if isPadded text then .str s
        else match float? text with
          | some x => .float x
          | none => .str s

example : resolve "+0x1F" = .int 31 := by decide +kernel
example : resolve "017" = .str "017" := by decide +kernel
example : resolve "01.5" = .float (.finite ⟨false, 3 * 2 ^ 51, -52⟩) := by decide +kernel
example : resolve "1e400" = .str "1e400" := by decide +kernel
example : resolve "-.nan" = .str "-.nan" := by decide +kernel
example : resolve "18446744073709551616" = .wide 18446744073709551616 := by decide +kernel
example : resolve "++1" = .str "++1" := by decide +kernel

end Scalar

end Workflow.Yaml
