import Workflow.Json.Quoted

/-!
# Node identifiers

A node is identified by a number of 128 bits. It is written as 32 hexadecimal digits in groups of 8,
4, 4, 4 and 12; it is read from that form, also between braces or behind `urn:uuid:`, and from the
digits without hyphens. Case does not matter, in the digits or in the scheme.
-/

namespace Workflow

/-- The identifier of a node. -/
structure NodeId where
  bits : BitVec 128
  deriving DecidableEq, Repr

namespace NodeId

/-- The identifier with a given number. -/
def ofNat (n : Nat) : NodeId := ⟨BitVec.ofNat 128 n⟩

/-- The hexadecimal digits of a number: `count` of them, in lower case. -/
def digits : (count n : Nat) → List Char
  | 0, _ => []
  | count + 1, n => digits count (n / 16) ++ [Json.Quoted.hexDigit (n % 16)]

/-- The 32 digits of an identifier. -/
def allDigits (id : NodeId) : List Char := digits 32 id.bits.toNat

/-- The lengths of the groups of digits. -/
def groups : List Nat := [8, 4, 4, 4, 12]

/-- Digits in groups of the given lengths, with hyphens between the groups. -/
def hyphenate : (lengths : List Nat) → List Char → List Char
  | [], _ => []
  | [n], ds => ds.take n
  | n :: rest, ds => ds.take n ++ '-' :: hyphenate rest (ds.drop n)

/-- The text of an identifier. -/
def text (id : NodeId) : String := String.ofList (hyphenate groups id.allDigits)

instance : ToString NodeId := ⟨text⟩

/-- The number that hexadecimal digits spell. -/
def number? (ds : List Char) : Option Nat :=
  ds.foldlM (fun n c => (Json.Quoted.hexValue? c).map (16 * n + ·)) 0

/-- The digits of a text in groups of the given lengths; nothing unless the groups and the hyphens
between them are all of the text. -/
def ungroup? : (lengths : List Nat) → List Char → Option (List Char)
  | [], _ => none
  | [n], cs => if cs.length = n then some cs else none
  | n :: rest, cs =>
    match cs.drop n with
    | '-' :: behind => (ungroup? rest behind).map (cs.take n ++ ·)
    | _ => none

/-- The text without the braces around it or the scheme in front of it, if it has either. -/
def bare (cs : List Char) : List Char :=
  let scheme := "urn:uuid:".toList
  if scheme.isPrefixOf (cs.map Char.toLower) then cs.drop scheme.length
  else match cs with
    | '\x7b' :: rest => if rest.getLast? = some '\x7d' then rest.dropLast else cs
    | _ => cs

/-- The identifier that a text spells. -/
def ofText? (text : String) : Option NodeId := do
  let cs := text.toList
  let ds ← if cs.length = 32 then some cs else ungroup? groups (bare cs)
  return ofNat (← number? ds)

/-- Identifiers are ordered by their numbers. -/
instance : LT NodeId := ⟨fun a b => a.bits < b.bits⟩

instance (a b : NodeId) : Decidable (a < b) := inferInstanceAs (Decidable (a.bits < b.bits))

example : (ofNat 255).text = "00000000-0000-0000-0000-0000000000ff" := by decide +kernel
example : ofText? "URN:uuid:00000000-0000-0000-0000-0000000000fF" = some (ofNat 255) := by
  decide +kernel
example : ofText? "\x7b00000000-0000-0000-0000-0000000000ff\x7d" = some (ofNat 255) := by
  decide +kernel
example : ofText? "000000000000000000000000000000ff" = some (ofNat 255) := by decide +kernel
example : ofText? "000000000000000-000000000000000-ff00" = none := by decide +kernel

end NodeId

end Workflow
