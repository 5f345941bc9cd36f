import Workflow.Json.Basic
import Workflow.Script

/-!
# Shapes of transform values

A document does not say how the value of a transform field is encoded; the value's shape tells.
`Shape.of` decides in a fixed order: nothing, a script, a structure, a flat record, a query.
-/

namespace Workflow

/-- The shape of a transform value. -/
inductive Shape where
  /-- Null, the empty string or the empty record. -/
  | empty
  /-- A string with the marks of a script around its body. -/
  | script (body : String)
  /-- A nested value, an array, or a scalar that is not a string. -/
  | structured (value : Json)
  /-- A record of scalars. -/
  | flat (fields : Fields)
  /-- Any other string. -/
  | query (text : String)
  deriving DecidableEq, Repr

namespace Shape

/-- The shape of a value. -/
def of : Json → Shape
  | .null => empty
  | .str text =>
    if text.isEmpty then empty
    else match Script.unwrap? text with
      | some body => script body
      | none => query text
  | .obj fields =>
    if fields.isEmpty then empty
    else if (Json.obj fields).depth > 1 then structured (.obj fields)
    else flat fields
  | v => structured v

/-- The name of a shape. -/
def name : Shape → String
  | empty => "Empty"
  | script _ => "Script"
  | structured _ => "Structure"
  | flat _ => "Flat"
  | query _ => "Query"

theorem of_eq_empty_iff (v : Json) : of v = empty ↔ v.isBlank = true := by
  cases v with
  | str text =>
    simp only [of, Json.isBlank]
    split
    · simp_all
    · split <;> simp_all
  | obj fields =>
    simp only [of, Json.isBlank]
    split
    · simp_all
    · split <;> simp_all
  | _ => simp [of, Json.isBlank]

example : of (.str "js(return 1)\n") = script "return 1" := by decide +kernel
example : of (.str "jq(.a)") = query "jq(.a)" := by decide +kernel
example : of (.obj [("a", .null)]) = flat [("a", .null)] := by decide
example : of (.obj [("a", .arr [])]) = structured (.obj [("a", .arr [])]) := by decide

end Shape

end Workflow
