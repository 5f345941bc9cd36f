import Workflow.Script

/-!
# Settings

The choices that import and compilation leave open.
-/

namespace Workflow

/-- What can be chosen for import and compilation. -/
structure Settings where
  /-- How many more columns than its key a script is indented. -/
  scriptIndent : Nat := Script.defaultIndent
  /-- Whether a document that names no entry state starts with its first state. -/
  entryFallback : Bool := true
  /-- Whether states of unknown types are left out of an import. -/
  skipUnregistered : Bool := true
  scriptIndent_pos : 0 < scriptIndent := by decide
  deriving DecidableEq, Repr

/-- Why settings are refused. -/
inductive SettingsFault where
  /-- A script would not be indented at all. -/
  | noIndent
  deriving DecidableEq, Repr

/-- The message of a fault. -/
def SettingsFault.message : SettingsFault → String
  | noIndent => "script_indent must be at least 1"

namespace Settings

/-- Settings with some choices made; the others stay as they are by default. -/
def choose (scriptIndent : Option Nat) (entryFallback skipUnregistered : Option Bool) :
    Except SettingsFault Settings :=
  let indent := scriptIndent.getD Script.defaultIndent
  if h : 0 < indent then
    .ok ⟨indent, entryFallback.getD true, skipUnregistered.getD true, h⟩
  else .error .noIndent

end Settings

end Workflow
