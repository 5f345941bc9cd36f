/-!
# Tokens of YAML text

What a YAML text consists of once indentation has been turned into brackets.
-/

namespace Workflow.Yaml

/-- A token. -/
inductive Token where
  | versionDirective (major minor : Nat)
  | tagDirective (handle : String) (replacement : List UInt8)
  | documentStart
  | documentEnd
  | blockSequenceStart
  | blockMappingStart
  | blockEnd
  | flowSequenceStart
  | flowSequenceEnd
  | flowMappingStart
  | flowMappingEnd
  | blockEntry
  | flowEntry
  | key
  | value
  | alias (name : String)
  | anchor (name : String)
  /-- A tag; percent escapes make its suffix a list of bytes. -/
  | tag (handle : String) (suffix : List UInt8)
  /-- A scalar, and whether it is written without quotes or marks. -/
  | scalar (plain : Bool) (text : String)
  deriving DecidableEq, Repr

end Workflow.Yaml
