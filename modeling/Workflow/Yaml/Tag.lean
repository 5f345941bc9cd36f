/-!
# Tags

A tag says what kind of node it stands in front of. `Tag.ofBytes` sorts tags into those of the core
schema that change the reading of a scalar, those that belong to no schema, and all others.
-/

namespace Workflow.Yaml

/-- The tag of a node. -/
inductive Tag where
  | bool
  | int
  | float
  | null
  /-- A tag of the text's own, with its name. -/
  | own (name : String)
  /-- A tag of the text's own whose name is no text. -/
  | unreadable
  /-- Any other tag, which makes every scalar a string. -/
  | other
  deriving DecidableEq, Repr

namespace Tag

/-- The common start of the tags of the core schema. -/
def coreStart : String := "tag:yaml.org,2002:"

/-- The mark in front of tags that belong to no schema. -/
def mark : Char := '!'

/-- The name behind the mark; the mark alone is its own name. -/
def nameOf (name : List Char) : String := String.ofList (if name.isEmpty then [mark] else name)

/-- The tag with given bytes. -/
def ofBytes (bytes : List UInt8) : Tag :=
  match String.fromUTF8? ⟨bytes.toArray⟩ with
  | none => if bytes.head? = some mark.toUInt8 then unreadable else other
  | some text =>
    if text = coreStart ++ "bool" then bool
    else if text = coreStart ++ "int" then int
    else if text = coreStart ++ "float" then float
    else if text = coreStart ++ "null" then null
    else match text.toList with
      | c :: name => if c = mark then own (nameOf name) else other
      | [] => other

/-- The name of a tag of the text's own. -/
def name? : Tag → Option String
  | own name => some name
  | _ => none

/-- A name without the mark that is its first character, unless it is the mark alone. Names that
agree in this stand for the same tag. -/
def bareName (name : String) : String :=
  match name.toList with
  | c :: rest => if c = mark then nameOf rest else name
  | [] => name

example : ofBytes "!a".toUTF8.toList = own "a" := by decide +kernel
example : ofBytes "!".toUTF8.toList = own "!" := by decide +kernel
example : ofBytes "tag:yaml.org,2002:int".toUTF8.toList = int := by decide +kernel
example : ofBytes [0x21, 0xC0, 0x80] = unreadable := by decide +kernel
example : ofBytes [] = other := by decide +kernel
example : bareName "!a" = bareName "a" := by decide +kernel

end Tag

end Workflow.Yaml
