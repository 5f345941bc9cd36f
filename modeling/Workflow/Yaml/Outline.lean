import Workflow.Yaml.Lexer
import Workflow.Yaml.Tag

/-!
# The outline of a YAML document

`Outline.ofTokens?` builds the tree of the tokens of one document. Anchors are numbered, and an
alias is kept as a number: an anchor has the number of different names in front of it, and an alias
that of the last anchor with its name. When a name is used again the numbers no longer tell all
anchors apart; a number then stands for the node that starts last.
-/

namespace Workflow.Yaml

/-- A node of a document whose aliases are numbers. -/
inductive Outline where
  /-- A scalar with its tag, and whether it is written without quotes or marks. -/
  | scalar (tag : Option Tag) (plain : Bool) (text : String)
  | seq (tag : Option Tag) (items : List Outline)
  | map (tag : Option Tag) (entries : List (Outline × Outline))
  | alias (number : Nat)
  deriving Repr, Inhabited

namespace Outline

/-- What is left to read, and what has been read so far. -/
structure Reading where
  tokens : List Token
  /-- The tag handles with what they stand for. -/
  handles : List (String × List UInt8)
  /-- The names of anchors with the numbers of the last anchors that have them. -/
  numbers : List (String × Nat)
  /-- The numbered nodes, the last one read first. -/
  numbered : List (Nat × Outline)

/-- Reads part of a document. -/
abbrev Reader := StateT Reading Option

/-- The next token. -/
def next? : Reader (Option Token) := do return (← get).tokens.head?

/-- Passes over the next token. -/
def skip : Reader Unit := modify fun r => { r with tokens := r.tokens.drop 1 }

/-- The tag of a handle and a suffix. -/
def fullTag (handle : String) (suffix : List UInt8) : Reader Tag := do
  if handle.isEmpty then return .ofBytes suffix
  else match (← get).handles.lookup handle with
    | some replacement => return .ofBytes (replacement ++ suffix)
    | none => failure

/-- Reads the anchor and tag in front of a node, in either order. -/
def properties : Reader (Option String × Option Tag) := do
  match ← next? with
  | some (.anchor name) => do
    skip
    match ← next? with
    | some (.tag handle suffix) => skip; return (some name, some (← fullTag handle suffix))
    | _ => return (some name, none)
  | some (.tag handle suffix) => do
    skip
    let tag ← fullTag handle suffix
    match ← next? with
    | some (.anchor name) => skip; return (some name, some tag)
    | _ => return (none, some tag)
  | _ => return (none, none)

/-- The number of an alias. -/
def numberOf (name : String) : Reader Nat := do
  match (← get).numbers.lookup name with
  | some n => return n
  | none => failure

/-- Numbers the anchor in front of a node. -/
def begin (anchor : Option String) : Reader (Option Nat) := do
  match anchor with
  | none => return none
  | some name =>
    let r ← get
    let n := r.numbers.length
    set { r with
      numbers := (name, n) :: r.numbers.filter (·.1 ≠ name)
      numbered := r.numbered.filter (·.1 ≠ n) }
    return some n

/-- Records a numbered node, unless a node in it has the same number. -/
def finish (number : Option Nat) (o : Outline) : Reader Unit :=
  match number with
  | none => return ()
  | some n => modify fun r =>
    if (r.numbered.lookup n).isSome then r else { r with numbered := (n, o) :: r.numbered }

/-- An empty node. -/
def absent : Outline := .scalar none true ""

/-- Whether a token ends an entry of a block record. -/
def endsBlockEntry : Option Token → Bool
  | some .key | some .value | some .blockEnd => true
  | _ => false

mutual

/-- Reads a node; `block` when it may be a block, `indentless` when it may be a list whose dashes
are not indented. -/
def node (block indentless : Bool) : Nat → Reader Outline
  | 0 => failure
  | fuel + 1 => do
    match ← next? with
    | some (.alias name) => do
      skip
      return .alias (← numberOf name)
    | _ => do
      let (anchor, tag) ← properties
      let t ← next?
      let number ← begin anchor
      let o ← content block indentless anchor.isSome tag t fuel
      finish number o
      return o

/-- Reads a node after its properties; `t` is the next token. -/
def content (block indentless anchored : Bool) (tag : Option Tag) (t : Option Token) :
    Nat → Reader Outline
  | 0 => failure
  | fuel + 1 =>
    match t with
    | some (.scalar plain text) => do
      skip
      return .scalar tag plain text
    | some .flowSequenceStart => do
      skip
      return .seq tag (← flowItems true fuel)
    | some .flowMappingStart => do
      skip
      return .map tag (← flowEntries true fuel)
    | some .blockSequenceStart => do
      if !block then failure
      skip
      return .seq tag (← blockItems fuel)
    | some .blockMappingStart => do
      if !block then failure
      skip
      return .map tag (← blockEntries fuel)
    | t => do
      if indentless && t = some .blockEntry then
        return .seq tag (← plainItems fuel)
      else if anchored || tag.isSome then
        return .scalar tag true ""
      else failure

/-- Reads the items of an indented list. -/
def blockItems : Nat → Reader (List Outline)
  | 0 => failure
  | fuel + 1 => do
    match ← next? with
    | some .blockEnd => skip; return []
    | some .blockEntry => do
      skip
      let o ← match ← next? with
        | some .blockEntry | some .blockEnd => pure absent
        | _ => node true false fuel
      return o :: (← blockItems fuel)
    | _ => failure

/-- Reads the items of a list that is not indented. -/
def plainItems : Nat → Reader (List Outline)
  | 0 => failure
  | fuel + 1 => do
    match ← next? with
    | some .blockEntry => do
      skip
      let t ← next?
      let o ← if t = some .blockEntry || endsBlockEntry t then pure absent else node true false fuel
      return o :: (← plainItems fuel)
    | _ => return []

/-- Reads the entries of a block record. -/
def blockEntries : Nat → Reader (List (Outline × Outline))
  | 0 => failure
  | fuel + 1 => do
    match ← next? with
    | some .blockEnd => skip; return []
    | some .key => do
      skip
      let key ← if endsBlockEntry (← next?) then pure absent else node true true fuel
      let value ← match ← next? with
        | some .value => do
          skip
          if endsBlockEntry (← next?) then pure absent else node true true fuel
        | _ => pure absent
      return (key, value) :: (← blockEntries fuel)
    | _ => failure

/-- Reads the items of a list in brackets. -/
def flowItems (first : Bool) : Nat → Reader (List Outline)
  | 0 => failure
  | fuel + 1 => do
    match ← next? with
    | some .flowSequenceEnd => skip; return []
    | t => do
      if !first then
        if t = some .flowEntry then skip else failure
      match ← next? with
      | some .flowSequenceEnd => skip; return []
      | some .key => do
        skip
        let o ← flowPair fuel
        return o :: (← flowItems false fuel)
      | _ => do
        let o ← node false false fuel
        return o :: (← flowItems false fuel)

/-- Reads a record of one entry that stands as an item of a list in brackets. An empty key takes the
next token with it. -/
def flowPair : Nat → Reader Outline
  | 0 => failure
  | fuel + 1 => do
    let key ← match ← next? with
      | some .value | some .flowEntry | some .flowSequenceEnd => do skip; pure absent
      | _ => node false false fuel
    let value ← match ← next? with
      | some .value => do
        skip
        match ← next? with
        | some .flowEntry | some .flowSequenceEnd => pure absent
        | _ => node false false fuel
      | _ => pure absent
    return .map none [(key, value)]

/-- Reads the entries of a record in brackets. -/
def flowEntries (first : Bool) : Nat → Reader (List (Outline × Outline))
  | 0 => failure
  | fuel + 1 => do
    match ← next? with
    | some .flowMappingEnd => skip; return []
    | t => do
      if !first then
        if t = some .flowEntry then skip else failure
      match ← next? with
      | some .flowMappingEnd => skip; return []
      | some .key => do
        skip
        let key ← match ← next? with
          | some .value | some .flowEntry | some .flowMappingEnd => pure absent
          | _ => node false false fuel
        let value ← match ← next? with
          | some .value => do
            skip
            match ← next? with
            | some .flowEntry | some .flowMappingEnd => pure absent
            | _ => node false false fuel
          | _ => pure absent
        return (key, value) :: (← flowEntries false fuel)
      | _ => do
        let key ← node false false fuel
        return (key, absent) :: (← flowEntries false fuel)

end

/-- The tag handles that every document has. -/
def standardHandles : List (String × List UInt8) :=
  [("!", Lexer.bytesOf [Tag.mark]), ("!!", Lexer.bytesOf Tag.coreStart.toList)]

/-- Reads the directives in front of a document. -/
def directives : Nat → (version : Bool) → Reader Unit
  | 0, _ => failure
  | fuel + 1, version => do
    match ← next? with
    | some (.versionDirective major minor) => do
      if version || major ≠ 1 || (minor ≠ 1 && minor ≠ 2) then failure
      skip
      directives fuel true
    | some (.tagDirective handle replacement) => do
      if ((← get).handles.lookup handle).isSome then failure
      modify fun r => { r with handles := (handle, replacement) :: r.handles }
      skip
      directives fuel version
    | _ => pure ()

/-- Reads the document of a text; nothing when the text holds none. -/
def document : Reader (Option Outline) := do
  let fuel := 3 * (← get).tokens.length + 3
  let start ← next?
  match start with
  | none => return none
  | some (.versionDirective ..) | some (.tagDirective ..) | some .documentStart => do
    directives fuel false
    if (← next?) ≠ some .documentStart then failure
    skip
    modify fun r => { r with handles := r.handles ++ standardHandles }
    match ← next? with
    | none | some .documentStart | some .documentEnd | some (.versionDirective ..)
    | some (.tagDirective ..) => return some absent
    | _ => some <$> node true false fuel
  | _ => do
    modify fun r => { r with handles := standardHandles }
    some <$> node true false fuel

/-- The outline of the tokens of one document, with its numbered nodes, the last one read first; an
inner nothing when there is no node at all. -/
def ofTokens? (tokens : List Token) : Option (Option Outline × List (Nat × Outline)) := do
  let (o?, r) ← document.run ⟨tokens, [], [], []⟩
  if !(r.tokens.dropWhile (· = .documentEnd)).isEmpty then none
  else return (o?, r.numbered)

end Outline

end Workflow.Yaml
