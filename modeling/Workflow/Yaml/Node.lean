import Workflow.Yaml.Outline

/-!
# Nodes of a YAML document

`Node.ofText?` builds the tree of a text that holds one document. Aliases are replaced by the nodes
that their numbers stand for, wherever in the text those are; a text whose nodes nest too deeply, or
whose aliases expand too often, is refused, as is one with an alias inside the node that it stands
for.
-/

namespace Workflow.Yaml

/-- A node of a document. -/
inductive Node where
  /-- A scalar with its tag, and whether it is written without quotes or marks. -/
  | scalar (tag : Option Tag) (plain : Bool) (text : String)
  | seq (tag : Option Tag) (items : List Node)
  | map (tag : Option Tag) (entries : List (Node × Node))
  /-- A node that an alias stands for. -/
  | alias (target : Node)
  deriving Repr, Inhabited

namespace Outline

mutual

/-- The number of events of an outline: one for a scalar or an alias, two for a container. -/
def size : Outline → Nat
  | .scalar .. | .alias _ => 1
  | .seq _ items => 2 + sizeItems items
  | .map _ entries => 2 + sizeEntries entries

/-- The number of events of items. -/
def sizeItems : List Outline → Nat
  | [] => 0
  | o :: rest => o.size + sizeItems rest

/-- The number of events of entries. -/
def sizeEntries : List (Outline × Outline) → Nat
  | [] => 0
  | (key, value) :: rest => key.size + value.size + sizeEntries rest

end

end Outline

namespace Node

/-- A node with the number of containers nested in it and of aliases that expand in it. -/
structure Measured where
  node : Node
  height : Nat
  aliases : Nat

/-- The empty plain scalar. -/
def empty : Node := .scalar none true ""

/-- A list, measured. -/
def ofItems (tag : Option Tag) (items : List Measured) : Measured :=
  { node := .seq tag (items.map (·.node))
    height := 1 + items.foldl (fun h m => max h m.height) 0
    aliases := items.foldl (fun n m => n + m.aliases) 0 }

/-- A record, measured. -/
def ofEntries (tag : Option Tag) (entries : List (Measured × Measured)) : Measured :=
  { node := .map tag (entries.map fun e => (e.1.node, e.2.node))
    height := 1 + entries.foldl (fun h e => max h (max e.1.height e.2.height)) 0
    aliases := entries.foldl (fun n e => n + e.1.aliases + e.2.aliases) 0 }

/-- The nodes that numbers stand for, as far as they are known. -/
abbrev Known := List (Nat × Measured)

mutual

/-- The node of an outline; nothing when an alias in it stands for a node that is not known. -/
def ofOutline? (known : Known) : Outline → Option Measured
  | .scalar tag plain text => some ⟨.scalar tag plain text, 0, 0⟩
  | .seq tag items => (itemsOf? known items).map (ofItems tag)
  | .map tag entries => (entriesOf? known entries).map (ofEntries tag)
  | .alias number => (known.lookup number).map fun m => ⟨.alias m.node, m.height, m.aliases + 1⟩

/-- The nodes of items. -/
def itemsOf? (known : Known) : List Outline → Option (List Measured)
  | [] => some []
  | o :: rest => do
    let m ← ofOutline? known o
    return m :: (← itemsOf? known rest)

/-- The nodes of entries. -/
def entriesOf? (known : Known) : List (Outline × Outline) → Option (List (Measured × Measured))
  | [] => some []
  | (key, value) :: rest => do
    let key ← ofOutline? known key
    let value ← ofOutline? known value
    return (key, value) :: (← entriesOf? known rest)

end

/-- The known nodes with those that follow from them at one passage over the numbered outlines. -/
def extend (known : Known) (numbered : List (Nat × Outline)) : Known :=
  numbered.foldr (fun (n, o) known =>
    if (known.lookup n).isSome then known
    else match ofOutline? known o with
      | some m => (n, m) :: known
      | none => known) known

/-- Everything that can be known of the numbered outlines. Each passage adds at least one node, or
no further one adds any. -/
def extendAll (numbered : List (Nat × Outline)) : Nat → Known → Known
  | 0, known => known
  | fuel + 1, known =>
    let more := extend known numbered
    if more.length = known.length then known else extendAll numbered fuel more

/-- How many containers may be nested in a document. -/
def heightLimit : Nat := 128

/-- How many aliases may expand in a document, as a multiple of its size. -/
def aliasFactor : Nat := 100

/-- The tree of the tokens of one document. -/
def ofTokens? (tokens : List Token) : Option (Option Node) := do
  match ← Outline.ofTokens? tokens with
  | (none, _) => return none
  | (some o, numbered) =>
    let m ← ofOutline? (extendAll numbered numbered.length []) o
    if heightLimit < m.height ∨ aliasFactor * o.size < m.aliases then none else return some m.node

/-- The tree of a text; an inner nothing when the text holds no node at all. -/
def ofText? (text : String) : Option (Option Node) := (Token.ofText? text).bind ofTokens?

end Node

end Workflow.Yaml
