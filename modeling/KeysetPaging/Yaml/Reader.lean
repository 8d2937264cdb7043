import KeysetPaging.Yaml.Core
import KeysetPaging.Yaml.Node

/-! # Reading YAML text

Reading gives a document. Words are taken for what they mean and remember how they were written. A
node that is repeated stands for what the name was given to before, and one that is repeated
inside of itself is unreadable.
-/

namespace KeysetPaging.Yaml

/-- The documents that names stand for, the latest first. -/
abbrev Names := List (String × Document)

/-- The names with one more, if there is one. -/
def named (anchor : Option String) (d : Document) (names : Names) : Names :=
  match anchor with
  | some name => (name, d) :: names
  | none => names

/-- A document that cannot be read. -/
def unreadable : Document :=
  .scalar .unreadable none

/-- The document of a text. -/
def textDocument (tag : Option String) (plain : Bool) (s : String) : Document :=
  let value := match tag with
    | some tag => taggedMeaning tag s
    | none => if plain then meaning s else .text s
  .scalar value (some s)

/-- The document of a list or a record with a tag. With a tag of its own it names no value. -/
def collectionDocument (tag : Option String) (d : Document) : Document :=
  if tag.any fun tag => tag.toList.head? = some '!' then unreadable else d

mutual

/-- The document of a node, and the names after it. -/
def toDocument : Node → Names → Option (Document × Names)
  | .alias name, names => (names.lookup name).map fun d => (d, names)
  | .text properties plain s, names =>
      let d := textDocument properties.tag plain s
      some (d, named properties.anchor d names)
  | .sequence properties items, names => do
      let (items, names) ← toDocuments items (named properties.anchor unreadable names)
      let d := collectionDocument properties.tag (.list items)
      some (d, named properties.anchor d names)
  | .mapping properties fields, names => do
      let (fields, names) ← toFields fields (named properties.anchor unreadable names)
      let d := collectionDocument properties.tag (.record fields)
      some (d, named properties.anchor d names)

/-- The documents of a list of nodes. -/
def toDocuments : List Node → Names → Option (List Document × Names)
  | [], names => some ([], names)
  | node :: rest, names => do
      let (d, names) ← toDocument node names
      let (ds, names) ← toDocuments rest names
      some (d :: ds, names)

/-- The fields of a list of pairs of nodes. -/
def toFields : List (Node × Node) → Names → Option (List (Document × Document) × Names)
  | [], names => some ([], names)
  | (key, value) :: rest, names => do
      let (key, names) ← toDocument key names
      let (value, names) ← toDocument value names
      let (fields, names) ← toFields rest names
      some ((key, value) :: fields, names)

end

/-- The deepest nesting of a text that is read. -/
def maxLevels : Nat := 128

/-- Reads a text that holds one document. -/
def readDocument (text : String) : Option Document := do
  let ts ← Token.ofText? text
  let node ← Node.ofTokens? ts
  let (d, _) ← toDocument node []
  some (d.within maxLevels)

end KeysetPaging.Yaml
