import KeysetPaging.Yaml.Token

/-! # Nodes

The nodes of a document: texts, sequences and mappings, each with the name and the tag that it is
given. A node may be left out where its place is clear; it is an empty word then. Where a node is
repeated, only the name is kept.
-/

namespace KeysetPaging.Yaml

/-- The name and the tag that a node is given. -/
structure Properties where
  anchor : Option String := none
  tag : Option String := none

/-- A node of a document. -/
inductive Node where
  /-- The node that was given this name last. -/
  | alias (name : String)
  | text (properties : Properties) (plain : Bool) (text : String)
  | sequence (properties : Properties) (items : List Node)
  | mapping (properties : Properties) (fields : List (Node × Node))

namespace Node

/-- A node that is left out. -/
def empty : Node :=
  .text {} true ""

/-- What the handles of tags stand for. -/
abbrev Handles := List (String × String)

/-- The handles that need no directive. -/
def defaultHandles : Handles :=
  [("!", "!"), ("!!", "tag:yaml.org,2002:")]

/-- The tag with the given handle and the text after it. -/
def tag? (handles : Handles) (handle suffix : String) : Option String :=
  if handle.isEmpty then some suffix
  else (handles.lookup handle).map fun start => start ++ suffix

/-- Reads the properties in front of a node: a name and a tag, in either order. -/
def readProperties (handles : Handles) : List Token → Option (Properties × List Token)
  | .anchor name :: .tag handle suffix :: rest =>
      (tag? handles handle suffix).map fun tag => ({ anchor := some name, tag := some tag }, rest)
  | .tag handle suffix :: .anchor name :: rest =>
      (tag? handles handle suffix).map fun tag => ({ anchor := some name, tag := some tag }, rest)
  | .anchor name :: rest => some ({ anchor := some name }, rest)
  | .tag handle suffix :: rest =>
      (tag? handles handle suffix).map fun tag => ({ tag := some tag }, rest)
  | rest => some ({}, rest)

/-- A text with its properties. The tag that is an exclamation mark alone means nothing. -/
def ofText (properties : Properties) (plain : Bool) (s : String) : Node :=
  if properties.tag = some "!" then .text { properties with tag := none } plain s
  else .text properties plain s

/-- The token ends an entry of a block sequence. -/
def endsEntry : Token → Bool
  | .blockEntry | .blockEnd => true
  | _ => false

/-- The token ends an entry of a block sequence that is not indented. -/
def endsLevelEntry : Token → Bool
  | .blockEntry | .key | .value | .blockEnd => true
  | _ => false

/-- The token ends a key or a value of a block mapping. -/
def endsField : Token → Bool
  | .key | .value | .blockEnd => true
  | _ => false

/-- The token ends the key of the one field that is an item of a flow sequence. -/
def endsFlowItemKey : Token → Bool
  | .value | .flowEntry | .flowSequenceEnd => true
  | _ => false

/-- The token ends a key of a flow mapping. -/
def endsFlowKey : Token → Bool
  | .value | .flowEntry | .flowMappingEnd => true
  | _ => false

/-- The token ends a value of a flow sequence. -/
def endsFlowItem : Token → Bool
  | .flowEntry | .flowSequenceEnd => true
  | _ => false

/-- The token ends a value of a flow mapping. -/
def endsFlowValue : Token → Bool
  | .flowEntry | .flowMappingEnd => true
  | _ => false

/-- Reads a node that may be left out: it is when the next token ends its place. -/
def orEmpty (read : List Token → Option (Node × List Token)) (ends : Token → Bool)
    (ts : List Token) : Option (Node × List Token) :=
  match ts with
  | [] => read []
  | t :: _ => if ends t then some (empty, ts) else read ts

/-- Reads the comma between two items of a flow collection. There is none in front of the first
item. -/
def comma? (first : Bool) : List Token → Option (List Token)
  | .flowEntry :: rest => if first then some (.flowEntry :: rest) else some rest
  | rest => if first then some rest else none

mutual

/-- Reads a node. `level` allows a sequence whose entries are not indented. -/
def read (handles : Handles) :
    (fuel : Nat) → (block level : Bool) → List Token → Option (Node × List Token)
  | 0, _, _, _ => none
  | _ + 1, _, _, .alias name :: rest => some (.alias name, rest)
  | fuel + 1, block, level, ts =>
      match readProperties handles ts with
      | none => none
      | some (properties, ts) =>
          let bare := properties.anchor.isNone && properties.tag.isNone
          let left := if bare then none else some (ofText properties true "", ts)
          match ts with
          | .blockEntry :: _ =>
              if level then
                (readLevelItems handles fuel ts).map fun (items, rest) =>
                  (.sequence properties items, rest)
              else left
          | .text plain s :: rest => some (ofText properties plain s, rest)
          | .flowSequenceStart :: rest =>
              (readFlowItems handles fuel true rest).map fun (items, rest) =>
                (.sequence properties items, rest)
          | .flowMappingStart :: rest =>
              (readFlowFields handles fuel true rest).map fun (fields, rest) =>
                (.mapping properties fields, rest)
          | .sequenceStart :: rest =>
              if block then
                (readItems handles fuel rest).map fun (items, rest) =>
                  (.sequence properties items, rest)
              else left
          | .mappingStart :: rest =>
              if block then
                (readFields handles fuel rest).map fun (fields, rest) =>
                  (.mapping properties fields, rest)
              else left
          | _ => left

/-- Reads the entries of a block sequence up to the end of the block. -/
def readItems (handles : Handles) :
    (fuel : Nat) → List Token → Option (List Node × List Token)
  | 0, _ => none
  | fuel + 1, .blockEntry :: rest =>
      match orEmpty (read handles fuel true false) endsEntry rest with
      | none => none
      | some (item, rest) =>
          (readItems handles fuel rest).map fun (items, rest) => (item :: items, rest)
  | _ + 1, .blockEnd :: rest => some ([], rest)
  | _ + 1, _ => none

/-- Reads the entries of a block sequence that is not indented. -/
def readLevelItems (handles : Handles) :
    (fuel : Nat) → List Token → Option (List Node × List Token)
  | 0, _ => none
  | fuel + 1, .blockEntry :: rest =>
      match orEmpty (read handles fuel true false) endsLevelEntry rest with
      | none => none
      | some (item, rest) =>
          (readLevelItems handles fuel rest).map fun (items, rest) => (item :: items, rest)
  | _ + 1, rest => some ([], rest)

/-- Reads the fields of a block mapping up to the end of the block. A key or a value may be
missing. -/
def readFields (handles : Handles) :
    (fuel : Nat) → List Token → Option (List (Node × Node) × List Token)
  | 0, _ => none
  | _ + 1, .blockEnd :: rest => some ([], rest)
  | fuel + 1, ts =>
      let key? := match ts with
        | .key :: rest => orEmpty (read handles fuel true true) endsField rest
        | .value :: _ => some (empty, ts)
        | _ => none
      match key? with
      | none => none
      | some (key, rest) =>
          let value? := match rest with
            | .value :: rest => orEmpty (read handles fuel true true) endsField rest
            | rest => some (empty, rest)
          match value? with
          | none => none
          | some (value, rest) =>
              (readFields handles fuel rest).map fun (fields, rest) =>
                ((key, value) :: fields, rest)

/-- Reads the items of a flow sequence up to its bracket. An item that starts with a key is a
mapping with one field. -/
def readFlowItems (handles : Handles) :
    (fuel : Nat) → (first : Bool) → List Token → Option (List Node × List Token)
  | 0, _, _ => none
  | _ + 1, _, .flowSequenceEnd :: rest => some ([], rest)
  | fuel + 1, first, ts =>
      match comma? first ts with
      | none => none
      | some (.flowSequenceEnd :: rest) => some ([], rest)
      | some (.key :: rest) =>
          -- a key that is left out takes the token behind it along
          let key? := match rest with
            | t :: after =>
                if endsFlowItemKey t then some (empty, after)
                else read handles fuel false false rest
            | [] => none
          match key? with
          | none => none
          | some (key, rest) =>
              let value? := match rest with
                | .value :: rest => orEmpty (read handles fuel false false) endsFlowItem rest
                | rest => some (empty, rest)
              match value? with
              | none => none
              | some (value, rest) =>
                  (readFlowItems handles fuel false rest).map fun (items, rest) =>
                    (.mapping {} [(key, value)] :: items, rest)
      | some rest =>
          match read handles fuel false false rest with
          | none => none
          | some (item, rest) =>
              (readFlowItems handles fuel false rest).map fun (items, rest) =>
                (item :: items, rest)

/-- Reads the fields of a flow mapping up to its brace. An item that is no key is the key of an
empty value. -/
def readFlowFields (handles : Handles) :
    (fuel : Nat) → (first : Bool) → List Token → Option (List (Node × Node) × List Token)
  | 0, _, _ => none
  | _ + 1, _, .flowMappingEnd :: rest => some ([], rest)
  | fuel + 1, first, ts =>
      match comma? first ts with
      | none => none
      | some (.flowMappingEnd :: rest) => some ([], rest)
      | some (.key :: rest) =>
          match orEmpty (read handles fuel false false) endsFlowKey rest with
          | none => none
          | some (key, rest) =>
              let value? := match rest with
                | .value :: rest => orEmpty (read handles fuel false false) endsFlowValue rest
                | rest => some (empty, rest)
              match value? with
              | none => none
              | some (value, rest) =>
                  (readFlowFields handles fuel false rest).map fun (fields, rest) =>
                    ((key, value) :: fields, rest)
      | some rest =>
          match read handles fuel false false rest with
          | none => none
          | some (key, rest) =>
              (readFlowFields handles fuel false rest).map fun (fields, rest) =>
                ((key, empty) :: fields, rest)

end

/-- Reads the directives in front of a document: the handles that they define, and what follows.
There is one version at most, and each handle is defined once. -/
def readDirectives (version : Bool) (handles : Handles) :
    List Token → Option (Handles × List Token)
  | .directive (.version major minor) :: rest =>
      if version || major ≠ 1 || !(minor = 1 || minor = 2) then none
      else readDirectives true handles rest
  | .directive (.handle name start) :: rest =>
      if (handles.lookup name).isSome then none
      else readDirectives version (handles ++ [(name, start)]) rest
  | rest => some (handles, rest)

/-- The token ends a document. -/
def endsDocument : Token → Bool
  | .directive _ | .documentStart | .documentEnd => true
  | _ => false

/-- The node of the one document that tokens hold. -/
def ofTokens? (ts : List Token) : Option Node := do
  let fuel := 4 * ts.length + 4
  let marked := match ts with
    | .directive _ :: _ | .documentStart :: _ => true
    | _ => false
  let (node, rest) ←
    if marked then do
      let (handles, rest) ← readDirectives false [] ts
      match rest with
      | .documentStart :: [] => some (empty, [])
      | .documentStart :: rest =>
          orEmpty (read (handles ++ defaultHandles) fuel true false) endsDocument rest
      | _ => none
    else read defaultHandles fuel true false ts
  let rest := rest.dropWhile fun t => match t with
    | .documentEnd => true
    | _ => false
  if rest.isEmpty then some node else none

end Node

end KeysetPaging.Yaml
