import KeysetPaging.Bookmark.Basic
import KeysetPaging.Document
import KeysetPaging.Instant.Reading
import KeysetPaging.Instant.Written

/-! # The written form of a bookmark

A bookmark is written as an object of its shape, `type`, and its content, `value`. Reading is more
generous: the two may stand in either order or in a list, other names are passed over, and a
place of a merge may be a list too. A content that stands before its shape is held back until
the shape is known, so every part of it has to be readable.
-/

namespace KeysetPaging.Bookmark

/-- The object of a shape and its content. -/
def tagged (kind : String) (content : Json) : Json :=
  .obj [("type", .str kind), ("value", content)]

mutual

/-- The written form of a bookmark. -/
def toJson : Bookmark → Json
  | .null => .obj [("type", .str "null")]
  | .bool b => tagged "bool" (.bool b)
  | .int i => tagged "int" (.int i.toInt)
  | .text s => tagged "text" (.str s)
  | .time t => tagged "time" (.str t.toText)
  | .tuple parts => tagged "tuple" (.arr (partsToJson parts))
  | .concat source position =>
      tagged "concat" (.obj [("source", .str source), ("position", positionToJson position)])
  | .merge positions => tagged "merge" (.arr (positionsToJson positions))

/-- The written forms of the parts of a tuple. -/
def partsToJson : List Bookmark → List Json
  | [] => []
  | part :: rest => toJson part :: partsToJson rest

/-- The written form of a place in a source. -/
def positionToJson : Option Bookmark → Json
  | none => .null
  | some position => toJson position

/-- The written forms of the places of a merge. -/
def positionsToJson : List (String × Option Bookmark) → List Json
  | [] => []
  | (source, position) :: rest =>
      .obj [("source", .str source), ("position", positionToJson position)] ::
        positionsToJson rest

end

/-- The shape that a document names, `levels` levels in from the deepest: a text, or a record
with that one name and no content. -/
def shape? (levels : Nat) : Document → Option String
  | .scalar (.text s) _ => some s
  | .record [(.scalar (.text s) none, .scalar .null _)] => if levels = 0 then none else some s
  | _ => none

/-- The name `value` stands before the name `type`. -/
def contentFirst : List (String × Document) → Bool
  | [] => false
  | (name, _) :: rest =>
      if name = "value" then true else if name = "type" then false else contentFirst rest

/-- The shape and the content of a document. `levels` is how deep its parts may nest. -/
def split? (levels : Nat) : Document → Option (String × Option Document)
  | .list [kind, content] => do
      let kind ← shape? levels kind
      some (kind, some content)
  | .record fields => do
      let fields ← Document.named? fields
      match Document.valuesOf "type" fields, Document.valuesOf "value" fields with
      | [kind], [] => do
          let kind ← shape? levels kind
          some (kind, none)
      | [kind], [content] => do
          let kind ← shape? levels kind
          if contentFirst fields && (content.toJson? levels).isNone then none
          else some (kind, some content)
      | _, _ => none
  | _ => none

/-- A text of a document that no plain word stands for. -/
def string? : Document → Option String
  | .scalar (.text s) _ => some s
  | _ => none

/-- The label and the place of the record of a place. -/
def placeOfFields? {α : Type} (read : Document → Option α)
    (fields : List (Document × Document)) : Option (String × Option α) := do
  let fields ← Document.named? fields
  match Document.valuesOf "source" fields, Document.valuesOf "position" fields with
  | [source], [] => do
      let source ← string? source
      some (source, none)
  | [source], [position] => do
      let source ← string? source
      let position ← Document.orNull read position
      some (source, position)
  | _, _ => none

/-- The label and the place of a document of a merge. -/
def place? {α : Type} (read : Document → Option α) : Document → Option (String × Option α)
  | .record fields => placeOfFields? read fields
  | .list [source] => do
      let source ← string? source
      some (source, none)
  | .list [source, position] => do
      let source ← string? source
      let position ← Document.orNull read position
      some (source, position)
  | _ => none

/-- The bookmark with the given shape and content, when it has no parts. -/
def scalar? (kind : String) (content : Document) : Option Bookmark :=
  match kind with
  | "null" => if content.isNull then some .null else none
  | "bool" => content.bool?.map .bool
  | "int" => content.int64?.map .int
  | "text" => (string? content).map .text
  | "time" => ((string? content).bind Instant.readRelaxed).map .time
  | _ => none

/-- Reads a bookmark from a document that nests no deeper than `levels`. -/
def ofDocument? : (levels : Nat) → Document → Option Bookmark
  | 0, _ => none
  | levels + 1, d =>
      match split? levels d with
      | none => none
      | some (kind, none) => if kind = "null" then some .null else none
      | some (kind, some content) =>
          match levels, content with
          | inner + 1, .list items =>
              if kind = "tuple" then (items.mapM (ofDocument? inner)).map .tuple
              else if kind = "merge" then
                match inner with
                | 0 => if items.isEmpty then some (.merge []) else none
                | deepest + 1 => (items.mapM (place? (ofDocument? deepest))).map .merge
              else none
          | inner + 1, .record fields =>
              if kind = "concat" then
                (placeOfFields? (ofDocument? inner) fields).map fun (source, position) =>
                  .concat source position
              else none
          | _, content => scalar? kind content

/-- Reads a bookmark from a value. -/
def ofJson? (v : Json) : Option Bookmark :=
  ofDocument? Document.maxLevels (.ofJson v)

end KeysetPaging.Bookmark
