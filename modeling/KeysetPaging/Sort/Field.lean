import KeysetPaging.Bookmark.Basic
import KeysetPaging.Document
import KeysetPaging.Order

/-! # Sort fields

A sequence is sorted by fields of its records, the most significant first. A field says where its
value stands in a record, of what kind it is, whether it may be null and in which direction it
runs.
-/

namespace KeysetPaging

/-- The kind of the values of a sort field. -/
inductive FieldKind where
  | integer
  | text
  | boolean
  | timestamp
  /-- Any single value that is not null. -/
  | any
  deriving DecidableEq, Repr, Inhabited

namespace FieldKind

/-- The name of a kind. -/
def name : FieldKind → String
  | .integer => "integer"
  | .text => "text"
  | .boolean => "boolean"
  | .timestamp => "timestamp"
  | .any => "any"

/-- The name of a kind as a constructor of a shape. -/
def label : FieldKind → String
  | .integer => "Integer"
  | .text => "Text"
  | .boolean => "Boolean"
  | .timestamp => "Timestamp"
  | .any => "Any"

/-- The kind with the given name or other name. -/
def ofName? (name : String) : Option FieldKind :=
  if name = "integer" ∨ name = "int" then some .integer
  else if name = "text" ∨ name = "string" then some .text
  else if name = "boolean" ∨ name = "bool" then some .boolean
  else if name = "timestamp" ∨ name = "datetime" then some .timestamp
  else if name = "any" then some .any
  else none

/-- A bookmark that is not null is a value of this kind. -/
def accepts (kind : FieldKind) (b : Bookmark) : Bool :=
  match kind, b with
  | .integer, .int _ => true
  | .text, .text _ => true
  | .boolean, .bool _ => true
  | .timestamp, .time _ => true
  | .any, b => b.isScalar && !b.isNull
  | _, _ => false

end FieldKind

/-- A field that a sequence is sorted by. -/
structure SortField where
  /-- The path of the value in a record. -/
  name : String
  kind : FieldKind := .any
  nullable : Bool := false
  direction : Direction := .ascending
  deriving DecidableEq, Repr, Inhabited

namespace SortField

/-- A bookmark is a value of this field. -/
def accepts (field : SortField) (b : Bookmark) : Bool :=
  if b.isNull then field.nullable else field.kind.accepts b

/-- Reads the name of a choice: a text, or a record with that one name and no content. -/
def choice? {α : Type} (ofName? : String → Option α) : Document → Option α
  | .record [(.scalar (.text s) none, .scalar .null _)] => ofName? s
  | d => d.text?.bind ofName?

/-- Reads a sort field. Only its name is required. -/
def ofDocument? (d : Document) : Option SortField := do
  match ← d.parts? ["name", "kind", "nullable", "direction"] with
  | [name, kind, nullable, direction] =>
      let name ← name
      some {
        name := ← name.text?
        kind := ← Option.partOr .any (choice? FieldKind.ofName?) kind
        nullable := ← Option.partOr false Document.bool? nullable
        direction := ← Option.partOr .ascending (choice? Direction.ofName?) direction }
  | _ => none

/-- The written form of a sort field. -/
def toJson (field : SortField) : Json :=
  .ofFields [("name", .str field.name), ("kind", .str field.kind.name),
    ("nullable", .bool field.nullable), ("direction", .str field.direction.name)]

end SortField

end KeysetPaging
