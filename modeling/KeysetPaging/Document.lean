import KeysetPaging.Json.Basic
import KeysetPaging.Decimal.Natural

/-! # Documents

A document is what the text of a file or a token says before anything is asked of it: the fields
of a record keep their order and may repeat, and what names a field is a document of its own. A
word remembers how it was written where the format lets it stand for a text, and a part that names
no value stays as `unreadable`. A reader that passes over such a part is content with it.
-/

namespace KeysetPaging

/-- A part of a document that has no parts of its own. -/
inductive Scalar where
  | null
  | bool (b : Bool)
  | int (i : Int)
  | float (x : Float)
  | text (s : String)
  | unreadable

/-- The content of a text before it is read as anything in particular. -/
inductive Document where
  /-- `written` is how a word was written, where the format lets it stand for a text. -/
  | scalar (value : Scalar) (written : Option String)
  | list (items : List Document)
  | record (fields : List (Document × Document))
  deriving Inhabited

/-- The value of a scalar, when it has one. -/
def Scalar.toJson? : Scalar → Option Json
  | .null => some .null
  | .bool b => some (.bool b)
  | .int i => some (.int i)
  | .float x => some (.float x)
  | .text s => some (.str s)
  | .unreadable => none

namespace Document

/-- A text. -/
def ofText (s : String) : Document :=
  .scalar (.text s) none

mutual

/-- The document of a value. -/
def ofJson : Json → Document
  | .null => .scalar .null none
  | .bool b => .scalar (.bool b) none
  | .int i => .scalar (.int i) none
  | .float x => .scalar (.float x) none
  | .str s => .scalar (.text s) none
  | .arr items => .list (ofItems items)
  | .obj fields => .record (ofFields fields)

/-- The documents of a list of values. -/
def ofItems : List Json → List Document
  | [] => []
  | v :: rest => ofJson v :: ofItems rest

/-- The documents of a list of fields. -/
def ofFields : List (String × Json) → List (Document × Document)
  | [] => []
  | (k, v) :: rest => (ofText k, ofJson v) :: ofFields rest

end

/-- The text of a document: a text, or a word as it was written. -/
def text? : Document → Option String
  | .scalar (.text s) _ => some s
  | .scalar _ (some s) => some s
  | _ => none

mutual

/-- The value of a document, when every part of it can be read and it nests no deeper than
`levels`. -/
def toJson? (levels : Nat) : Document → Option Json
  | .scalar value _ => value.toJson?
  | .list items =>
      match levels with
      | 0 => none
      | levels + 1 => (toItems? levels items).map .arr
  | .record fields =>
      match levels with
      | 0 => none
      | levels + 1 => (toFields? levels fields).map Json.ofFields

/-- The values of a list of documents. -/
def toItems? (levels : Nat) : List Document → Option (List Json)
  | [] => some []
  | d :: rest => do
      let v ← d.toJson? levels
      let vs ← toItems? levels rest
      some (v :: vs)

/-- The values of a list of fields. What names a field has to be a text. -/
def toFields? (levels : Nat) : List (Document × Document) → Option (List (String × Json))
  | [] => some []
  | (k, d) :: rest => do
      let k ← k.text?
      let v ← d.toJson? levels
      let vs ← toFields? levels rest
      some ((k, v) :: vs)

end

mutual

/-- Every part of a document can be read. -/
def isReadable : Document → Bool
  | .scalar .unreadable _ => false
  | .scalar _ _ => true
  | .list items => readableItems items
  | .record fields => readableFields fields

/-- Every part of the items can be read. -/
def readableItems : List Document → Bool
  | [] => true
  | d :: rest => d.isReadable && readableItems rest

/-- Every part of the fields can be read. -/
def readableFields : List (Document × Document) → Bool
  | [] => true
  | (k, d) :: rest => k.isReadable && d.isReadable && readableFields rest

end

/-- The deepest nesting of a text that is read. -/
def maxLevels : Nat := 127

mutual

/-- The document with what nests deeper than `levels` made unreadable. -/
def within (levels : Nat) : Document → Document
  | .scalar value written => .scalar value written
  | .list items =>
      match levels with
      | 0 => .scalar .unreadable none
      | levels + 1 => .list (itemsWithin levels items)
  | .record fields =>
      match levels with
      | 0 => .scalar .unreadable none
      | levels + 1 => .record (fieldsWithin levels fields)

/-- The items with what nests deeper than `levels` made unreadable. -/
def itemsWithin (levels : Nat) : List Document → List Document
  | [] => []
  | d :: rest => d.within levels :: itemsWithin levels rest

/-- The fields with what nests deeper than `levels` made unreadable. -/
def fieldsWithin (levels : Nat) : List (Document × Document) → List (Document × Document)
  | [] => []
  | (k, d) :: rest => (k.within levels, d.within levels) :: fieldsWithin levels rest

end

/-- The document is null. -/
def isNull : Document → Bool
  | .scalar .null _ => true
  | _ => false

/-- The truth value of a document. -/
def bool? : Document → Option Bool
  | .scalar (.bool b) _ => some b
  | _ => none

/-- The signed number of 64 bits of a document. -/
def int64? : Document → Option Int64
  | .scalar (.int i) _ => (Json.int i).int64?
  | _ => none

/-- The count of a document. -/
def count? : Document → Option Nat
  | .scalar (.int i) _ =>
      if 0 ≤ i ∧ i ≤ (Decimal.maxCount : Int) then some i.toNat else none
  | _ => none

/-- The items of a list. A null of no letters is the empty list. -/
def items? : Document → Option (List Document)
  | .list items => some items
  | .scalar .null (some "") => some []
  | _ => none

/-- The fields with their names. What names a field has to be a text. -/
def named? (fields : List (Document × Document)) : Option (List (String × Document)) :=
  fields.mapM fun field => field.1.text?.map fun name => (name, field.2)

/-- The values that a list of fields gives to one name, in order. -/
def valuesOf (name : String) (fields : List (String × Document)) : List Document :=
  (fields.filter fun field => field.1 = name).map (·.2)

/-- A document can stand in front of a part of a record: a text, or a count that is no word. -/
def isName : Document → Bool
  | .scalar (.int i) none => 0 ≤ i
  | d => d.text?.isSome

/-- A document names the part with the given name and place: by its name, or as a number by its
place. -/
def names (name : String) (place : Nat) : Document → Bool
  | .scalar (.int i) none => i = place
  | d => d.text? = some name

/-- A part that may be null. -/
def orNull {α : Type} (read : Document → Option α) (d : Document) : Option (Option α) :=
  if d.isNull then some none else (read d).map some

/-- The parts of a record that has the given names, in their order. A name may be missing and must
not repeat, and other names are passed over. A list is read as the parts in order, with none
left over. A null of no letters is a record without fields. -/
def parts? (parts : List String) : Document → Option (List (Option Document))
  | .record fields =>
      if fields.all fun field => field.1.isName then
        parts.zipIdx.mapM fun part =>
          match fields.filter fun field => field.1.names part.1 part.2 with
          | [] => some none
          | [(_, d)] => some (some d)
          | _ => none
      else none
  | .list items =>
      if items.length ≤ parts.length then
        some (items.map some ++ List.replicate (parts.length - items.length) none)
      else none
  | .scalar .null (some "") => some (parts.map fun _ => none)
  | _ => none

end Document

/-- Reads a part that may be missing, in which case it has the given value. -/
def Option.partOr {α : Type} (fallback : α) (read : Document → Option α) :
    Option Document → Option α
  | none => some fallback
  | some d => read d

end KeysetPaging
