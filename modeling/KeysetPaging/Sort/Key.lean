import KeysetPaging.Error
import KeysetPaging.Instant.Reading

/-! # Sort keys of records

A sort field reads its part of the key from a record: the value at its path, turned into a
bookmark of its kind.
-/

namespace KeysetPaging

/-- The instant that a value names: a text in one of the forms of a timestamp, or the whole
seconds since the start of 1970. -/
def Json.instant? (v : Json) : Option Instant :=
  match v with
  | .str s => Instant.ofTimestamp? s
  | v => v.int64?.bind fun seconds => Instant.ofSeconds? seconds.toInt

namespace FieldKind

/-- The bookmark of a value of no fixed kind. -/
def readAny (v : Json) : Except ValueFault Bookmark :=
  match v with
  | .null => .ok .null
  | .bool b => .ok (.bool b)
  | .int _ | .float _ =>
      match v.int64? with
      | some i => .ok (.int i)
      | none => .error (.unsupportedNumber v)
  | .str s => .ok (.text s)
  | .arr _ | .obj _ => .error (.unsupportedValue v)

/-- The bookmark of a value of a kind. Null is the null bookmark in every kind. -/
def read (kind : FieldKind) (v : Json) : Except ValueFault Bookmark :=
  let orExpected (b : Option Bookmark) : Except ValueFault Bookmark :=
    match b with
    | some b => .ok b
    | none => .error (.expected kind v)
  if v.isNull then .ok .null
  else match kind with
    | .integer => orExpected (v.int64?.map .int)
    | .text => orExpected (v.text?.map .text)
    | .boolean => orExpected (v.bool?.map .bool)
    | .timestamp => orExpected (v.instant?.map .time)
    | .any => readAny v

end FieldKind

namespace SortField

/-- The part of a key that a record has in this field. -/
def bookmarkFor (field : SortField) (record : Json) : Except Error Bookmark :=
  match record.atPath? field.name with
  | none => if field.nullable then .ok .null else .error (.missingSortField field.name)
  | some v =>
      match field.kind.read v with
      | .error fault => .error (.invalidSortValue field.name fault)
      | .ok b =>
          if b.isNull && !field.nullable then
            .error (.invalidSortValue field.name .nullRefused)
          else .ok b

end SortField

end KeysetPaging
