import KeysetPaging.Error

/-! # Values in a query

A value is bound to a query for each place that is left open in its text. A bookmark is bound as
the value of its kind, and an instant as its whole microseconds.
-/

namespace KeysetPaging.Sql

/-- A value that is bound to a query. -/
inductive Value where
  | null
  | boolean (b : Bool)
  | bigint (i : Int64)
  | text (s : String)
  /-- Microseconds since the start of 1970. -/
  | timestamp (micros : Int)
  deriving DecidableEq

/-- The value of a part of a bookmark. -/
def Value.ofBookmark (field : SortField) : Bookmark → Except Error Value
  | .null => .ok .null
  | .bool b => .ok (.boolean b)
  | .int i => .ok (.bigint i)
  | .text s => .ok (.text s)
  | .time t => .ok (.timestamp t.micros)
  | b => .error (.invalidSortValue field.name (.unbindable b.kindName))

end KeysetPaging.Sql
