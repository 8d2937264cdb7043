import KeysetPaging.Instant.Basic

/-! # Bookmarks

A bookmark is a place in an ordered sequence: the sort key of the last item before it. A key of
several fields is a tuple. In a concatenation the place is a place in one of its sources, and in
a merge it is one place for every source. A missing place is the start of a source.
-/

namespace KeysetPaging

/-- A place in an ordered sequence. -/
inductive Bookmark where
  | null
  | bool (b : Bool)
  | int (i : Int64)
  | text (s : String)
  | time (t : Instant)
  /-- One part for every sort field. -/
  | tuple (parts : List Bookmark)
  /-- A place in the source with the given label. -/
  | concat (source : String) (position : Option Bookmark)
  /-- A place in every source, by its label. -/
  | merge (positions : List (String × Option Bookmark))
  deriving Inhabited

namespace Bookmark

/-- The name of the shape of a bookmark. -/
def kindName : Bookmark → String
  | .null => "null"
  | .bool _ => "bool"
  | .int _ => "int"
  | .text _ => "text"
  | .time _ => "time"
  | .tuple _ => "tuple"
  | .concat _ _ => "concat"
  | .merge _ => "merge"

/-- The bookmark is null. -/
def isNull : Bookmark → Bool
  | .null => true
  | _ => false

/-- The bookmark is a single value, which may be null. -/
def isScalar : Bookmark → Bool
  | .null | .bool _ | .int _ | .text _ | .time _ => true
  | .tuple _ | .concat _ _ | .merge _ => false

/-- The number of a bookmark, when it is one. -/
def int? : Bookmark → Option Int64
  | .int i => some i
  | _ => none

/-- The text of a bookmark, when it is one. -/
def text? : Bookmark → Option String
  | .text s => some s
  | _ => none

/-- The parts of a bookmark, when it is a tuple. -/
def parts? : Bookmark → Option (List Bookmark)
  | .tuple parts => some parts
  | _ => none

end Bookmark

end KeysetPaging
