import KeysetPaging.Bookmark.Basic
import KeysetPaging.Decimal.Natural
import KeysetPaging.Instant.Written
import KeysetPaging.Text.Quoted

/-! # Bookmarks for people

The display text of a bookmark is for messages and is not read back.
-/

namespace KeysetPaging.Bookmark

mutual

/-- The text that shows a bookmark to a person. -/
def display : Bookmark → String
  | .null => "null"
  | .bool true => "true"
  | .bool false => "false"
  | .int i => String.ofList (Decimal.ofInt i.toInt)
  | .text s => Text.quoted s
  | .time t => t.display
  | .tuple parts => "(" ++ ", ".intercalate (displayParts parts) ++ ")"
  | .concat source position => source ++ "@" ++ displayPosition position
  | .merge positions => "\x7b" ++ ", ".intercalate (displayPositions positions) ++ "\x7d"

/-- The texts of the parts of a tuple. -/
def displayParts : List Bookmark → List String
  | [] => []
  | part :: rest => display part :: displayParts rest

/-- The text of a place in a source. -/
def displayPosition : Option Bookmark → String
  | none => "start"
  | some position => display position

/-- The texts of the places of a merge. -/
def displayPositions : List (String × Option Bookmark) → List String
  | [] => []
  | (source, position) :: rest =>
      (source ++ ": " ++ displayPosition position) :: displayPositions rest

end

end KeysetPaging.Bookmark
