import KeysetPaging.Bookmark.Basic

/-! # The natural order of bookmarks

Bookmarks of different shapes are ordered by shape, null before all others. Within a shape the
values decide, and lists are compared part by part from the front. The start of a source comes
before every other place in it.
-/

namespace KeysetPaging.Bookmark

/-- The rank of the shape of a bookmark. -/
def rank : Bookmark → Nat
  | .null => 0
  | .bool _ => 1
  | .int _ => 2
  | .text _ => 3
  | .time _ => 4
  | .tuple _ => 5
  | .concat _ _ => 6
  | .merge _ => 7

mutual

/-- The natural order of two bookmarks. -/
def compare : Bookmark → Bookmark → Ordering
  | .null, .null => .eq
  | .bool a, .bool b => compareInt a.toNat b.toNat
  | .int a, .int b => compareInt a.toInt b.toInt
  | .text a, .text b => compareText a b
  | .time a, .time b => Instant.compare a b
  | .tuple as, .tuple bs => compareParts as bs
  | .concat s p, .concat t q => (compareText s t).then (comparePosition p q)
  | .merge ps, .merge qs => comparePositions ps qs
  | a, b => compareInt a.rank b.rank

/-- The order of two lists of parts. -/
def compareParts : List Bookmark → List Bookmark → Ordering
  | [], [] => .eq
  | [], _ :: _ => .lt
  | _ :: _, [] => .gt
  | a :: as, b :: bs => (compare a b).then (compareParts as bs)

/-- The order of two places in one source. -/
def comparePosition : Option Bookmark → Option Bookmark → Ordering
  | none, none => .eq
  | none, some _ => .lt
  | some _, none => .gt
  | some a, some b => compare a b

/-- The order of two lists of labelled places. -/
def comparePositions : List (String × Option Bookmark) → List (String × Option Bookmark) → Ordering
  | [], [] => .eq
  | [], _ :: _ => .lt
  | _ :: _, [] => .gt
  | (s, p) :: ps, (t, q) :: qs =>
      (compareText s t).then ((comparePosition p q).then (comparePositions ps qs))

end

end KeysetPaging.Bookmark
