import KeysetPaging.Bookmark.Order
import KeysetPaging.Sort.Key

/-! # Bookmarkers

A bookmarker derives the bookmark of an item, says which bookmarks could be its own, and orders
bookmarks as the sequence runs.
-/

namespace KeysetPaging

/-- How the items of a sequence are marked and ordered. -/
structure Bookmarker (α : Type) where
  /-- The bookmark of an item. -/
  bookmarkFor : α → Except Error Bookmark
  /-- A bookmark has the shape of those that are derived. -/
  accepts : Bookmark → Bool
  /-- The order of two bookmarks in the sequence. -/
  compare : Bookmark → Bookmark → Ordering

namespace Bookmarker

/-- The bookmark is the value of one field. -/
def simple (field : SortField) : Bookmarker Json where
  bookmarkFor := field.bookmarkFor
  accepts := field.accepts
  compare a b := field.direction.apply (Bookmark.compare a b)

/-- The bookmark is a whole number, named by its field. -/
def identifier (name : String) : Bookmarker Json :=
  simple { name, kind := .integer }

/-- Every part of a tuple is a value of its field, and there are as many parts as fields. -/
def acceptsParts : List SortField → List Bookmark → Bool
  | [], [] => true
  | field :: fields, part :: parts => field.accepts part && acceptsParts fields parts
  | _, _ => false

/-- The order of two tuples, field by field in the direction of each. Parts without a field do
not count, and of two tuples that agree the one with fewer parts comes first. -/
def compareFields (fields : List SortField) (as bs : List Bookmark) : Ordering :=
  match fields, as, bs with
  | field :: fields, a :: as', b :: bs' =>
      match field.direction.apply (Bookmark.compare a b) with
      | .eq => compareFields fields as' bs'
      | order => order
  | _, as, bs => compareInt as.length bs.length

/-- The bookmark is a tuple of the values of several fields. -/
def composite (fields : List SortField) : Bookmarker Json where
  bookmarkFor record := (fields.mapM fun f => SortField.bookmarkFor f record).map .tuple
  accepts b :=
    match b with
    | .tuple parts => acceptsParts fields parts
    | _ => false
  compare a b :=
    match a, b with
    | .tuple as, .tuple bs => compareFields fields as bs
    | a, b => Bookmark.compare a b

/-- The bookmarker of a list of sort fields: the value itself for a single field, and else the
tuple of the values. -/
def ofFields (fields : List SortField) : Bookmarker Json :=
  match fields with
  | [field] => simple field
  | fields => composite fields

/-- The check of a key of unknown shape: a single value or a tuple. -/
def acceptsKey (b : Bookmark) : Bool :=
  b.isScalar || b.parts?.isSome

/-- The bookmark is computed from the item, in the natural order or against it. -/
def key {α : Type} (key : α → Bookmark) (accepts : Bookmark → Bool) (direction : Direction) :
    Bookmarker α where
  bookmarkFor item := .ok (key item)
  accepts
  compare a b := direction.apply (Bookmark.compare a b)

end Bookmarker

end KeysetPaging
