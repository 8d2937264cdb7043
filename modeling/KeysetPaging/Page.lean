import KeysetPaging.Bookmark.Token
import KeysetPaging.Error

/-! # Pages

A page starts after a bookmark and has room for a number of items. Items and their bookmarks
stand side by side: a source adds items alone, and the bookmarks are derived once it is done. A
collection built from others adds both at once. The next page resumes at a place that was fixed
on purpose, else after the last item, else where this page started.
-/

namespace KeysetPaging

/-- A page being filled, or filled. -/
structure Page (α : Type) where
  /-- The number of items asked for. -/
  perPage : Nat
  items : List α := []
  bookmarks : List Bookmark := []
  /-- The sequence goes on after this page. -/
  hasMore : Bool := false
  /-- The page starts after this bookmark, and without one at the beginning. -/
  current : Option Bookmark := none
  /-- Where the next page resumes, when that is not after the last item. -/
  resumeAt : Option Bookmark := none
  perPage_pos : 0 < perPage

namespace Page

variable {α β : Type}

/-- An empty page of the given size after a place. A page of size zero cannot be asked for. -/
def start? (perPage : Nat) (current : Option Bookmark) : Except Error (Page α) :=
  if h : 0 < perPage then .ok { perPage, current, perPage_pos := h } else .error .invalidPerPage

/-- Adds an item without a bookmark. -/
def push (page : Page α) (item : α) : Page α :=
  { page with items := page.items ++ [item] }

/-- Adds several items without bookmarks. -/
def extend (page : Page α) (items : List α) : Page α :=
  { page with items := page.items ++ items }

/-- Puts other items in the place of all items, and drops the bookmarks. -/
def replace (page : Page α) (items : List α) : Page α :=
  { page with items, bookmarks := [] }

/-- Records that the sequence goes on after this page. -/
def markMore (page : Page α) : Page α :=
  { page with hasMore := true }

/-- Fixes the place at which the next page resumes. -/
def resume (page : Page α) (place : Option Bookmark) : Page α :=
  { page with resumeAt := place }

/-- Adds items that have a bookmark. -/
def append (page : Page α) (entries : List (α × Bookmark)) : Page α :=
  { page with
    items := page.items ++ entries.map (·.1)
    bookmarks := page.bookmarks ++ entries.map (·.2) }

/-- The number of items that are missing from a full page. -/
def remaining (page : Page α) : Nat :=
  page.perPage - page.items.length

/-- The page has as many items as were asked for. -/
def isFull (page : Page α) : Bool :=
  page.perPage ≤ page.items.length

/-- The place at which the next page resumes. There is none when the sequence ends here. -/
def nextBookmark (page : Page α) : Option Bookmark :=
  if page.hasMore then
    page.resumeAt.or (page.bookmarks.getLast?.or page.current)
  else none

/-- The token of the next page. -/
def nextToken (page : Page α) : Option String :=
  page.nextBookmark.map Bookmark.token

/-- The token of the place that this page starts after. -/
def currentToken (page : Page α) : Option String :=
  page.current.map Bookmark.token

/-- Changes every item and keeps all places. -/
def map (f : α → β) (page : Page α) : Page β :=
  { perPage := page.perPage
    items := page.items.map f
    bookmarks := page.bookmarks
    hasMore := page.hasMore
    current := page.current
    resumeAt := page.resumeAt
    perPage_pos := page.perPage_pos }

/-- The page has more items than were asked for. -/
def overflows (page : Page α) : Bool :=
  page.perPage < page.items.length

/-- Drops the items beyond the size of the page. When there are some, the sequence goes on. -/
def truncate (page : Page α) : Page α :=
  if page.overflows then
    { page with
      items := page.items.take page.perPage
      bookmarks := page.bookmarks.take page.perPage
      hasMore := true }
  else page

/-- The bookmarks of items up to the first that has none, and why that one has none. -/
def derive (bookmarkFor : α → Except Error Bookmark) : List α → List Bookmark × Option Error
  | [] => ([], none)
  | item :: rest =>
      match bookmarkFor item with
      | .error e => ([], some e)
      | .ok b =>
          let (bookmarks, failure) := derive bookmarkFor rest
          (b :: bookmarks, failure)

/-- Derives the bookmarks that are missing at the end of the page. -/
def assign (bookmarkFor : α → Except Error Bookmark) (page : Page α) : Page α × Option Error :=
  let kept := page.bookmarks.take page.items.length
  let (bookmarks, failure) := derive bookmarkFor (page.items.drop kept.length)
  ({ page with bookmarks := kept ++ bookmarks }, failure)

/-- The items with their bookmarks. -/
def entries (page : Page α) : List (α × Bookmark) :=
  page.items.zip page.bookmarks

end Page

/-- One change that a source makes to a page. -/
inductive Edit (α : Type) where
  | push (item : α)
  | extend (items : List α)
  | replace (items : List α)
  | markMore

/-- A page after one change. -/
def Page.edit {α : Type} (page : Page α) : Edit α → Page α
  | .push item => page.push item
  | .extend items => page.extend items
  | .replace items => page.replace items
  | .markMore => page.markMore

/-- A page after several changes. -/
def Page.edits {α : Type} (page : Page α) (edits : List (Edit α)) : Page α :=
  edits.foldl Page.edit page

end KeysetPaging
