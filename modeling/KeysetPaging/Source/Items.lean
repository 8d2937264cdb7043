import KeysetPaging.Bookmarker
import KeysetPaging.Source

/-! # Lists of items

A list of items is a source that is sorted once, when it is made. Items that are level keep the
order in which they were given.
-/

namespace KeysetPaging

/-- Items with their bookmarks, in the order of a bookmarker. -/
structure ItemList (α : Type) where
  bookmarker : Bookmarker α
  entries : List (α × Bookmark)

namespace ItemList

variable {α σ : Type}

/-- The items with their bookmarks, in the order given. -/
def mark (bookmarker : Bookmarker α) (items : List α) : Except Error (List (α × Bookmark)) :=
  items.mapM fun item => (bookmarker.bookmarkFor item).map fun b => (item, b)

/-- Sorts entries by the order of a bookmarker. Entries that are level stay in their order. -/
def sort (bookmarker : Bookmarker α) (entries : List (α × Bookmark)) : List (α × Bookmark) :=
  entries.mergeSort fun a b => bookmarker.compare a.2 b.2 != .gt

/-- The sorted list of the items, unless one of them has no bookmark. -/
def ofItems? (bookmarker : Bookmarker α) (items : List α) : Except Error (ItemList α) :=
  (mark bookmarker items).map fun entries => ⟨bookmarker, sort bookmarker entries⟩

/-- The entries after a place. The entries before it come first in the list. -/
def after (list : ItemList α) (place : Option Bookmark) : List (α × Bookmark) :=
  match place with
  | none => list.entries
  | some place => list.entries.dropWhile fun e => list.bookmarker.compare e.2 place != .gt

/-- The changes that fill a page from the list. -/
def fetched (list : ItemList α) (page : Page α) : Fetched α :=
  let rest := list.after page.current
  let taken := rest.take page.perPage
  { edits := .extend (taken.map (·.1)) ::
      (if page.perPage < rest.length then [.markMore] else []) }

/-- The list as a source. -/
def source (list : ItemList α) : Source σ α where
  fetch page := pure (list.fetched page)

end ItemList

end KeysetPaging
