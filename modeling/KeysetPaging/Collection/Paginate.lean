import KeysetPaging.Collection.Fill
import KeysetPaging.Request

/-! # Asking for a page

A request names its page by a token. A token that names no bookmark, or a bookmark that is no
place in the collection, asks for the first page. Only a missing size is refused.
-/

namespace KeysetPaging

variable {σ α : Type}

/-- The bookmark that a token names, if it names one. -/
def readToken (token : String) : Run σ (Option Bookmark) :=
  match Bookmark.readToken token with
  | .ok b => pure (some b)
  | .error fault => do
      Run.note (.badToken fault token)
      return none

/-- The place that a token names in a collection, if it names one. -/
def Collection.placeOf (c : Collection σ α) (token : Option String) : Run σ (Option Bookmark) :=
  match token with
  | none => pure none
  | some token => do
      match ← readToken token with
      | none => return none
      | some b =>
          if c.accepts b then return some b
          else
            Run.note (.bookmarkRejected b)
            return none

/-- The page of a collection that is asked for. -/
def Collection.paginate (c : Collection σ α) (request : PageRequest) :
    Run σ (Except Error (Page α)) :=
  match request.perPage with
  | none | some 0 => pure (.error .invalidPerPage)
  | some perPage => do
      if let some total := request.totalEntries then
        Run.note (.totalIgnored total)
      let place ← c.placeOf request.page
      let page ← Supply.ofFill c.fill perPage place
      if let .ok page := page then
        Run.note (.paginated page.items.length page.hasMore)
      return page

end KeysetPaging
