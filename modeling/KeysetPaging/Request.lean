import KeysetPaging.Page

/-! # Page requests

A caller asks for a page by its token and its size. A total count may be sent along and has no
effect.
-/

namespace KeysetPaging

/-- What a caller asks for. -/
structure PageRequest where
  /-- The token of the page before, and none for the first page. -/
  page : Option String := none
  perPage : Option Nat := none
  totalEntries : Option Nat := none
  deriving DecidableEq, Repr

namespace PageRequest

/-- A request for the first page, of the given size. -/
def ofSize (perPage : Nat) : PageRequest :=
  { perPage := some perPage }

/-- Reads a request. Each part may be missing or null. -/
def ofDocument? (d : Document) : Option PageRequest := do
  match ← d.parts? ["page", "per_page", "total_entries"] with
  | [page, perPage, total] =>
      some {
        page := ← Option.partOr none (Document.orNull Document.text?) page
        perPage := ← Option.partOr none (Document.orNull Document.count?) perPage
        totalEntries := ← Option.partOr none (Document.orNull Document.count?) total }
  | _ => none

/-- A count or null. -/
def ofCount? : Option Nat → Json
  | some n => .int n
  | none => .null

/-- The written form of a request. -/
def toJson (request : PageRequest) : Json :=
  .ofFields [("page", .ofText? request.page), ("per_page", ofCount? request.perPage),
    ("total_entries", ofCount? request.totalEntries)]

end PageRequest

end KeysetPaging
