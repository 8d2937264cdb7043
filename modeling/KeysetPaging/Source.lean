import KeysetPaging.Journal
import KeysetPaging.Page

/-! # Sources

A source of items is asked to fill a page. It answers with the changes to make, in order, and may
give up after them. Its own state, if it has any, is part of the state of the run.
-/

namespace KeysetPaging

/-- What a source answers. -/
structure Fetched (α : Type) where
  edits : List (Edit α) := []
  failure : Option Error := none

/-- A source of items: how it fills a page. -/
structure Source (σ α : Type) where
  fetch : Page α → Run σ (Fetched α)

/-- What became of a page: as far as it was filled, and why not further. -/
structure Filled (α : Type) where
  page : Page α
  failure : Option Error := none

/-- How a collection answers another one that is built on it: a page of the given size after the
given place. -/
abbrev Supply (σ α : Type) :=
  (perPage : Nat) → (place : Option Bookmark) → Run σ (Except Error (Page α))

/-- The supply of a collection that fills pages. -/
def Supply.ofFill {σ α : Type} (fill : Page α → Run σ (Filled α)) : Supply σ α :=
  fun perPage place =>
    match Page.start? perPage place with
    | .error e => pure (.error e)
    | .ok page => do
        let filled ← fill page
        match filled.failure with
        | some e => return .error e
        | none => return .ok filled.page

end KeysetPaging
