import KeysetPaging.Collection.Paginate

/-! # Walking through a collection

A walk follows the tokens from page to page. It ends where the sequence does, at the first page
that fails, or after a number of pages.
-/

namespace KeysetPaging

/-- The pages of a walk. -/
structure Walk (α : Type) where
  pages : List (Page α) := []
  failure : Option Error := none
  /-- There is no page after the last one. -/
  finished : Bool := false

/-- Walks through at most `most` pages from a token on. -/
def Collection.walk {σ α : Type} (c : Collection σ α) (perPage : Nat) :
    (most : Nat) → (token : Option String) → Run σ (Walk α)
  | 0, _ => return {}
  | most + 1, token => do
      match ← c.paginate { page := token, perPage := some perPage } with
      | .error e => return { failure := some e }
      | .ok page =>
          match page.nextToken with
          | none => return { pages := [page], finished := true }
          | some next =>
              let walk ← c.walk perPage most (some next)
              return { walk with pages := page :: walk.pages }

end KeysetPaging
