import KeysetPaging.Collection.Basic

/-! # Filling a page

How each kind of collection fills a page. A collection that is built from others asks them for
pages of their own and passes on their items with their bookmarks, so a failure below leaves the
page as it was before the failing question.
-/

namespace KeysetPaging

variable {σ α β : Type}

/-- Fills a page from a source: the changes it asks for, without an overflow, and the bookmarks of
the items that have none. -/
def Source.fill (bookmarker : Bookmarker α) (source : Source σ α) (page : Page α) :
    Run σ (Filled α) := do
  let fetched ← source.fetch page
  let page := page.edits fetched.edits
  match fetched.failure with
  | some e => return { page, failure := some e }
  | none =>
      if page.overflows then
        Run.note (.overflowDropped page.perPage)
      let (page, failure) := page.truncate.assign bookmarker.bookmarkFor
      return { page, failure }

/-- Fills a page with the images of the items of an inner page. -/
def Transform.fill (f : α → β) (supply : Supply σ α) (page : Page β) : Run σ (Filled β) := do
  match ← supply page.perPage page.current with
  | .error e => return { page, failure := some e }
  | .ok sub =>
      let page := page.append (sub.entries.map fun entry => (f entry.1, entry.2))
      return { page := if sub.hasMore then page.markMore.resume sub.nextBookmark else page }

/-- The place of a row's bookmark in the source of the given label. -/
def Concat.place (label : String) (b : Bookmark) : Bookmark :=
  .concat label (some b)

mutual

/-- Fills a page of a collection. -/
def Collection.fill {σ : Type} : {α : Type} → Collection σ α → Page α → Run σ (Filled α)
  | _, .leaf bookmarker source, page => source.fill bookmarker page
  | _, .filter inner keep options, page =>
      Filter.fill options keep (Supply.ofFill inner.fill) page
  | _, .transform inner f, page => Transform.fill f (Supply.ofFill inner.fill) page
  | _, .concat sources, page =>
      match page.current with
      | some (.concat label position) =>
          sources.fill (if sources.labels.contains label then some label else none) position page
      | _ => sources.fill none none page
  | _, .merge sources direction, page => do
      let known := match page.current with
        | some (.merge positions) => positions
        | _ => []
      match ← sources.lanes known page.perPage with
      | .error e => return { page, failure := some e }
      | .ok lanes => return { page := Merge.fill direction lanes page }

/-- Fills a page from the collections of a row, one after another. `from?` is the label to begin
with, and `position` the place in the first collection that is asked. -/
def Sources.fill {σ : Type} : {α : Type} → Sources σ α → (from? : Option String) →
    (position : Option Bookmark) → Page α → Run σ (Filled α)
  | _, .nil, _, _, page => return { page }
  | _, .cons label collection rest, from?, position, page =>
      if from?.any (· ≠ label) then rest.fill from? position page
      else do
        match ← Supply.ofFill collection.fill page.remaining position with
        | .error e => return { page, failure := some e }
        | .ok sub =>
            Run.note (.concatSource label sub.items.length sub.hasMore)
            let page := page.append
              (sub.entries.map fun entry => (entry.1, Concat.place label entry.2))
            if sub.hasMore then
              return { page := page.markMore.resume (sub.nextBookmark.map (Concat.place label)) }
            else if page.isFull then
              match rest.firstLabel? with
              | none => return { page }
              | some next => return { page := page.markMore.resume (some (.concat next none)) }
            else rest.fill none none page

/-- Asks every collection of a row for a page after the place that is known for its label. -/
def Sources.lanes {σ : Type} : {α : Type} → Sources σ α →
    (known : List (String × Option Bookmark)) → (perPage : Nat) →
    Run σ (Except Error (List (Lane α)))
  | _, .nil, _, _ => return .ok []
  | _, .cons label collection rest, known, perPage => do
      let place := (known.lookup label).join
      match ← Supply.ofFill collection.fill perPage place with
      | .error e => return .error e
      | .ok sub =>
          Run.note (.mergeSource label sub.items.length sub.hasMore)
          match ← rest.lanes known perPage with
          | .error e => return .error e
          | .ok lanes => return .ok (Lane.ofPage label place sub :: lanes)

end

end KeysetPaging
