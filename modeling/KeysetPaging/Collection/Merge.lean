import KeysetPaging.Bookmark.Order
import KeysetPaging.Source

/-! # Merging

Several sources are interleaved by the order of their bookmarks. A lane holds what one source
answered. The smallest bookmark in front of a lane goes next, and of equals the one in the
earliest lane. A lane that has run out while its source goes on stops the merge, because what
comes next is not known.
-/

namespace KeysetPaging

/-- One source of a merge while a page is filled. -/
structure Lane (α : Type) where
  label : String
  /-- The place that the merge has reached in this source. -/
  place : Option Bookmark
  /-- What the source answered and the merge has not used. -/
  buffer : List (α × Bookmark)
  /-- The source goes on after what it answered. -/
  hasMore : Bool
  /-- Where the source resumes after what it answered. -/
  resumeAt : Option Bookmark

namespace Lane

variable {α : Type}

/-- The lane of an answer of a source that was asked for what comes after `place`. -/
def ofPage (label : String) (place : Option Bookmark) (page : Page α) : Lane α :=
  { label, place, buffer := page.entries, hasMore := page.hasMore, resumeAt := page.nextBookmark }

/-- What comes next in this lane is not known. -/
def isStarved (lane : Lane α) : Bool :=
  lane.buffer.isEmpty && lane.hasMore

/-- The bookmark in front of a lane. -/
def front? (lane : Lane α) : Option Bookmark :=
  lane.buffer.head?.map (·.2)

/-- The lane after its front item is used. -/
def advance (lane : Lane α) : Lane α :=
  match lane.buffer with
  | [] => lane
  | (_, b) :: rest => { lane with place := some b, buffer := rest }

/-- The lane at the place where its source resumes, when all it answered is used. -/
def settle (lane : Lane α) : Lane α :=
  if lane.isStarved then { lane with place := lane.resumeAt } else lane

/-- The bookmark of a merge whose lanes have reached these places. -/
def snapshot (lanes : List (Lane α)) : Bookmark :=
  .merge (lanes.map fun lane => (lane.label, lane.place))

end Lane

namespace Merge

variable {α : Type}

/-- The lane whose front goes next, counted from `index`: `best` is the number and the front of
the best lane so far. -/
def bestFrom (direction : Direction) :
    (index : Nat) → (best : Option (Nat × Bookmark)) → List (Lane α) → Option Nat
  | _, best, [] => best.map (·.1)
  | index, best, lane :: rest =>
      match lane.front? with
      | none => bestFrom direction (index + 1) best rest
      | some b =>
          match best with
          | none => bestFrom direction (index + 1) (some (index, b)) rest
          | some (i, c) =>
              if direction.apply (Bookmark.compare b c) = .lt then
                bestFrom direction (index + 1) (some (index, b)) rest
              else bestFrom direction (index + 1) (some (i, c)) rest

/-- The lane whose front goes next. There is none when a lane is starved, and none when all lanes
have run out. -/
def pick (direction : Direction) (lanes : List (Lane α)) : Option Nat :=
  if lanes.any Lane.isStarved then none else bestFrom direction 0 none lanes

/-- Takes up to `room` items from the lanes. Each is given the places of all lanes after it. -/
def interleave (direction : Direction) :
    (room : Nat) → List (Lane α) → List (α × Bookmark) × List (Lane α)
  | 0, lanes => ([], lanes)
  | room + 1, lanes =>
      match pick direction lanes with
      | none => ([], lanes)
      | some i =>
          match lanes[i]? with
          | some ⟨_, _, (item, _) :: _, _, _⟩ =>
              let lanes := lanes.modify i Lane.advance
              let (entries, left) := interleave direction room lanes
              ((item, Lane.snapshot lanes) :: entries, left)
          | _ => ([], lanes)

/-- Fills a page from lanes. When something is left in any lane or in the source of one, the
sequence goes on from the places of all lanes. -/
def fill (direction : Direction) (lanes : List (Lane α)) (page : Page α) : Page α :=
  let (entries, left) := interleave direction page.remaining lanes
  let page := page.append entries
  if left.any fun lane => lane.hasMore || !lane.buffer.isEmpty then
    page.markMore.resume (some (Lane.snapshot (left.map Lane.settle)))
  else page

end Merge

end KeysetPaging
