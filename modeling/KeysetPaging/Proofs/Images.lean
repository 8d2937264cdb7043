import KeysetPaging.Collection.Paginate
import KeysetPaging.Proofs.Growth
import KeysetPaging.Proofs.Keeping

/-! # Pages of images

A transformation changes items and leaves all places alone. So it does not matter where in a chain
it stands: whatever is built from transformed collections asks them the same questions, notes the
same events and takes the same decisions as what is built from the plain ones, and in the end shows
the images of the same items. A page that is being filled with images is the image of the other
page, `Page.map`. A page that is answered is one as far as it can be seen, `Page.Images`.
-/

namespace KeysetPaging

variable {σ α β : Type}

/-! ## Images of pages -/

/-- The page holds the images of the items of another one, with their bookmarks, and starts and
resumes where that one does. How it came to resume there may differ. -/
structure Page.Images (f : α → β) (image : Page β) (page : Page α) : Prop where
  items_eq : image.items = page.items.map f
  bookmarks_eq : image.bookmarks = page.bookmarks
  hasMore_eq : image.hasMore = page.hasMore
  current_eq : image.current = page.current
  next_eq : image.nextBookmark = page.nextBookmark

/-- An entry with the image of its item. -/
def imageOf (f : α → β) (entry : α × Bookmark) : β × Bookmark :=
  (f entry.1, entry.2)

/-- Both answers are the same failure, or both are results that are related, such as pages of which
one holds the images of the other. -/
inductive Answers (R : α → β → Prop) : Except Error α → Except Error β → Prop where
  | failed (e : Error) : Answers R (.error e) (.error e)
  | answered {a : α} {b : β} : R a b → Answers R (.ok a) (.ok b)

/-- Asked the same, the supplies take the same course, and the first one answers with the images of
what the second one answers with. -/
def Supply.Images (f : α → β) (image : Supply σ β) (supply : Supply σ α) : Prop :=
  ∀ perPage place,
    Run.InStep (Answers (Page.Images f)) (image perPage place) (supply perPage place)

/-- A page that was filled, with images for its items. -/
def Filled.map (f : α → β) (filled : Filled α) : Filled β :=
  { page := filled.page.map f, failure := filled.failure }

namespace Page

@[simp] theorem append_map (f : α → β) (page : Page α) (es : List (α × Bookmark)) :
    (page.map f).append (es.map (imageOf f)) = (page.append es).map f := by
  simp [append, map, imageOf, Function.comp_def]

@[simp] theorem current_map (f : α → β) (page : Page α) : (page.map f).current = page.current :=
  rfl

@[simp] theorem remaining_map (f : α → β) (page : Page α) :
    (page.map f).remaining = page.remaining := by
  simp [remaining, map]

@[simp] theorem isFull_map (f : α → β) (page : Page α) : (page.map f).isFull = page.isFull := by
  simp [isFull, map]

@[simp] theorem length_items_map (f : α → β) (page : Page α) :
    (page.map f).items.length = page.items.length := by
  simp [map]

@[simp] theorem isEmpty_items_map (f : α → β) (page : Page α) :
    (page.map f).items.isEmpty = page.items.isEmpty := by
  simp [map]

/-- The image of a page shows the images of its items. -/
theorem images_map (f : α → β) (page : Page α) : (page.map f).Images f page :=
  ⟨rfl, rfl, rfl, rfl, rfl⟩

variable {f : α → β} {image : Page β} {page : Page α}

theorem Images.entries_eq (h : image.Images f page) :
    image.entries = page.entries.map (imageOf f) := by
  rw [entries, entries, h.items_eq, h.bookmarks_eq, List.zip_map_left]
  rfl

theorem Images.length_eq (h : image.Images f page) : image.items.length = page.items.length := by
  rw [h.items_eq, List.length_map]

end Page

/-- A page that goes on already falls back on its last bookmark, and then on its start. To fall back
on them once more changes nothing. -/
theorem Page.nextBookmark_or (page : Page α) (h : page.hasMore) :
    page.nextBookmark.or (page.bookmarks.getLast?.or page.current) = page.nextBookmark := by
  rw [nextBookmark, if_pos h, Option.or_assoc, Option.or_self]

/-- Ways of filling pages that lead to images make supplies that answer with images. -/
theorem Supply.Images.ofFill {f : α → β} {image : Page β → Run σ (Filled β)}
    {fill : Page α → Run σ (Filled α)}
    (h : ∀ page, Run.InStep (· = Filled.map f ·) (image (page.map f)) (fill page)) :
    Supply.Images f (.ofFill image) (.ofFill fill) := by
  intro perPage place
  rw [Supply.ofFill, Supply.ofFill, Page.start?, Page.start?]
  split_ifs with hperPage
  · refine (h { perPage, current := place, perPage_pos := hperPage }).bind ?_
    rintro _ filled rfl
    cases hfailure : filled.failure with
    | some e =>
      simp only [Filled.map, hfailure]
      exact .pure (.failed e)
    | none =>
      simp only [Filled.map, hfailure]
      exact .pure (.answered (filled.page.images_map f))
  · exact .pure (.failed _)

/-! ## Transformed collections -/

/-- **A transformed collection shows the images of what the plain one shows.** -/
theorem Transform.images (f : α → β) {fill : Page α → Run σ (Filled α)}
    (hpairs : (Supply.ofFill fill).Pairs) :
    Supply.Images f (.ofFill (Transform.fill f (.ofFill fill))) (.ofFill fill) := by
  intro perPage place
  cases perPage with
  | zero => exact .pure (.failed _)
  | succ size =>
    have hsame : Run.InStep (fun a b => a = b ∧ ∀ page, a = .ok page →
        page.items.length = page.bookmarks.length ∧ page.current = place)
        (Supply.ofFill fill (size + 1) place) (Supply.ofFill fill (size + 1) place) :=
      fun j => ⟨⟨rfl, hpairs (size + 1) place j⟩, rfl⟩
    rw [← bind_pure (Supply.ofFill fill (size + 1) place), Supply.ofFill]
    simp only [Page.start?, Nat.succ_pos, dite_true, Transform.fill, bind_assoc]
    refine hsame.bind ?_
    rintro (e | sub) _ ⟨rfl, hsub⟩
    · exact .pure (.failed e)
    · obtain ⟨hpaired, rfl⟩ := hsub sub rfl
      obtain ⟨hitems, hbookmarks⟩ := Page.map_entries hpaired
      have himages : sub.entries.map (fun e => f e.1) = sub.items.map f := by
        rw [← hitems, List.map_map]
        rfl
      simp only [pure_bind]
      refine .pure (.answered ?_)
      -- A page that goes on is fixed to resume where the inner one does.
      cases hmore : sub.hasMore with
      | false =>
        refine ⟨?_, ?_, ?_, rfl, ?_⟩ <;>
          simp [Page.append, Page.nextBookmark, hmore, Function.comp_def, himages, hbookmarks]
      | true =>
        refine ⟨?_, ?_, ?_, rfl, ?_⟩
        · simp [Page.append, Page.markMore, Page.resume, Function.comp_def, himages]
        · simp [Page.append, Page.markMore, Page.resume, Function.comp_def, hbookmarks]
        · simp [Page.append, Page.markMore, Page.resume, hmore]
        · have hnext := sub.nextBookmark_or hmore
          simpa [Page.append, Page.markMore, Page.resume, Function.comp_def, hbookmarks,
            Page.nextBookmark, hmore] using hnext

/-! ## Filters of images -/

namespace Filter

variable {f : α → β} {image : Supply σ β} {supply : Supply σ α} {options : FilterOptions}
  {keep : β → Bool}

/-- The images that pass a test are the images of the items whose images pass it. -/
theorem kept_images {image : Page β} {sub : Page α} (h : image.Images f sub) :
    image.entries.filter (fun e => keep e.1)
      = (sub.entries.filter fun e => (keep ∘ f) e.1).map (imageOf f) := by
  rw [h.entries_eq, List.filter_map]
  rfl

/-- As much is taken of images as of the items themselves. -/
theorem take_images {image : Page β} {sub : Page α} (h : image.Images f sub)
    (kept : List (α × Bookmark)) (page : Page α) :
    take (kept.map (imageOf f)) image (page.map f)
      = ((take kept sub page).1.map f, (take kept sub page).2) := by
  simp only [take, List.length_map, ← List.map_take, Page.remaining_map, Page.append_map,
    h.hasMore_eq, h.next_eq]
  split_ifs <;> rfl

theorem fillRounds_images (h : image.Images f supply) (left round : Nat)
    (place : Option Bookmark) (size : Nat) (page : Page α) :
    Run.InStep (· = Filled.map f ·)
      (fillRounds options keep image left round place size (page.map f))
      (fillRounds options (keep ∘ f) supply left round place size page) := by
  induction left generalizing round place size page with
  | zero =>
    rw [fillRounds, fillRounds, Page.length_items_map]
    exact .note (.pure rfl)
  | succ left ih =>
    rw [fillRounds, fillRounds]
    refine (h size place).bind ?_
    rintro _ _ (e | hsub)
    · exact .pure rfl
    next sub' sub =>
      simp only [hsub.length_eq, hsub.hasMore_eq, hsub.next_eq, kept_images hsub,
        take_images hsub]
      refine .note ?_
      split
      · exact .pure rfl
      · exact ih _ _ _ _

theorem siftRounds_images (h : image.Images f supply) (left round : Nat)
    (place : Option Bookmark) (page : Page α) :
    Run.InStep (· = Filled.map f ·)
      (siftRounds options keep image left round place (page.map f))
      (siftRounds options (keep ∘ f) supply left round place page) := by
  induction left generalizing round place page with
  | zero => exact .note (.pure rfl)
  | succ left ih =>
    rw [siftRounds, siftRounds]
    refine (h page.perPage place).bind ?_
    rintro _ _ (e | hsub)
    · exact .pure rfl
    next sub' sub =>
      simp only [hsub.length_eq, hsub.hasMore_eq, hsub.next_eq, kept_images hsub,
        Page.append_map, Page.isEmpty_items_map]
      refine .note ?_
      split_ifs
      · exact .pure rfl
      · exact .pure rfl
      · exact ih _ _ _

/-- **Filtering images filters the items by their images**, in either mode and with any limits. -/
theorem images (options : FilterOptions) (keep : β → Bool) (h : image.Images f supply) :
    Supply.Images f (.ofFill (fill options keep image))
      (.ofFill (fill options (keep ∘ f) supply)) := by
  refine .ofFill fun page => ?_
  rw [fill, fill]
  cases options.mode with
  | filling => exact fillRounds_images h _ _ _ _ page
  | sifting => exact siftRounds_images h _ _ _ page

end Filter

/-! ## Rows of transformed collections -/

/-- The row with every collection transformed. -/
def Sources.transform (f : α → β) : Sources σ α → Sources σ β
  | .nil => .nil
  | .cons label c rest => .cons label (c.transform f) (rest.transform f)

/-- A lane with images for its items. -/
def Lane.map (f : α → β) (lane : Lane α) : Lane β :=
  { label := lane.label
    place := lane.place
    buffer := lane.buffer.map (imageOf f)
    hasMore := lane.hasMore
    resumeAt := lane.resumeAt }

/-- What the collection answers on its own, with images for its items. -/
theorem Collection.transform_images (f : α → β) (c : Collection σ α) :
    Supply.Images f (c.transform f).supply c.supply := by
  rw [supply_transform]
  exact Transform.images f c.pairs

namespace Sources

@[simp] theorem labels_transform (f : α → β) :
    ∀ sources : Sources σ α, (sources.transform f).labels = sources.labels
  | .nil => rfl
  | .cons label _ rest => by rw [transform, labels, labels, labels_transform f rest]

@[simp] theorem firstLabel?_transform (f : α → β) (sources : Sources σ α) :
    (sources.transform f).firstLabel? = sources.firstLabel? := by
  cases sources <;> rfl

/-- A row of transformed collections accepts what the row itself accepts. -/
theorem accepts_transform (f : α → β) (wanted : String) (position : Option Bookmark) :
    ∀ sources : Sources σ α,
      (sources.transform f).accepts wanted position = sources.accepts wanted position
  | .nil => by rw [transform, accepts, accepts]
  | .cons label c rest => by
    cases position with
    | none => simp only [transform, accepts, accepts_transform f wanted none rest]
    | some b =>
      simp only [transform, accepts, Collection.accepts, accepts_transform f wanted (some b) rest]

/-- A row of transformed collections fills the image of a page with images. -/
theorem fill_images (f : α → β) : ∀ (sources : Sources σ α) (from? : Option String)
    (position : Option Bookmark) (page : Page α),
      Run.InStep (· = Filled.map f ·) ((sources.transform f).fill from? position (page.map f))
        (sources.fill from? position page)
  | .nil, _, _, page => by
    rw [transform, fill, fill]
    exact .pure rfl
  | .cons label c rest, from?, position, page => by
    rw [transform, fill, fill, Page.remaining_map]
    split
    · exact fill_images f rest from? position page
    · refine (c.transform_images f page.remaining position).bind ?_
      rintro _ _ (e | hsub)
      · exact .pure rfl
      next sub' sub =>
        have hentries : (sub'.entries.map fun e => (e.1, Concat.place label e.2))
            = (sub.entries.map fun e => (e.1, Concat.place label e.2)).map (imageOf f) := by
          simp only [hsub.entries_eq, List.map_map]
          rfl
        simp only [hsub.length_eq, hsub.hasMore_eq, hsub.next_eq, hentries, Page.append_map,
          Page.isFull_map, firstLabel?_transform]
        refine .note ?_
        split_ifs
        · exact .pure rfl
        · cases rest.firstLabel? with
          | none => exact .pure rfl
          | some next => exact .pure rfl
        · exact fill_images f rest none none _

/-- A row of transformed collections answers with the images of the row's lanes. -/
theorem lanes_images (f : α → β) : ∀ (sources : Sources σ α)
    (known : List (String × Option Bookmark)) (perPage : Nat),
      Run.InStep (Answers fun lanes' lanes => lanes' = lanes.map (Lane.map f))
        ((sources.transform f).lanes known perPage) (sources.lanes known perPage)
  | .nil, known, perPage => by
    rw [transform, lanes, lanes]
    exact .pure (.answered rfl)
  | .cons label c rest, known, perPage => by
    rw [transform, lanes, lanes]
    refine (c.transform_images f perPage _).bind ?_
    rintro _ _ (e | hsub)
    · exact .pure (.failed e)
    next sub' sub =>
      simp only [hsub.length_eq, hsub.hasMore_eq]
      refine .note ((lanes_images f rest known perPage).bind ?_)
      rintro _ _ (e | hlanes)
      · exact .pure (.failed e)
      · refine .pure (.answered ?_)
        simp [hlanes, Lane.ofPage, Lane.map, hsub.entries_eq, hsub.hasMore_eq, hsub.next_eq]

end Sources

/-! ## Merges of transformed collections -/

namespace Lane

variable (f : α → β) (lane : Lane α)

@[simp] theorem isStarved_map : (lane.map f).isStarved = lane.isStarved := by
  simp [isStarved, map]

@[simp] theorem front?_map : (lane.map f).front? = lane.front? := by
  simp [front?, map, imageOf, Function.comp_def]

theorem advance_map : (lane.map f).advance = lane.advance.map f := by
  obtain ⟨label, place, buffer, hasMore, resumeAt⟩ := lane
  cases buffer <;> rfl

/-- Advancing one of several lanes and taking images can be done in either order. -/
theorem modify_advance_map (lanes : List (Lane α)) (i : Nat) :
    (lanes.map (Lane.map f)).modify i advance = (lanes.modify i advance).map (Lane.map f) := by
  refine List.ext_getElem? fun k => ?_
  simp only [List.getElem?_modify, List.getElem?_map, Option.map_eq_map, Option.map_map]
  congr 1
  funext lane
  split
  · simp [advance_map]
  · simp

theorem settle_map : (lane.map f).settle = lane.settle.map f := by
  rw [settle, settle, isStarved_map]
  split <;> rfl

@[simp] theorem snapshot_map (lanes : List (Lane α)) :
    snapshot (lanes.map (Lane.map f)) = snapshot lanes := by
  simp [snapshot, map, Function.comp_def]

end Lane

namespace Merge

variable {f : α → β} {direction : Direction}

/-- The places of items decide which of them goes next. -/
theorem bestFrom_map (index : Nat) (best : Option (Nat × Bookmark)) (lanes : List (Lane α)) :
    bestFrom direction index best (lanes.map (Lane.map f))
      = bestFrom direction index best lanes := by
  induction lanes generalizing index best with
  | nil => rfl
  | cons lane rest ih => simp only [List.map_cons, bestFrom, Lane.front?_map, ih]

theorem pick_map (lanes : List (Lane α)) :
    pick direction (lanes.map (Lane.map f)) = pick direction lanes := by
  simp only [pick, bestFrom_map, List.any_map, Function.comp_def, Lane.isStarved_map]

theorem interleave_map (room : Nat) (lanes : List (Lane α)) :
    interleave direction room (lanes.map (Lane.map f))
      = ((interleave direction room lanes).1.map (imageOf f),
        (interleave direction room lanes).2.map (Lane.map f)) := by
  induction room generalizing lanes with
  | zero => rfl
  | succ room ih =>
    rw [interleave, interleave, pick_map]
    cases pick direction lanes with
    | none => rfl
    | some i =>
      simp only [List.getElem?_map]
      rcases lanes[i]? with _ | ⟨label, place, _ | ⟨⟨item, b⟩, rest⟩, hasMore, resumeAt⟩
      · rfl
      · rfl
      · simp [Lane.map, imageOf, Lane.modify_advance_map, ih]

/-- Lanes of images fill the image of a page with images. -/
theorem fill_map (lanes : List (Lane α)) (page : Page α) :
    fill direction (lanes.map (Lane.map f)) (page.map f) = (fill direction lanes page).map f := by
  have hgoes : ∀ left : List (Lane α), (left.map (Lane.map f)).any
      (fun lane => lane.hasMore || !lane.buffer.isEmpty)
        = left.any fun lane => lane.hasMore || !lane.buffer.isEmpty := by
    simp [List.any_map, Function.comp_def, Lane.map]
  have hsettled : ∀ left : List (Lane α), Lane.snapshot ((left.map (Lane.map f)).map Lane.settle)
      = Lane.snapshot (left.map Lane.settle) := by
    intro left
    rw [← Lane.snapshot_map f (left.map Lane.settle), List.map_map, List.map_map]
    congr 2
    funext lane
    exact lane.settle_map f
  simp only [fill, Page.remaining_map, interleave_map, hgoes, hsettled, Page.append_map]
  split <;> rfl

end Merge

/-! ## Whatever is built of transformed collections -/

/-- The first collection accepts the same places as the second one, and answers with the images of
what that one answers with. -/
structure Collection.Images (f : α → β) (image : Collection σ β) (c : Collection σ α) : Prop where
  accepts_eq : ∀ b, image.accepts b = c.accepts b
  answers : Supply.Images f image.supply c.supply

namespace Collection

variable {f : α → β}

theorem images_transform (f : α → β) (c : Collection σ α) : (c.transform f).Images f c :=
  ⟨fun b => by rw [accepts], c.transform_images f⟩

theorem Images.filter {image : Collection σ β} {c : Collection σ α} (h : image.Images f c)
    (keep : β → Bool) (options : FilterOptions) :
    (image.filter keep options).Images f (c.filter (keep ∘ f) options) := by
  refine ⟨fun b => ?_, ?_⟩
  · rw [accepts, accepts, h.accepts_eq]
  · rw [supply_filter, supply_filter]
    exact Filter.images options keep h.answers

theorem images_concat (f : α → β) (sources : Sources σ α) :
    (concat (sources.transform f)).Images f (concat sources) := by
  refine ⟨fun b => ?_, .ofFill fun page => ?_⟩
  · cases b <;> simp only [accepts, sources.accepts_transform]
  · rw [fill, fill, sources.labels_transform, Page.current_map]
    cases page.current with
    | none => exact sources.fill_images f none none page
    | some b => cases b <;> exact sources.fill_images f _ _ page

theorem images_merge (f : α → β) (sources : Sources σ α) (direction : Direction) :
    (merge (sources.transform f) direction).Images f (merge sources direction) := by
  refine ⟨fun b => ?_, .ofFill fun page => ?_⟩
  · cases b <;> simp only [accepts, sources.accepts_transform]
  · rw [fill, fill]
    refine (sources.lanes_images f _ page.perPage).bind ?_
    rintro _ _ (e | rfl)
    · exact .pure rfl
    · exact .pure (congrArg (Filled.mk · none) (Merge.fill_map _ page))

end Collection

/-- What is to be seen of a page. -/
structure Page.View (α : Type) where
  items : List α
  bookmarks : List Bookmark
  current : Option Bookmark
  hasMore : Bool
  nextBookmark : Option Bookmark
  nextToken : Option String

/-- What is to be seen of this page. -/
def Page.view (page : Page α) : Page.View α where
  items := page.items
  bookmarks := page.bookmarks
  current := page.current
  hasMore := page.hasMore
  nextBookmark := page.nextBookmark
  nextToken := page.nextToken

/-- What is to be seen of a page with images for its items. -/
def Page.View.map (f : α → β) (view : Page.View α) : Page.View β :=
  { view with items := view.items.map f }

/-- What is to be seen of the page that a request asks for, or why there is none. -/
def Collection.view (c : Collection σ α) (request : PageRequest) :
    Run σ (Except Error (Page.View α)) := do
  return (← c.paginate request).map Page.view

/-- The images of the items of a page are seen where the page is. -/
theorem Page.Images.view_eq {f : α → β} {image : Page β} {page : Page α}
    (h : image.Images f page) : image.view = page.view.map f := by
  simp only [view, View.map, h.items_eq, h.bookmarks_eq, h.current_eq, h.hasMore_eq, h.next_eq,
    nextToken]

namespace Collection

variable {f : α → β} {image : Collection σ β} {c : Collection σ α}

theorem Images.placeOf_eq (h : image.Images f c) (token : Option String) :
    image.placeOf token = c.placeOf token := by
  unfold placeOf
  simp only [h.accepts_eq]

/-- A page of images is asked for as a page of the items themselves is. -/
theorem Images.paginate (h : image.Images f c) (request : PageRequest) :
    Run.InStep (Answers (Page.Images f)) (image.paginate request) (c.paginate request) := by
  have hasked : ∀ {next : Except Error (Page β) → Run σ (Except Error (Page β))}
      {next' : Except Error (Page α) → Run σ (Except Error (Page α))} (perPage : Nat),
      (∀ answer' answer, Answers (Page.Images f) answer' answer →
        Run.InStep (Answers (Page.Images f)) (next answer') (next' answer)) →
      Run.InStep (Answers (Page.Images f))
        (image.placeOf request.page >>= fun place => image.supply perPage place >>= next)
        (c.placeOf request.page >>= fun place => c.supply perPage place >>= next') := by
    intro next next' perPage hnext
    rw [h.placeOf_eq]
    refine (Run.InStep.refl _).bind ?_
    rintro place _ rfl
    exact (h.answers perPage place).bind hnext
  rw [Collection.paginate, Collection.paginate]
  rcases request.perPage with _ | _ | size
  · exact .pure (.failed _)
  · exact .pure (.failed _)
  · cases request.totalEntries
    case' some total => refine .note ?_
    all_goals
      refine hasked (size + 1) ?_
      rintro _ _ (e | hpage)
      · exact .pure (.failed e)
      · simp only [hpage.length_eq, hpage.hasMore_eq]
        exact .note (.pure (.answered hpage))

/-- A page of images is seen where the page of the items themselves is, and for the same reason
there is none. -/
theorem Images.view_eq (h : image.Images f c) (request : PageRequest) :
    image.view request = Except.map (Page.View.map f) <$> c.view request := by
  refine Run.InStep.eq ?_
  rw [view, view, map_bind]
  refine (h.paginate request).bind ?_
  rintro _ _ (e | hpage)
  · exact .pure rfl
  · exact .pure (congrArg Except.ok hpage.view_eq)

/-- **Transforming commutes with every other way of building a collection.** Whatever a request asks
for, filtering images by a test is filtering items by the test of their images and transforming what
is left; and putting transformed collections one after another, or merging them, is transforming the
collections put together. A transformed collection itself shows its own page with images for the
items. The same is seen each time, or the same failure, and the runs leave the same journal. -/
theorem transform_commutes (f : α → β) (c : Collection σ α) (keep : β → Bool)
    (options : FilterOptions) (sources : Sources σ α) (direction : Direction)
    (request : PageRequest) :
    ((c.transform f).filter keep options).view request
        = ((c.filter (keep ∘ f) options).transform f).view request ∧
      (concat (sources.transform f)).view request
        = ((concat sources).transform f).view request ∧
      (merge (sources.transform f) direction).view request
        = ((merge sources direction).transform f).view request ∧
      (c.transform f).view request = Except.map (Page.View.map f) <$> c.view request := by
  refine ⟨?_, ?_, ?_, (c.images_transform f).view_eq request⟩
  · rw [((c.images_transform f).filter keep options).view_eq request,
      ((c.filter (keep ∘ f) options).images_transform f).view_eq request]
  · rw [(images_concat f sources).view_eq request,
      ((concat sources).images_transform f).view_eq request]
  · rw [(images_merge f sources direction).view_eq request,
      ((merge sources direction).images_transform f).view_eq request]

end Collection

end KeysetPaging
