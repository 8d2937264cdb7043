import KeysetPaging.Proofs.Fullness
import KeysetPaging.Proofs.Growth
import KeysetPaging.Proofs.Search

/-! # Filling a page only appends

A page need not be empty when a collection fills it: items may have been put there by hand, or by
another collection. As long as the page has room, filling it leaves all of them in front, and adds
no more items than the page was asked to hold. What a built collection adds it takes from inner
pages, which start empty, and no collection puts more on such a page than was asked for. A list of
items adds its own items at the end, and only these are dropped when there are too many.
-/

namespace KeysetPaging

variable {σ α β : Type}

/-- A page after items were added at its end, no more than it was asked to hold. -/
structure Page.Appends (page before : Page α) : Prop where
  perPage_eq : page.perPage = before.perPage
  current_eq : page.current = before.current
  more : before.hasMore → page.hasMore
  added : ∃ items, page.items = before.items ++ items ∧ items.length ≤ before.perPage

/-- A page that was filled by adding to it, and grew by no more than its size, was appended to. -/
theorem Page.Extends.appends {page before : Page α} (h : page.Extends before)
    (hle : page.items.length ≤ before.items.length + before.perPage) : page.Appends before := by
  obtain ⟨es, hitems, -⟩ := h.added
  refine ⟨h.perPage_eq, h.current_eq, h.more, es.map (·.1), hitems, ?_⟩
  rw [hitems, List.length_append] at hle
  exact Nat.le_of_add_le_add_left hle

/-! ## How many items a page is answered with -/

/-- The supply answers with no more items than it is asked for. -/
def Supply.Bounded (supply : Supply σ α) : Prop :=
  ∀ perPage place, Run.Ensures (supply perPage place) fun answer =>
    ∀ page, answer = .ok page → page.items.length ≤ perPage

/-- A way of filling that puts no more on an empty page than is asked for makes a supply that
answers with no more. -/
theorem Supply.Bounded.ofFill {fill : Page α → Run σ (Filled α)}
    (h : ∀ perPage place (hperPage : 0 < perPage),
      Run.Ensures (fill { perPage, current := place, perPage_pos := hperPage }) fun filled =>
        filled.failure = none → filled.page.items.length ≤ perPage) :
    (Supply.ofFill fill).Bounded :=
  fun perPage place => Supply.ofFill_ensures (h perPage place)

/-- A page that grew by no more than its size. -/
def Filled.GrowsBy (before : Page α) (filled : Filled α) : Prop :=
  filled.page.items.length ≤ before.items.length + before.perPage

/-- A way of filling by which no page with room grows by more than its size makes a supply that
answers with no more items than it is asked for. -/
theorem Supply.Bounded.of_grows {fill : Page α → Run σ (Filled α)}
    (h : ∀ page : Page α, page.isFull = false → Run.Ensures (fill page) (Filled.GrowsBy page)) :
    (Supply.ofFill fill).Bounded :=
  .ofFill fun perPage place hperPage =>
    (h _ (Page.isFull_blank hperPage place)).mono fun filled hfilled _ => by
      have hle : filled.page.items.length ≤ 0 + perPage := hfilled
      omega

/-- There are no more entries on a page than items. -/
theorem Page.length_entries_le (page : Page α) : page.entries.length ≤ page.items.length := by
  rw [entries, List.length_zip]
  exact Nat.min_le_left _ _

@[simp] theorem Page.perPage_edits (page : Page α) (changes : List (Edit α)) :
    (page.edits changes).perPage = page.perPage := by
  induction changes generalizing page with
  | nil => rfl
  | cons change changes ih =>
    rw [show page.edits (change :: changes) = (page.edit change).edits changes from rfl, ih]
    cases change <;> rfl

/-- Nothing is left beyond the size of a page once an overflow is dropped. -/
theorem Page.length_items_truncate (page : Page α) :
    page.truncate.items.length ≤ page.perPage := by
  rw [items_truncate]
  exact List.length_take_le _ _

/-- Whatever a source does, it leaves no more items on a page than were asked for. -/
theorem Source.fill_bounded (bookmarker : Bookmarker α) (source : Source σ α) (page : Page α) :
    Run.Ensures (source.fill bookmarker page) fun filled => filled.failure = none →
      filled.page.items.length ≤ page.perPage := by
  rw [fill]
  refine .bind_any fun fetched => ?_
  have hle := (page.edits fetched.edits).length_items_truncate
  rw [Page.perPage_edits] at hle
  dsimp only
  split
  · exact .pure (by simp)
  · split
    · exact .note (.pure fun _ => hle)
    · exact .pure fun _ => hle

/-- A transformed collection adds as many items as the inner page has. -/
theorem Transform.fill_grows (f : α → β) {supply : Supply σ α} (h : supply.Bounded)
    (page : Page β) : Run.Ensures (fill f supply page) (Filled.GrowsBy page) := by
  rw [fill]
  refine (h page.perPage page.current).bind ?_
  rintro (e | sub) hsub
  · exact .pure (Nat.le_add_right _ _)
  · have hadded : (page.append (sub.entries.map fun e => (f e.1, e.2))).items.length
        ≤ page.items.length + page.perPage := by
      rw [Page.length_items_append, List.length_map]
      exact Nat.add_le_add_left (Nat.le_trans sub.length_entries_le (hsub sub rfl)) _
    refine .pure ?_
    split <;> exact hadded

namespace Filter

variable {options : FilterOptions} {keep : α → Bool} {supply : Supply σ α}

/-- What is taken of an inner page does not overflow a page with room, and when it does not fill
the page there is room left. -/
theorem length_take_le {page : Page α} (hroom : page.isFull = false) (kept : List (α × Bookmark))
    (sub : Page α) : (take kept sub page).1.items.length ≤ page.perPage ∧
      ((take kept sub page).2 = false → (take kept sub page).1.isFull = false) := by
  have hremaining := page.remaining_pos hroom
  have hspace : page.items.length + page.remaining = page.perPage := by
    rw [Page.remaining] at hremaining ⊢
    omega
  have hadded : (page.append (kept.take (max 1 page.remaining))).items.length
      ≤ page.perPage := by
    rw [Page.length_items_append, List.length_take]
    omega
  rw [take]
  split_ifs with hmore heq
  · exact ⟨hadded, by simp⟩
  · exact ⟨hadded, by simp⟩
  · exact ⟨hadded, by simp⟩
  · refine ⟨hadded, fun _ => ?_⟩
    have hperPage : (page.append (kept.take (max 1 page.remaining))).perPage = page.perPage := rfl
    rw [Page.isFull, hperPage, Page.length_items_append, decide_eq_false_iff_not, List.length_take]
    omega

/-- What is taken of an inner page leaves the size of the page alone. -/
@[simp] theorem perPage_take (kept : List (α × Bookmark)) (sub page : Page α) :
    (take kept sub page).1.perPage = page.perPage := by
  rw [take]
  split_ifs <;> rfl

/-- The filling mode never overflows a page, whatever the inner pages hold. -/
theorem fillRounds_bounded (left round : Nat) (place : Option Bookmark) (size : Nat)
    {page : Page α} (hroom : page.isFull = false) :
    Run.Ensures (fillRounds options keep supply left round place size page) fun filled =>
      filled.page.items.length ≤ page.perPage := by
  have hle : page.items.length ≤ page.perPage := by
    simp only [Page.isFull, decide_eq_false_iff_not] at hroom
    omega
  induction left generalizing round place size page with
  | zero => exact .note (.pure hle)
  | succ left ih =>
    rw [fillRounds]
    refine .bind_any ?_
    rintro (e | sub)
    · exact .pure hle
    · obtain ⟨htaken, hleft⟩ :=
        length_take_le hroom (sub.entries.filter fun e => keep e.1) sub
      refine .note ?_
      dsimp only
      split
      · exact .pure htaken
      next hgoesOn =>
        have hopen := hleft (by simpa using (by simpa using hgoesOn : _ ∧ _).1)
        rw [← perPage_take (sub.entries.filter fun e => keep e.1) sub page]
        exact ih _ _ _ hopen (by rw [perPage_take]; exact htaken)

/-- The sifting mode adds what is left of one inner page: it asks again only while the page is
empty. -/
theorem siftRounds_grows (h : supply.Bounded) (left round : Nat) (place : Option Bookmark)
    (page : Page α) :
    Run.Ensures (siftRounds options keep supply left round place page) (Filled.GrowsBy page) := by
  induction left generalizing round place page with
  | zero => exact .note (.pure (Nat.le_add_right _ _))
  | succ left ih =>
    rw [siftRounds]
    refine (h page.perPage place).bind ?_
    rintro (e | sub) hsub
    · exact .pure (Nat.le_add_right _ _)
    · have hkept : (sub.entries.filter fun e => keep e.1).length ≤ page.perPage :=
        Nat.le_trans (List.length_filter_le _ _)
          (Nat.le_trans sub.length_entries_le (hsub sub rfl))
      have hadded : (page.append (sub.entries.filter fun e => keep e.1)).items.length
          ≤ page.items.length + page.perPage := by
        rw [Page.length_items_append]
        exact Nat.add_le_add_left hkept _
      refine .note ?_
      dsimp only
      split_ifs with hends hfound
      · exact .pure hadded
      · exact .pure hadded
      · refine (ih _ _ _).mono fun filled hfilled => ?_
        -- Another round starts from an empty page, so nothing was added so far.
        have hempty : (page.append (sub.entries.filter fun e => keep e.1)).items = [] := by
          simpa using hfound
        have hle : filled.page.items.length ≤
            (page.append (sub.entries.filter fun e => keep e.1)).items.length + page.perPage :=
          hfilled
        rw [hempty, List.length_nil] at hle
        exact Nat.le_trans hle (by omega)

/-- A filtered collection grows no page with room by more than its size. -/
theorem fill_grows (options : FilterOptions) (keep : α → Bool) (h : supply.Bounded)
    {page : Page α} (hroom : page.isFull = false) :
    Run.Ensures (fill options keep supply page) (Filled.GrowsBy page) := by
  rw [fill]
  split
  · exact (fillRounds_bounded _ _ _ _ hroom).mono fun filled hfilled =>
      Nat.le_trans hfilled (Nat.le_add_left _ _)
  · exact siftRounds_grows h _ _ _ page

end Filter

/-- A row of collections never overflows a page, since each is asked for what is missing. -/
theorem Sources.fill_bounded : ∀ (sources : Sources σ α) (from? : Option String)
    (position : Option Bookmark) {page : Page α}, (sources.Each fun _ c => c.supply.Bounded) →
      page.items.length ≤ page.perPage → Run.Ensures (sources.fill from? position page) fun filled =>
        filled.page.items.length ≤ page.perPage
  | .nil, from?, position, page => by
    intro _ hle
    rw [fill]
    exact .pure hle
  | .cons label c rest, from?, position, page => by
    rintro ⟨hc, hrest⟩ hle
    rw [fill]
    split
    · exact rest.fill_bounded from? position hrest hle
    · refine (hc page.remaining position).bind ?_
      rintro (e | sub) hsub
      · exact .pure hle
      · have hadded : (page.append (sub.entries.map fun e =>
            (e.1, Concat.place label e.2))).items.length ≤ page.perPage := by
          have hsub := hsub sub rfl
          have hentries := sub.length_entries_le
          rw [Page.length_items_append, List.length_map]
          rw [Page.remaining] at hsub
          omega
        refine .note ?_
        dsimp only
        split_ifs
        · exact .pure hadded
        · split <;> exact .pure hadded
        · exact rest.fill_bounded none none hrest hadded

/-- A merge takes no more from its lanes than a page has room for. -/
theorem Merge.length_fill_le (direction : Direction) (lanes : List (Lane α)) {page : Page α}
    (hle : page.items.length ≤ page.perPage) :
    (fill direction lanes page).items.length ≤ page.perPage := by
  have hadded : (page.append (interleave direction page.remaining lanes).1).items.length
      ≤ page.perPage := by
    have hlanes : (interleave direction page.remaining lanes).1.length ≤ page.remaining :=
      length_interleave_le page.remaining lanes
    rw [Page.length_items_append]
    rw [Page.remaining] at hlanes ⊢
    omega
  rw [fill]
  dsimp only
  split <;> exact hadded

mutual

/-- **No collection answers with more items than it is asked for**, whatever its sources do. -/
theorem Collection.bounded {σ : Type} : ∀ {α : Type} (c : Collection σ α), c.supply.Bounded
  | _, .leaf bookmarker source => by
    rw [Collection.supply_leaf]
    exact .ofFill fun perPage place hperPage => source.fill_bounded bookmarker _
  | _, .filter inner keep options => by
    rw [Collection.supply_filter]
    exact .of_grows fun page hroom => Filter.fill_grows options keep inner.bounded hroom
  | _, .transform inner f => by
    rw [Collection.supply_transform]
    exact .of_grows fun page _ => Transform.fill_grows f inner.bounded page
  | _, .concat sources => .ofFill fun perPage place hperPage => by
    rw [Collection.fill]
    split
    · exact (sources.fill_bounded _ _ sources.bounded (Nat.zero_le _)).mono fun _ h _ => h
    · exact (sources.fill_bounded none none sources.bounded (Nat.zero_le _)).mono fun _ h _ => h
  | _, .merge sources direction => .ofFill fun perPage place hperPage => by
    rw [Collection.fill]
    refine .bind_any ?_
    rintro (e | lanes)
    · exact .pure (by simp)
    · exact .pure fun _ => Merge.length_fill_le direction lanes (Nat.zero_le _)

theorem Sources.bounded {σ : Type} : ∀ {α : Type} (sources : Sources σ α),
    sources.Each fun _ c => c.supply.Bounded
  | _, .nil => trivial
  | _, .cons _ c rest => ⟨c.bounded, rest.bounded⟩

end

/-! ## Lists of items -/

/-- A leaf is made of a list of items, sorted by its bookmarker. -/
def Source.OfItems (bookmarker : Bookmarker α) (source : Source σ α) : Prop :=
  ∃ items list, ItemList.ofItems? bookmarker items = .ok list ∧ source = list.source

/-- An overflow of items that were added to a page with room is dropped from what was added. -/
theorem Page.appends_truncate {page before : Page α} {added : List α}
    (hroom : before.isFull = false) (hitems : page.items = before.items ++ added)
    (hperPage : page.perPage = before.perPage) (hcurrent : page.current = before.current)
    (hmore : before.hasMore → page.hasMore) (hadded : added.length ≤ before.perPage) :
    page.truncate.Appends before := by
  simp only [isFull, decide_eq_false_iff_not, Nat.not_le] at hroom
  rw [truncate]
  split
  · refine ⟨hperPage, hcurrent, fun _ => rfl,
      added.take (before.perPage - before.items.length), ?_, ?_⟩
    · simp only [hitems, hperPage, List.take_append, List.take_of_length_le (Nat.le_of_lt hroom)]
    · exact Nat.le_trans (List.length_take_le _ _) (Nat.sub_le _ _)
  · exact ⟨hperPage, hcurrent, hmore, added, hitems, hadded⟩

/-- Deriving bookmarks leaves the items of a page alone. -/
theorem Page.Appends.assign {page before : Page α} (h : page.Appends before)
    (bookmarkFor : α → Except Error Bookmark) : (page.assign bookmarkFor).1.Appends before :=
  ⟨h.perPage_eq, h.current_eq, h.more, h.added⟩

/-- A list of items appends to a page with room. -/
theorem ItemList.source_appends (bookmarker : Bookmarker α) (list : ItemList α) {page : Page α}
    (hroom : page.isFull = false) :
    Run.Ensures ((list.source : Source σ α).fill bookmarker page) fun filled =>
      filled.page.Appends page := by
  have hadded : (((list.after page.current).take page.perPage).map (·.1)).length ≤ page.perPage := by
    rw [List.length_map]
    exact List.length_take_le _ _
  have htruncated : (page.edits (list.fetched page).edits).truncate.Appends page := by
    rw [list.edits_fetched]
    refine Page.appends_truncate hroom rfl rfl rfl (fun hmore => ?_) hadded
    simp [hmore]
  rw [Source.fill]
  refine Run.Ensures.bind (P := fun fetched => fetched = list.fetched page) (.pure rfl) ?_
  rintro _ rfl
  dsimp only
  split
  next e he => cases he
  · split
    · exact .note (.pure (htruncated.assign _))
    · exact .pure (htruncated.assign _)

/-! ## All collections -/

/-- **Filling a page only appends.** A collection that is built from lists of items in any way may
be asked to fill a page on which there are items already, whoever put them there and whether they
have bookmarks or not, as long as there are fewer than the page was asked to hold. Whether or not
the page can be filled, these items are still the first, in their order, and after them come no more
than as many as the page was asked to hold. Its size and its start are the same, and a page that
goes on still does. -/
theorem Collection.fill_appends (c : Collection σ α) (hlists : c.EveryLeaf Source.OfItems)
    {page : Page α} (hroom : page.items.length < page.perPage) :
    Run.Ensures (c.fill page) fun filled => filled.page.Appends page := by
  have hopen : page.isFull = false := by simpa [Page.isFull] using hroom
  have hgrown {filled : Filled α} (hextends : filled.Extends page)
      (hgrows : filled.GrowsBy page) : filled.page.Appends page :=
    Page.Extends.appends hextends hgrows
  have hfits {filled : Filled α} (hextends : filled.Extends page)
      (hle : filled.page.items.length ≤ page.perPage) : filled.page.Appends page :=
    Page.Extends.appends hextends (Nat.le_trans hle (Nat.le_add_left _ _))
  cases c with
  | leaf bookmarker source =>
    obtain ⟨items, list, -, rfl⟩ := hlists
    rw [fill]
    exact list.source_appends bookmarker hopen
  | filter inner keep options =>
    rw [fill]
    exact ((Filter.fill_extends options keep _ page).and
      (Filter.fill_grows options keep inner.bounded hopen)).mono fun _ h => hgrown h.1 h.2
  | transform inner f =>
    rw [fill]
    exact ((Transform.fill_extends f _ page).and
      (Transform.fill_grows f inner.bounded page)).mono fun _ h => hgrown h.1 h.2
  | concat sources =>
    have hrow (from? : Option String) (position : Option Bookmark) :=
      ((sources.fill_extends from? position (.refl page)).and
        (sources.fill_bounded from? position sources.bounded (Nat.le_of_lt hroom))).mono
          fun _ h => hfits h.1 h.2
    rw [fill]
    split
    · exact hrow _ _
    · exact hrow none none
  | merge sources direction =>
    rw [fill]
    refine .bind_any ?_
    rintro (e | lanes)
    · exact .pure (hgrown (.refl page) (Nat.le_add_right _ _))
    · exact .pure (hfits (Merge.fill_extends direction lanes page)
        (Merge.length_fill_le direction lanes (Nat.le_of_lt hroom)))

namespace Collection

/-- A list of one number, marked by itself. -/
def single (n : Int64) : Collection Unit Int64 :=
  .leaf (.key .int Bookmarker.acceptsKey .ascending)
    (ItemList.source ⟨.key .int Bookmarker.acceptsKey .ascending,
      ItemList.sort (.key .int Bookmarker.acceptsKey .ascending) [(n, .int n)]⟩)

/-- One number after another, sifted for those that are odd. -/
def oddNumbers : Collection Unit Int64 :=
  .filter (.concat (.cons "low" (single 1) (.cons "high" (single 3) .nil))) (fun n => n % 2 == 1)
    .sync

/-- A page of two items that holds one already, which has no bookmark. -/
def started : Page Int64 :=
  { perPage := 2, items := [8], hasMore := true, perPage_pos := by decide }

/-- What is left of one inner page overflows the page, and the first item stays in front. -/
theorem oddNumbers_appended :
    ∃ filled, (oddNumbers.fill started ⟨[], ()⟩).1 = filled ∧ filled.page.items = [8, 1, 3] ∧
      started.items.length < started.perPage ∧ filled.page.Appends started := by
  have hlists : oddNumbers.EveryLeaf Source.OfItems :=
    ⟨⟨[1], _, rfl, rfl⟩, ⟨[3], _, rfl, rfl⟩, trivial⟩
  have hroom : started.items.length < started.perPage := by decide
  refine ⟨_, rfl, ?_, hroom, oddNumbers.fill_appends hlists hroom ⟨[], ()⟩⟩
  decide +kernel

end Collection

end KeysetPaging
