import KeysetPaging.Proofs.Walk

/-! # Full pages

A page holds as many items as were asked for, unless nothing comes after it. A list of items cuts
its pages so. A transformation passes on inner pages as they are. A filter that may go on asking
ends early only when the inner collection ends, since every inner page leaves less to read. A
concatenation asks each source for just what is missing, and a merge stops before its page is full
only at a lane whose full page it has used up, which would have filled its own.
-/

namespace KeysetPaging

variable {σ α β : Type}

/-- A page of the size asked for: it holds no more items, and just as many when it goes on. -/
structure Page.Fits (perPage : Nat) (page : Page α) : Prop where
  paired : page.items.length = page.bookmarks.length
  le : page.items.length ≤ perPage
  full : page.hasMore → page.items.length = perPage

/-- Asked for any number of items, the supply answers with pages of that size. -/
def Supply.Fills (supply : Supply σ α) : Prop :=
  ∀ perPage place, 0 < perPage → Run.Ensures (supply perPage place) fun answer =>
    ∀ page, answer = .ok page → page.Fits perPage

/-- A way of filling empty pages to their size makes a supply that does. -/
theorem Supply.Fills.ofFill {fill : Page α → Run σ (Filled α)}
    (h : ∀ perPage place (hperPage : 0 < perPage),
      Run.Ensures (fill { perPage, current := place, perPage_pos := hperPage })
        fun filled => filled.page.Fits perPage) : (Supply.ofFill fill).Fills :=
  fun perPage place _ => Supply.ofFill_ensures fun hperPage =>
    (h perPage place hperPage).mono fun _ hfits _ => hfits

@[simp] theorem Page.length_items_append (page : Page α) (es : List (α × Bookmark)) :
    (page.append es).items.length = page.items.length + es.length := by
  simp [append]

@[simp] theorem Page.length_bookmarks_append (page : Page α) (es : List (α × Bookmark)) :
    (page.append es).bookmarks.length = page.bookmarks.length + es.length := by
  simp [append]

namespace Page.Fits

variable {perPage : Nat} {page : Page α}

/-- A page that fits has as many entries as items. -/
theorem length_entries (h : page.Fits perPage) : page.entries.length = page.items.length := by
  rw [entries, List.length_zip, h.paired, Nat.min_self]

end Page.Fits

/-- A page while it is filled: it has room, and is not known to go on. -/
structure Page.Growing (page : Page α) : Prop where
  room : page.isFull = false
  paired : page.items.length = page.bookmarks.length
  unmarked : page.hasMore = false

namespace Page.Growing

variable {page : Page α} {es : List (α × Bookmark)}

theorem blank {perPage : Nat} (hperPage : 0 < perPage) (place : Option Bookmark) :
    ({ perPage, current := place, perPage_pos := hperPage } : Page α).Growing :=
  ⟨Page.isFull_blank hperPage place, rfl, rfl⟩

/-- The items of the page and those that are missing are as many as were asked for. -/
theorem length_add_remaining (h : page.Growing) :
    page.items.length + page.remaining = page.perPage := by
  have hremaining := page.remaining_pos h.room
  rw [remaining] at hremaining ⊢
  omega

/-- Items that leave room keep a page growing. -/
theorem append (h : page.Growing) (hes : es.length < page.remaining) :
    (page.append es).Growing where
  room := by
    have hspace := h.length_add_remaining
    have hperPage : (page.append es).perPage = page.perPage := rfl
    rw [isFull, hperPage, length_items_append, decide_eq_false_iff_not]
    omega
  paired := by simp [h.paired]
  unmarked := h.unmarked

/-- A page that is added no more than is missing fits when it ends there. -/
theorem fits_last (h : page.Growing) (hes : es.length ≤ page.remaining) :
    (page.append es).Fits page.perPage := by
  have hspace := h.length_add_remaining
  refine ⟨by simp [h.paired], ?_, by simp [Page.append, h.unmarked]⟩
  rw [length_items_append]
  omega

/-- A page that is added just what is missing fits, whether it goes on or not. -/
theorem fits_full (h : page.Growing) (hes : es.length = page.remaining) (place : Option Bookmark) :
    (page.append es).Fits page.perPage ∧ (page.append es).markMore.Fits page.perPage ∧
      ((page.append es).markMore.resume place).Fits page.perPage := by
  have hspace := h.length_add_remaining
  have hpaired : (page.append es).items.length = (page.append es).bookmarks.length := by
    simp [h.paired]
  have hlength : (page.append es).items.length = page.perPage := by
    rw [length_items_append]
    omega
  exact ⟨⟨hpaired, Nat.le_of_eq hlength, fun _ => hlength⟩,
    ⟨hpaired, Nat.le_of_eq hlength, fun _ => hlength⟩,
    ⟨hpaired, Nat.le_of_eq hlength, fun _ => hlength⟩⟩

end Page.Growing

/-! ## Lists of items and transformed collections -/

/-- A list of items fills its pages. -/
theorem Shelf.fills (shelf : Shelf α) : (shelf.collection σ).supply.Fills := by
  rw [Shelf.collection, Collection.supply_leaf]
  refine .ofFill fun perPage place hperPage => ?_
  rw [shelf.fill_eq place hperPage]
  refine .pure ⟨by simp, ?_, ?_⟩
  · simp only [List.length_map, List.length_take]
    exact Nat.min_le_left _ _
  · intro hmore
    simp only [decide_eq_true_eq] at hmore
    simp only [List.length_map, List.length_take]
    omega

/-- A transformed collection fills its pages when the inner one does. -/
theorem Transform.fills (f : α → β) {supply : Supply σ α} (h : supply.Fills) :
    (Supply.ofFill (Transform.fill f supply)).Fills := by
  refine .ofFill fun perPage place hperPage => ?_
  have hblank := Page.Growing.blank (α := β) hperPage place
  rw [Transform.fill]
  refine (h perPage place hperPage).bind ?_
  rintro (e | sub) hsub
  · exact .pure ⟨rfl, Nat.zero_le _, by simp⟩
  · have hfits := hsub sub rfl
    have hle : (sub.entries.map fun e => (f e.1, e.2)).length ≤ perPage := by
      rw [List.length_map, hfits.length_entries]
      exact hfits.le
    refine .pure ?_
    dsimp only
    split
    next hmore =>
      have hfull : (sub.entries.map fun e => (f e.1, e.2)).length = perPage := by
        rw [List.length_map, hfits.length_entries]
        exact hfits.full hmore
      exact (hblank.fits_full hfull sub.nextBookmark).2.2
    next hmore => exact hblank.fits_last hle

/-! ## Filtered collections -/

namespace Filter

variable {course : Course α} {options : FilterOptions} {keep : α → Bool} {supply : Supply σ α}

/-- **The filling mode fills its page**, when it may make more rounds than there are items of leaves
left: each round that does not fill the page and does not end the sequence leaves fewer. -/
theorem fillRounds_fits (h : supply.Follows course) (left round : Nat) {place : Option Bookmark}
    {size : Nat} {page : Page α} (hsize : 0 < size) (hpage : page.Growing)
    (hrounds : (course place).left < left) :
    Run.Ensures (fillRounds options keep supply left round place size page)
      fun filled => filled.page.Fits page.perPage := by
  induction left generalizing round place size page with
  | zero => omega
  | succ left ih =>
    have hremaining := page.remaining_pos hpage.room
    rw [fillRounds]
    refine (h size place hsize).bind ?_
    rintro _ ⟨sub, rfl, hsub⟩
    refine .note ?_
    dsimp only
    -- Fewer items may pass than fit on the page, or just as many, or more.
    rcases Nat.lt_trichotomy (sub.entries.filter fun e => keep e.1).length (max 1 page.remaining)
      with hlt | heq | hgt
    · rw [take_of_lt hlt]
      cases hnext : sub.nextBookmark with
      | none =>
        have hends : sub.hasMore = false := by simp [hsub.goesOn, hnext]
        simp only [hends]
        exact .pure (hpage.fits_last (by omega))
      | some b =>
        have hgoesOn : sub.hasMore = true := by simp [hsub.goesOn, hnext]
        have hgains := hsub.gains b hnext
        simp only [hgoesOn]
        exact ih (round + 1) (grow_pos page.perPage_pos hsize) (hpage.append (by omega)) (by omega)
    · rw [take_of_eq heq]
      have hfull : (sub.entries.filter fun e => keep e.1).length = page.remaining := by omega
      obtain ⟨hfits, -, hresumed⟩ := hpage.fits_full hfull sub.nextBookmark
      refine .pure ?_
      dsimp only
      split
      · exact hresumed
      · exact hfits
    · rw [take_of_gt hgt]
      refine .pure (hpage.fits_full ?_ none).2.1
      rw [List.length_take]
      omega

/-- A filtered collection in the filling mode fills its pages, when it may make more rounds than
the inner collection has items of leaves. -/
theorem fills (hmode : options.mode = .filling) (h : supply.Follows course)
    (hrounds : ∀ place, (course place).left < options.maxRounds) :
    (Supply.ofFill (fill options keep supply)).Fills := by
  refine .ofFill fun perPage place hperPage => ?_
  rw [fill, hmode]
  exact fillRounds_fits h _ _ hperPage (.blank hperPage place) (hrounds place)

end Filter

/-! ## Concatenations -/

/-- **A row of collections fills its page.** Each is asked for what is missing, so a source that
goes on has filled the page, and one that ends leaves the rest to the next. -/
theorem Sources.fill_fits : ∀ (sources : Sources σ α) (from? : Option String)
    (position : Option Bookmark) {page : Page α}, (sources.Each fun _ c => c.supply.Fills) →
      page.Growing → Run.Ensures (sources.fill from? position page) fun filled =>
        filled.page.Fits page.perPage
  | .nil, _, _, page => by
    intro _ hpage
    have hspace := hpage.length_add_remaining
    rw [fill]
    exact .pure ⟨hpage.paired, by dsimp only; omega, by simp [hpage.unmarked]⟩
  | .cons label c rest, from?, position, page => by
    rintro ⟨hc, hrest⟩ hpage
    have hspace := hpage.length_add_remaining
    rw [fill]
    by_cases hskip : from?.any (· ≠ label) = true
    · rw [if_pos hskip]
      exact fill_fits rest from? position hrest hpage
    · rw [if_neg hskip]
      refine (hc page.remaining position (page.remaining_pos hpage.room)).bind ?_
      rintro (e | sub) hsub
      · exact .pure ⟨hpage.paired, by dsimp only; omega, by simp [hpage.unmarked]⟩
      · have hfits := hsub sub rfl
        have hlength : (sub.entries.map fun e => (e.1, Concat.place label e.2)).length
            = sub.items.length := by
          rw [List.length_map, hfits.length_entries]
        have hle := hfits.le
        refine .note ?_
        dsimp only
        split_ifs with hmore hfull
        · have hfull := hfits.full hmore
          exact .pure (hpage.fits_full (hlength.trans hfull) _).2.2
        · have hfull : page.perPage ≤ page.items.length + sub.items.length := by
            rw [Page.isFull, decide_eq_true_eq, Page.length_items_append, hlength] at hfull
            exact hfull
          have hes := hlength.trans (show _ = page.remaining by omega)
          cases rest.firstLabel? with
          | none => exact .pure (hpage.fits_full hes none).1
          | some next => exact .pure (hpage.fits_full hes _).2.2
        · have hroom : sub.items.length < page.remaining := by
            rw [Page.isFull, decide_eq_true_eq, Page.length_items_append, hlength] at hfull
            have hfull : ¬ page.perPage ≤ page.items.length + sub.items.length := hfull
            omega
          exact fill_fits rest none none hrest (hpage.append (by omega))

/-- A concatenation fills its pages when its sources do. -/
theorem Concat.fills {sources : Sources σ α} (h : sources.Each fun _ c => c.supply.Fills) :
    (Collection.concat sources).supply.Fills := by
  refine .ofFill fun perPage place hperPage => ?_
  have hblank := Page.Growing.blank (α := α) hperPage place
  rw [Collection.fill]
  dsimp only
  split
  · exact Sources.fill_fits sources _ _ h hblank
  · exact Sources.fill_fits sources none none h hblank

/-! ## Merges -/

namespace Merge

variable {direction : Direction}

/-- No lane gives more than all lanes together. -/
theorem length_share_le (i : Nat) (turns : Turns α) : (turns.share i).length ≤ turns.length := by
  rw [Turns.share, List.length_map]
  exact List.length_filter_le _ _

/-- A merge that gives out less than there is room for has come to lanes of which none goes
next. -/
theorem pick_left {room : Nat} {lanes : List (Lane α)}
    (h : (interleave direction room lanes).1.length < room) :
    pick direction (interleave direction room lanes).2 = none := by
  induction room generalizing lanes with
  | zero => omega
  | succ room ih =>
    rcases interleave_step direction room lanes with
      ⟨hpick, hstop, -⟩ | ⟨i, lane, e, rest, -, -, -, hgo, -⟩
    · rw [hstop]
      exact hpick
    · rw [hgo] at h ⊢
      refine ih ?_
      simpa using h

/-- A merge gives out no more than there is room for. -/
theorem length_interleave_le (room : Nat) (lanes : List (Lane α)) :
    (interleave direction room lanes).1.length ≤ room := by
  rw [interleave_take (Nat.le_refl room) lanes]
  exact List.length_take_le room _

/-- **A merge whose lanes hold full pages gives out a full page**, unless all lanes have given
everything and none goes on. -/
theorem length_interleave_eq {room : Nat} {lanes : List (Lane α)}
    (hfull : ∀ lane ∈ lanes, lane.hasMore → room ≤ lane.buffer.length)
    (hmore : (interleave direction room lanes).2.any fun lane =>
      lane.hasMore || !lane.buffer.isEmpty) :
    (interleave direction room lanes).1.length = room := by
  refine Nat.le_antisymm (length_interleave_le room lanes) (Nat.le_of_not_lt fun hlt => ?_)
  -- A starved lane has given its full page, which is as much as there was room for.
  obtain ⟨after, hafter, hstarved⟩ := exists_starved_of_pick (pick_left hlt) hmore
  obtain ⟨hdrained, hgoesOn⟩ := by simpa [Lane.isStarved] using hstarved
  obtain ⟨i, hi⟩ := List.mem_iff_getElem?.mp hafter
  obtain ⟨hindex, -⟩ := List.getElem?_eq_some_iff.mp hi
  rw [length_left] at hindex
  have hgives := gives room (List.getElem?_eq_getElem hindex) hi
  have hheld := hfull lanes[i] (List.getElem_mem _) (by rw [← hgives.hasMore]; exact hgoesOn)
  have hbuffer := congrArg List.length hgives.buffer
  rw [List.length_append, hdrained, List.length_nil] at hbuffer
  have hshare := length_share_le i (turns direction room lanes)
  have hitems : (interleave direction room lanes).1.map (·.1)
      = (turns direction room lanes).map (·.2.1) := items_interleave room lanes
  have hturns := congrArg List.length hitems
  rw [List.length_map, List.length_map] at hturns
  omega

/-- Lanes that hold full pages fill a page. -/
theorem fill_fits {lanes : List (Lane α)} {page : Page α}
    (hfull : ∀ lane ∈ lanes, lane.hasMore → page.remaining ≤ lane.buffer.length)
    (hpage : page.Growing) : (fill direction lanes page).Fits page.perPage := by
  rw [fill]
  dsimp only
  split
  next hmore => exact (hpage.fits_full (length_interleave_eq hfull hmore) _).2.2
  next hmore => exact hpage.fits_last (length_interleave_le page.remaining lanes)

end Merge

/-- The lanes of a row hold full pages when its collections fill theirs. -/
theorem Sources.lanes_full : ∀ (sources : Sources σ α) (known : List (String × Option Bookmark))
    {perPage : Nat}, (sources.Each fun _ c => c.supply.Fills) → 0 < perPage →
      Run.Ensures (sources.lanes known perPage) fun answer => ∀ lanes, answer = .ok lanes →
        ∀ lane ∈ lanes, lane.hasMore → perPage ≤ lane.buffer.length
  | .nil, known, perPage => by
    intro _ _
    rw [lanes]
    exact .pure (by simp)
  | .cons label c rest, known, perPage => by
    rintro ⟨hc, hrest⟩ hperPage
    rw [lanes]
    refine (hc perPage _ hperPage).bind ?_
    rintro (e | sub) hsub
    · exact .pure (by simp)
    · have hfits := hsub sub rfl
      refine .note ((lanes_full rest known hrest hperPage).bind ?_)
      rintro (e | lanes) hlanes
      · exact .pure (by simp)
      · refine .pure fun answer hanswer => ?_
        obtain rfl := Except.ok.inj hanswer
        refine List.forall_mem_cons.mpr ⟨fun hmore => ?_, hlanes lanes rfl⟩
        have hfull := hfits.full hmore
        have hlength := hfits.length_entries
        show perPage ≤ sub.entries.length
        omega

/-- A merge fills its pages when its sources do. -/
theorem Merge.fills {sources : Sources σ α} (direction : Direction)
    (h : sources.Each fun _ c => c.supply.Fills) :
    (Collection.merge sources direction).supply.Fills := by
  refine .ofFill fun perPage place hperPage => ?_
  rw [Collection.fill]
  refine (sources.lanes_full _ h hperPage).bind ?_
  rintro (e | lanes) hlanes
  · exact .pure ⟨rfl, Nat.zero_le _, by simp⟩
  · exact .pure (Merge.fill_fits (hlanes lanes rfl) (.blank hperPage place))

/-! ## Trees -/

mutual

/-- The number of items of the leaves of a tree. -/
def Tree.size : {α : Type} → Tree α → Nat
  | _, .leaf shelf => shelf.items.length
  | _, .filter inner _ _ _ => inner.size
  | _, .transform inner _ => inner.size
  | _, .concat branches _ => branches.size
  | _, .merge branches _ _ => branches.size

/-- The number of items of the leaves of all trees in a row. -/
def Branches.size : {labels : List String} → {α : Type} → Branches labels α → Nat
  | _, _, .nil => 0
  | _, _, .cons _ tree rest => tree.size + rest.size

end

mutual

/-- Every filter in a tree goes on asking until its page is full, and may make more than `n`
rounds. -/
def Tree.Patient (n : Nat) : {α : Type} → Tree α → Prop
  | _, .leaf _ => True
  | _, .filter inner _ options _ =>
      options.mode = .filling ∧ n < options.maxRounds ∧ inner.Patient n
  | _, .transform inner _ => inner.Patient n
  | _, .concat branches _ => branches.Patient n
  | _, .merge branches _ _ => branches.Patient n

/-- Every filter in a row of trees goes on asking until its page is full, and may make more than
`n` rounds. -/
def Branches.Patient (n : Nat) : {labels : List String} → {α : Type} → Branches labels α → Prop
  | _, _, .nil => True
  | _, _, .cons _ tree rest => tree.Patient n ∧ rest.Patient n

end

mutual

/-- From no place on is there more left of a tree than its leaves hold. -/
theorem Tree.left_le : ∀ {α : Type} (t : Tree α) (place : Option Bookmark),
    (t.course place).left ≤ t.size
  | _, .leaf shelf, place => by
    obtain ⟨before, hbefore⟩ := shelf.list.after_suffix place
    have hlength := congrArg List.length hbefore
    rw [List.length_append, shelf.entries_perm.length_eq] at hlength
    have hitems := congrArg List.length shelf.items_marked
    rw [List.length_map] at hitems
    rw [Tree.course, Tree.size, shelf.course_eq]
    show (shelf.list.after place).length ≤ _
    omega
  | _, .filter inner _ _ _, place => inner.left_le place
  | _, .transform inner _, place => inner.left_le place
  | _, .concat branches _, place => by
    rw [Tree.course, Course.concat.eq_def, Tree.size]
    split
    · exact branches.row_left_le _ _
    · exact branches.row_left_le _ _
  | _, .merge branches _ _, place => by
    rw [Tree.course]
    exact branches.merge_left_le fun label => ((Course.known place).lookup label).join

theorem Branches.row_left_le : ∀ {labels : List String} {α : Type} (branches : Branches labels α)
    (from? : Option String) (position : Option Bookmark),
      (Course.row branches.courses from? position).left ≤ branches.size
  | _, _, .nil, _, _ => Nat.zero_le _
  | _, _, .cons label tree rest, from?, position => by
    rw [Branches.courses, Branches.size, Course.row]
    split_ifs
    · exact Nat.le_trans (rest.row_left_le from? position) (Nat.le_add_left _ _)
    · exact Nat.add_le_add (tree.left_le position) (rest.row_left_le none none)

theorem Branches.merge_left_le : ∀ {labels : List String} {α : Type} (branches : Branches labels α)
    (place : String → Option Bookmark),
      ((branches.courses.map fun course => course.2 (place course.1)).map (·.left)).sum
        ≤ branches.size
  | _, _, .nil, _ => Nat.zero_le _
  | _, _, .cons label tree rest, place => by
    rw [Branches.courses, Branches.size]
    exact Nat.add_le_add (tree.left_le _) (rest.merge_left_le place)

end

mutual

/-- **A tree whose filters are patient fills its pages.** -/
theorem Tree.fills (σ : Type) : ∀ {α : Type} (t : Tree α) {n : Nat}, t.size ≤ n → t.Patient n →
    (t.collection σ).supply.Fills
  | _, .leaf shelf, _, _ => fun _ => by
    rw [Tree.collection]
    exact shelf.fills
  | _, .filter inner keep options _, n, hsize => by
    rintro ⟨hmode, hrounds, hinner⟩
    rw [Tree.size] at hsize
    rw [Tree.collection, Collection.supply_filter]
    refine Filter.fills hmode (inner.follows σ) fun place => ?_
    have hleft := inner.left_le place
    omega
  | _, .transform inner f, _, hsize => fun hinner => by
    rw [Tree.collection, Collection.supply_transform]
    exact Transform.fills f (inner.fills σ hsize hinner)
  | _, .concat branches _, _, hsize => fun hbranches => by
    rw [Tree.collection]
    exact Concat.fills (branches.fill σ hsize hbranches)
  | _, .merge branches direction _, _, hsize => fun hbranches => by
    rw [Tree.collection]
    exact Merge.fills direction (branches.fill σ hsize hbranches)

theorem Branches.fill (σ : Type) : ∀ {labels : List String} {α : Type}
    (branches : Branches labels α) {n : Nat}, branches.size ≤ n → branches.Patient n →
      (branches.sources σ).Each fun _ c => c.supply.Fills
  | _, _, .nil, _, _ => fun _ => trivial
  | _, _, .cons _ tree rest, _, hsize => by
    rintro ⟨htree, hrest⟩
    rw [Branches.size] at hsize
    exact ⟨tree.fills σ (by omega) htree, rest.fill σ (by omega) hrest⟩

end

/-- **A page is short only when nothing is left.** In a tree of which every filter goes on asking,
and may make more rounds than the leaves have items, every page that is asked for, by whatever
token, holds no more items than were asked for. A page that goes on holds just as many, and a page
that holds fewer is the last: its items are all that is read from its start. -/
theorem Tree.pages_full (t : Tree α) (hpatient : t.Patient t.size) (request : PageRequest)
    {perPage : Nat} (hsize : request.perPage = some perPage) (hperPage : 0 < perPage) :
    Run.Ensures ((t.collection σ).paginate request) fun answer => ∃ page, answer = .ok page ∧
      page.items.length ≤ perPage ∧ (page.hasMore → page.items.length = perPage) ∧
        (page.items.length < perPage → page.nextToken = none ∧
          ∃ es, (t.course ((t.collection σ).startOf request.page)).Reads es ∧
            page.items = es.map (·.1)) := by
  refine Collection.paginate_ensures request hsize hperPage ?_
  have hfollows := t.follows σ perPage ((t.collection σ).startOf request.page) hperPage
  have hfills := t.fills σ (Nat.le_refl _) hpatient perPage
    ((t.collection σ).startOf request.page) hperPage
  refine (hfollows.and hfills).mono ?_
  rintro _ ⟨⟨page, rfl, hpage⟩, hfits⟩
  obtain ⟨-, hle, hfull⟩ := hfits page rfl
  refine ⟨page, rfl, hle, hfull, fun hshort => ?_⟩
  have hends : page.nextBookmark = none := by
    have hgoesOn := hpage.goesOn
    cases hmore : page.hasMore with
    | false => simpa [hmore] using hgoesOn.symm
    | true =>
      have := hfull hmore
      omega
  have hcovers := hpage.covers
  rw [hends] at hcovers
  refine ⟨by rw [Page.nextToken, hends]; rfl, page.entries, ?_, hpage.items_eq⟩
  simpa using hcovers.goes [] rfl

/-- A page of two letters in the tree of letters is full when it goes on. -/
theorem Tree.letters_pages_full :
    Run.Ensures ((letters.collection Unit).paginate (.ofSize 2)) fun answer =>
      ∃ page, answer = .ok page ∧ page.items.length ≤ 2 ∧
        (page.hasMore → page.items.length = 2) ∧
          (page.items.length < 2 → page.nextToken = none ∧
            ∃ es, (letters.course ((letters.collection Unit).startOf none)).Reads es ∧
              page.items = es.map (·.1)) :=
  letters.pages_full ⟨⟨rfl, by decide, trivial⟩, ⟨trivial, trivial, trivial⟩, trivial⟩ (.ofSize 2)
    rfl (by decide)

end KeysetPaging
