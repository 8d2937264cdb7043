import KeysetPaging.Proofs.Course
import KeysetPaging.Proofs.Keeping
import KeysetPaging.Proofs.Shelf

/-! # Pages that follow a course

A page answers a course when the next page goes on exactly where this one leaves off. While a page
is filled, what it holds already leads from its start to what is still to be asked. Lists of items
follow the course that belongs to them, and transformed and filtered collections follow the course
that is made of the inner one.
-/

namespace KeysetPaging

variable {σ α β : Type}

/-- The page goes on exactly where the next one takes over, and the next one has less to read. -/
structure Page.Answers (course : Course α) (place : Option Bookmark) (page : Page α) : Prop where
  paired : page.items.length = page.bookmarks.length
  goesOn : page.hasMore = page.nextBookmark.isSome
  covers : course.Covers (course place) page.entries (course.ahead page.nextBookmark)
  gains : ∀ b ∈ page.nextBookmark, (course (some b)).left < (course place).left

/-- Asked at any place, the supply answers with pages that follow the course from there. -/
def Supply.Follows (course : Course α) (supply : Supply σ α) : Prop :=
  ∀ perPage place, 0 < perPage → Run.Ensures (supply perPage place) fun answer =>
    ∃ page, answer = .ok page ∧ page.Answers course place

/-- A page is filled without failure, and follows the course from its start. -/
def Filled.Answers (course : Course α) (start : Option Bookmark) (filled : Filled α) : Prop :=
  filled.failure = none ∧ filled.page.Answers course start

/-- An empty page that is filled along a course makes an answer that follows the course. -/
theorem Supply.ofFill_answers {course : Course α} {fill : Page α → Run σ (Filled α)} {perPage : Nat}
    {place : Option Bookmark} (hperPage : 0 < perPage)
    (h : Run.Ensures (fill { perPage, current := place, perPage_pos := hperPage })
      (Filled.Answers course place)) :
    Run.Ensures (Supply.ofFill fill perPage place) fun answer =>
      ∃ page, answer = .ok page ∧ page.Answers course place := by
  rw [Supply.ofFill, Page.start?, dif_pos hperPage]
  refine h.bind ?_
  rintro filled ⟨hfailure, hanswers⟩
  rw [hfailure]
  exact .pure ⟨filled.page, rfl, hanswers⟩

/-- A way of filling empty pages along a course makes a supply that follows the course. -/
theorem Supply.Follows.ofFill {course : Course α} {fill : Page α → Run σ (Filled α)}
    (h : ∀ perPage place (hperPage : 0 < perPage),
      Run.Ensures (fill { perPage, current := place, perPage_pos := hperPage })
        (Filled.Answers course place)) : (Supply.ofFill fill).Follows course :=
  fun perPage place hperPage => ofFill_answers hperPage (h perPage place hperPage)

/-- An empty page has room. -/
theorem Page.isFull_blank {perPage : Nat} (hperPage : 0 < perPage) (place : Option Bookmark) :
    ({ perPage, current := place, perPage_pos := hperPage } : Page α).isFull = false := by
  simp only [isFull, List.length_nil, decide_eq_false_iff_not]
  omega

/-- A page that is not full takes another item. -/
theorem Page.remaining_pos (page : Page α) (hroom : page.isFull = false) : 0 < page.remaining := by
  simp only [isFull, decide_eq_false_iff_not, Nat.not_le] at hroom
  rw [remaining]
  omega

/-- Items and bookmarks that belong together are added together. -/
theorem Page.entries_append {page : Page α} (hpaired : page.items.length = page.bookmarks.length)
    (es : List (α × Bookmark)) : (page.append es).entries = page.entries ++ es := by
  have hes : (es.map (·.1)).zip (es.map (·.2)) = es := (List.zip_of_prod rfl rfl).symm
  rw [entries, append, List.zip_append hpaired, hes, entries]

/-! ## Pages while they are filled -/

/-- A page while it is filled: what it holds leads from its start to what is still to be asked. -/
structure Page.Holds (course : Course α) (start : Option Bookmark) (there : Remainder α)
    (page : Page α) : Prop where
  paired : page.items.length = page.bookmarks.length
  unmarked : page.hasMore = false
  unfixed : page.resumeAt = none
  covers : course.Covers (course start) page.entries there

namespace Page.Holds

variable {course : Course α} {start : Option Bookmark} {here there : Remainder α} {page : Page α}

/-- An empty page leads nowhere. -/
theorem blank (course : Course α) {perPage : Nat} (hperPage : 0 < perPage)
    (start : Option Bookmark) :
    ({ perPage, current := start, perPage_pos := hperPage } : Page α).Holds course start
      (course start) :=
  ⟨rfl, rfl, rfl, .refl course _⟩

/-- Items that lead on are added to a page. -/
theorem append {es : List (α × Bookmark)} (h : page.Holds course start here)
    (hes : course.Covers here es there) : (page.append es).Holds course start there where
  paired := by simp [Page.append, h.paired]
  unmarked := h.unmarked
  unfixed := h.unfixed
  covers := by
    rw [Page.entries_append h.paired]
    exact h.covers.trans hes

/-- A page that leads to where nothing is left is the last. -/
theorem finish (h : page.Holds course start there) (hdone : there.Reads []) :
    page.Answers course start := by
  have hnext : page.nextBookmark = none := by simp [nextBookmark, h.unmarked]
  refine ⟨h.paired, by simp [hnext, h.unmarked], ?_, by simp [hnext]⟩
  rw [hnext]
  refine h.covers.weaken ?_ (Nat.zero_le _)
  rintro zs rfl
  exact hdone

/-- A page that leads to a place goes on there. -/
theorem resume {b : Bookmark} (h : page.Holds course start (course (some b)))
    (hgains : (course (some b)).left < (course start).left) :
    (page.markMore.resume (some b)).Answers course start :=
  ⟨h.paired, rfl, h.covers, by rintro c ⟨⟩; exact hgains⟩

/-- A page to which only the first of some items are added goes on after the last one of these. -/
theorem cut {front rest : List (α × Bookmark)} (h : page.Holds course start here)
    (hes : course.Covers here (front ++ rest) there) (hne : front ≠ []) :
    (page.append front).markMore.Answers course start := by
  obtain ⟨e, he⟩ : ∃ e, front.getLast? = some e := ⟨_, List.getLast?_eq_some_getLast hne⟩
  have hfront := hes.front he
  have happended := h.append hfront
  have hnext : (page.append front).markMore.nextBookmark = some e.2 := by
    simp [nextBookmark, markMore, Page.append, h.unfixed, he]
  have hgains : (course (some e.2)).left < (course start).left :=
    Nat.lt_of_lt_of_le (hfront.lt hne) h.covers.le
  refine ⟨happended.paired, ?_, ?_, ?_⟩
  · rw [hnext]
    rfl
  · rw [hnext]
    exact happended.covers
  · rw [hnext]
    rintro b ⟨⟩
    exact hgains

/-- A full page holds an item. -/
theorem entries_ne_nil (h : page.Holds course start there) (hfull : page.isFull) :
    page.entries ≠ [] := by
  have hpos := page.perPage_pos
  have hpaired := h.paired
  simp only [isFull, decide_eq_true_eq] at hfull
  refine List.ne_nil_of_length_pos ?_
  rw [entries, List.length_zip]
  omega

end Page.Holds

/-! ## Lists of items -/

/-- What is read of a shelf: after a place, the items whose bookmarks follow it in the order of the
bookmarker. -/
def Shelf.course (shelf : Shelf α) : Course α
  | none => .exactly shelf.list.entries
  | some place =>
      .exactly (shelf.list.entries.filter fun e => shelf.bookmarker.compare e.2 place == .gt)

/-- What is read of a shelf is what its list has after the place. -/
theorem Shelf.course_eq (shelf : Shelf α) (place : Option Bookmark) :
    shelf.course place = .exactly (shelf.list.after place) := by
  cases place with
  | none => rfl
  | some place => rw [shelf.after_some, course]

/-- Items of a shelf that are read after a place lead to what stands behind them. -/
theorem Shelf.covers (shelf : Shelf α) (place : Option Bookmark) {taken rest : List (α × Bookmark)}
    (h : shelf.list.after place = taken ++ rest) :
    shelf.course.Covers (shelf.course place) taken (.exactly rest) := by
  rw [shelf.course_eq, h]
  refine ⟨.exactly_append taken rest, ?_⟩
  rintro before e after rfl
  obtain ⟨front, hfront⟩ := shelf.list.after_suffix place
  have hsplit : shelf.list.entries = (front ++ before) ++ e :: (after ++ rest) := by
    simp [hfront, h]
  have hafter := shelf.after_mark hsplit
  have hreaches := Remainder.Reaches.exactly_append (before ++ [e]) (after ++ rest)
  rw [shelf.course_eq, hafter]
  simpa using hreaches

/-- The bookmarks that are derived for listed items are those they are listed with. -/
theorem Page.derive_of_forall {bookmarkFor : α → Except Error Bookmark} :
    ∀ {es : List (α × Bookmark)}, (∀ e ∈ es, bookmarkFor e.1 = .ok e.2) →
      derive bookmarkFor (es.map (·.1)) = (es.map (·.2), none)
  | [], _ => rfl
  | e :: es, h => by
    rw [List.map_cons, derive, h e (by simp)]
    dsimp only
    rw [derive_of_forall fun f hf => h f (by simp [hf])]
    rfl

/-- A source that answers without failure and without overflow fills a page with what it answers,
and the page is given the bookmarks that are missing. -/
theorem Source.fill_eq {bookmarker : Bookmarker α} {source : Source σ α} {page : Page α}
    {fetched : Fetched α} (hfetch : source.fetch page = pure fetched)
    (hfailure : fetched.failure = none) (hfits : (page.edits fetched.edits).overflows = false) :
    source.fill bookmarker page = pure
      { page := ((page.edits fetched.edits).assign bookmarker.bookmarkFor).1
        failure := ((page.edits fetched.edits).assign bookmarker.bookmarkFor).2 } := by
  simp [fill, hfetch, hfailure, hfits, Page.truncate]

/-- A page of a list in order holds the next items of the list, and goes on when there are more. -/
theorem ItemList.Ordered.fill_eq {list : ItemList α} (h : list.Ordered) {perPage : Nat}
    (place : Option Bookmark) (hperPage : 0 < perPage) :
    list.source.fill list.bookmarker
        ({ perPage, current := place, perPage_pos := hperPage } : Page α)
      = (pure { page := {
          perPage
          items := ((list.after place).take perPage).map (·.1)
          bookmarks := ((list.after place).take perPage).map (·.2)
          hasMore := perPage < (list.after place).length
          current := place
          perPage_pos := hperPage } } : Run σ (Filled α)) := by
  have hderive : Page.derive list.bookmarker.bookmarkFor
      (((list.after place).take perPage).map (·.1))
        = (((list.after place).take perPage).map (·.2), none) := by
    apply Page.derive_of_forall
    intro e he
    exact h.derived e (mem_entries_of_mem_after (List.mem_of_mem_take he))
  have hedits : ({ perPage, current := place, perPage_pos := hperPage } : Page α).edits
      (list.fetched { perPage, current := place, perPage_pos := hperPage }).edits
        = { perPage
            items := ((list.after place).take perPage).map (·.1)
            hasMore := perPage < (list.after place).length
            current := place
            perPage_pos := hperPage } := by
    by_cases hmore : perPage < (list.after place).length <;>
      simp [fetched, hmore, Page.edits, Page.edit, Page.extend, Page.markMore]
  have hfetch : list.source.fetch { perPage, current := place, perPage_pos := hperPage }
      = (pure (list.fetched { perPage, current := place, perPage_pos := hperPage })
          : Run σ (Fetched α)) := rfl
  rw [Source.fill_eq hfetch rfl, hedits]
  · simp only [Page.assign, List.take_nil, List.length_nil, List.drop_zero, hderive,
      List.nil_append]
  · rw [hedits]
    simp only [Page.overflows, List.length_map, List.length_take, decide_eq_false_iff_not]
    omega

/-- A page of a shelf holds the next items of its list, and goes on when there are more. -/
theorem Shelf.fill_eq (shelf : Shelf α) {perPage : Nat} (place : Option Bookmark)
    (hperPage : 0 < perPage) :
    shelf.list.source.fill shelf.bookmarker
        ({ perPage, current := place, perPage_pos := hperPage } : Page α)
      = (pure { page := {
          perPage
          items := ((shelf.list.after place).take perPage).map (·.1)
          bookmarks := ((shelf.list.after place).take perPage).map (·.2)
          hasMore := perPage < (shelf.list.after place).length
          current := place
          perPage_pos := hperPage } } : Run σ (Filled α)) :=
  shelf.ordered.fill_eq place hperPage

/-- The page of what comes after a place: as much of it as fits, and whether there is more. -/
def Page.ofRest {α : Type} (rest : List (α × Bookmark)) (place : Option Bookmark) {perPage : Nat}
    (perPage_pos : 0 < perPage) : Page α where
  perPage
  items := (rest.take perPage).map (·.1)
  bookmarks := (rest.take perPage).map (·.2)
  hasMore := perPage < rest.length
  current := place
  perPage_pos

/-- Asked after a place, a list in order answers with a page of what comes after it. -/
theorem ItemList.Ordered.supply_eq {list : ItemList α} (h : list.Ordered) {perPage : Nat}
    (place : Option Bookmark) (hperPage : 0 < perPage) :
    (Collection.leaf list.bookmarker list.source : Collection σ α).supply perPage place
      = pure (.ok (.ofRest (list.after place) place hperPage)) := by
  rw [Collection.supply_leaf, Supply.ofFill, Page.start?, dif_pos hperPage]
  dsimp only
  rw [h.fill_eq place hperPage, pure_bind]
  rfl

/-- A list in order keeps every property that its bookmarks have. -/
theorem ItemList.Ordered.keeps {list : ItemList α} (h : list.Ordered) {P : Bookmark → Prop}
    (hP : ∀ e ∈ list.entries, P e.2) :
    (Collection.leaf list.bookmarker list.source : Collection σ α).supply.Keeps P := by
  intro perPage place hplace
  by_cases hperPage : 0 < perPage
  · rw [h.supply_eq place hperPage]
    refine .pure fun page hpage => ?_
    obtain rfl := Except.ok.inj hpage
    refine ⟨⟨?_, by simp [Page.ofRest], hplace⟩, rfl⟩
    rw [Page.ofRest, List.forall_mem_map]
    exact fun e he => hP e (mem_entries_of_mem_after (List.mem_of_mem_take he))
  · rw [Collection.supply_leaf, Supply.ofFill, Page.start?, dif_neg hperPage]
    exact .pure (by simp)

/-- A list in order follows a course when the items that come after a place lead from there to the
end, by way of the bookmark of every single one. -/
theorem ItemList.Ordered.follows_of_covers {list : ItemList α} {course : Course α}
    (h : list.Ordered)
    (hcovers : ∀ place, course.Covers (course place) (list.after place) .done) :
    (Collection.leaf list.bookmarker list.source : Collection σ α).supply.Follows course := by
  rw [Collection.supply_leaf]
  refine .ofFill fun perPage place hperPage => ?_
  rw [h.fill_eq place hperPage]
  refine .pure ⟨rfl, ?_⟩
  have hcovers := hcovers place
  rw [← List.take_append_drop perPage (list.after place)] at hcovers
  have hblank := Page.Holds.blank course hperPage place
  -- A list of which no more is left than fits is read to its end.
  by_cases hmore : perPage < (list.after place).length
  · have hne : (list.after place).take perPage ≠ [] :=
      List.ne_nil_of_length_pos (by rw [List.length_take]; omega)
    have hanswers := hblank.cut hcovers hne
    simpa [Page.append, Page.markMore, hmore] using hanswers
  · have hrest : (list.after place).drop perPage = [] :=
      List.drop_eq_nil_of_le (Nat.le_of_not_lt hmore)
    rw [hrest, List.append_nil] at hcovers
    have hanswers := (hblank.append hcovers).finish rfl
    simpa [Page.append, hmore] using hanswers

/-- **A list of items follows its course.** -/
theorem Shelf.follows (shelf : Shelf α) : (shelf.collection σ).supply.Follows shelf.course :=
  shelf.ordered.follows_of_covers fun place => shelf.covers place (List.append_nil _).symm

/-! ## Transformed and filtered collections -/

/-- What is read of a transformed collection: the images of what is read of the inner one. -/
def Course.transform (f : α → β) (course : Course α) : Course β :=
  fun place => (course place).map fun e => (f e.1, e.2)

/-- What is read of a filtered collection: what passes of what is read of the inner one. -/
def Course.filter (keep : α → Bool) (course : Course α) : Course α :=
  fun place => (course place).filter keep

variable {course : Course α} {here there : Remainder α} {es : List (α × Bookmark)}

theorem Course.Covers.transform (f : α → β) (h : course.Covers here es there) :
    (course.transform f).Covers (here.map fun e => (f e.1, e.2)) (es.map fun e => (f e.1, e.2))
      (there.map fun e => (f e.1, e.2)) := by
  rw [← List.filterMap_eq_map]
  refine h.filterMap (T := Remainder.map fun e => (f e.1, e.2)) (n := 0) ?_ (fun _ => rfl) ?_
  · rintro here there es hgoes _ ⟨zs, hzs, rfl⟩
    exact ⟨es ++ zs, hgoes zs hzs, by simp⟩
  · rintro e _ ⟨⟩
    rfl

theorem Course.Covers.filter (keep : α → Bool) (h : course.Covers here es there) :
    (course.filter keep).Covers (here.filter keep) (es.filter fun e => keep e.1)
      (there.filter keep) := by
  rw [← List.filterMap_eq_filter]
  refine h.filterMap (T := Remainder.filter keep) (n := 0) ?_ (fun _ => rfl) ?_
  · rintro here there es hgoes _ ⟨zs, hzs, rfl⟩
    exact ⟨es ++ zs, hgoes zs hzs, by simp⟩
  · rintro e f he
    obtain rfl : e = f := (Option.guard_eq_some_iff.mp he).1
    rfl

/-- **A transformed collection follows its course.** -/
theorem Transform.follows (f : α → β) {supply : Supply σ α} (h : supply.Follows course) :
    (Supply.ofFill (Transform.fill f supply)).Follows (course.transform f) := by
  refine .ofFill fun perPage place hperPage => ?_
  rw [Transform.fill]
  refine (h perPage place hperPage).bind ?_
  rintro _ ⟨sub, rfl, hsub⟩
  have hblank := Page.Holds.blank (course.transform f) hperPage place
  have happended := hblank.append (hsub.covers.transform f)
  refine .pure ⟨rfl, ?_⟩
  cases hnext : sub.nextBookmark with
  | none =>
    have hends : sub.hasMore = false := by simp [hsub.goesOn, hnext]
    rw [hnext] at happended
    simpa [hends] using happended.finish ⟨[], rfl, rfl⟩
  | some b =>
    have hgoesOn : sub.hasMore = true := by simp [hsub.goesOn, hnext]
    rw [hnext] at happended
    simpa [hgoesOn] using happended.resume (b := b) (hsub.gains b hnext)

namespace Filter

variable {options : FilterOptions} {keep : α → Bool} {supply : Supply σ α} {start : Option Bookmark}

/-- What is taken of an inner page when it does not fill the page: all of it. -/
theorem take_of_lt {kept : List (α × Bookmark)} {sub page : Page α}
    (h : kept.length < max 1 page.remaining) : take kept sub page = (page.append kept, false) := by
  rw [take, List.take_of_length_le (by omega), if_neg (by omega), if_neg (by omega)]

/-- What is taken of an inner page when it fills the page just so: all of it. -/
theorem take_of_eq {kept : List (α × Bookmark)} {sub page : Page α}
    (h : kept.length = max 1 page.remaining) : take kept sub page
      = (if sub.hasMore then (page.append kept).markMore.resume sub.nextBookmark
          else page.append kept, true) := by
  rw [take, List.take_of_length_le (by omega), if_neg (by omega), if_pos (by omega)]

/-- What is taken of an inner page when there is more than fits: as much as fits, and an item at
least. -/
theorem take_of_gt {kept : List (α × Bookmark)} {sub page : Page α}
    (h : max 1 page.remaining < kept.length) : take kept sub page
      = ((page.append (kept.take (max 1 page.remaining))).markMore, true) := by
  rw [take, if_pos h]

theorem grow_pos {perPage size : Nat} (hperPage : 0 < perPage) (hsize : 0 < size) :
    0 < grow options perPage size := by
  rw [grow]
  omega

/-- What passes of an inner page is added to a page. Either the inner collection has ended, and so
has the outer one, or the page leads to where the inner one goes on, further on than its start. -/
theorem append_kept {place : Option Bookmark} {page sub : Page α}
    (hpage : page.Holds (course.filter keep) start (course.filter keep place))
    (hsub : sub.Answers course place) :
    (sub.hasMore = false ∧ (page.append (sub.entries.filter fun e => keep e.1)).Answers
        (course.filter keep) start) ∨
      ∃ b, sub.hasMore = true ∧ sub.nextBookmark = some b ∧
        (page.append (sub.entries.filter fun e => keep e.1)).Holds (course.filter keep) start
          (course.filter keep (some b)) ∧ (course (some b)).left < (course start).left := by
  have happended := hpage.append (hsub.covers.filter keep)
  have hgoesOn := hsub.goesOn
  cases hnext : sub.nextBookmark with
  | none =>
    rw [hnext] at happended hgoesOn
    exact Or.inl ⟨hgoesOn, happended.finish ⟨[], rfl, rfl⟩⟩
  | some b =>
    rw [hnext] at happended hgoesOn
    have hgains := Nat.lt_of_lt_of_le (hsub.gains b hnext) hpage.covers.le
    exact Or.inr ⟨b, hgoesOn, rfl, happended, hgains⟩

/-- **The filling mode follows the course of what passes.** After some rounds the page holds what
passed so far and leads to the place that is asked next. When no round is left, at least one was
made, so the next page starts further on than this one. -/
theorem fillRounds_follows (h : supply.Follows course) (left round : Nat)
    {place : Option Bookmark} {size : Nat} {page : Page α} (hsize : 0 < size)
    (hpage : page.Holds (course.filter keep) start (course.filter keep place))
    (hleft : left = 0 → ∃ b, place = some b ∧ (course (some b)).left < (course start).left) :
    Run.Ensures (fillRounds options keep supply left round place size page)
      (Filled.Answers (course.filter keep) start) := by
  -- The invariant over the rounds is that the page leads to the place that is asked next.
  induction left generalizing round place size page with
  | zero =>
    obtain ⟨b, rfl, hgains⟩ := hleft rfl
    exact .note (.pure ⟨rfl, hpage.resume hgains⟩)
  | succ left ih =>
    rw [fillRounds]
    refine (h size place hsize).bind ?_
    rintro _ ⟨sub, rfl, hsub⟩
    refine .note ?_
    dsimp only
    -- Fewer items may pass than fit on the page, or just as many, or more.
    rcases Nat.lt_trichotomy (sub.entries.filter fun e => keep e.1).length (max 1 page.remaining)
      with hlt | heq | hgt
    · rw [take_of_lt hlt]
      rcases append_kept hpage hsub with ⟨hends, hanswers⟩ | ⟨b, hgoesOn, hnext, hholds, hgains⟩
      · simp only [hends]
        exact .pure ⟨rfl, hanswers⟩
      · simp only [hgoesOn, hnext]
        exact ih (round + 1) (grow_pos page.perPage_pos hsize) hholds fun _ => ⟨b, rfl, hgains⟩
    · rw [take_of_eq heq]
      rcases append_kept hpage hsub with ⟨hends, hanswers⟩ | ⟨b, hgoesOn, hnext, hholds, hgains⟩
      · simp only [hends]
        exact .pure ⟨rfl, hanswers⟩
      · simp only [hgoesOn, hnext]
        exact .pure ⟨rfl, hholds.resume hgains⟩
    · -- The page is cut, and goes on after its own last item, not after the inner page.
      rw [take_of_gt hgt]
      have hkept := hsub.covers.filter keep
      rw [← List.take_append_drop (max 1 page.remaining)
        (sub.entries.filter fun e => keep e.1)] at hkept
      refine .pure ⟨rfl, hpage.cut hkept (List.ne_nil_of_length_pos ?_)⟩
      rw [List.length_take]
      omega

/-- **The sifting mode follows the course of what passes.** A page that still has nothing goes on
asking, and the rounds that are left are counted as in the filling mode. -/
theorem siftRounds_follows (h : supply.Follows course) (left round : Nat)
    {place : Option Bookmark} {page : Page α}
    (hpage : page.Holds (course.filter keep) start (course.filter keep place))
    (hleft : left = 0 → ∃ b, place = some b ∧ (course (some b)).left < (course start).left) :
    Run.Ensures (siftRounds options keep supply left round place page)
      (Filled.Answers (course.filter keep) start) := by
  induction left generalizing round place page with
  | zero =>
    obtain ⟨b, rfl, hgains⟩ := hleft rfl
    exact .note (.pure ⟨rfl, hpage.resume hgains⟩)
  | succ left ih =>
    rw [siftRounds]
    refine (h page.perPage place page.perPage_pos).bind ?_
    rintro _ ⟨sub, rfl, hsub⟩
    refine .note ?_
    dsimp only
    rcases append_kept hpage hsub with ⟨hends, hanswers⟩ | ⟨b, hgoesOn, hnext, hholds, hgains⟩
    · rw [if_pos (by simp [hends])]
      exact .pure ⟨rfl, hanswers⟩
    · rw [if_neg (by simp [hgoesOn]), hnext]
      split_ifs
      · exact .pure ⟨rfl, hholds.resume hgains⟩
      · exact ih (round + 1) hholds fun _ => ⟨b, rfl, hgains⟩

/-- **A filtered collection follows its course**, when it may ask for an inner page at all. -/
theorem follows (options : FilterOptions) (keep : α → Bool) (hrounds : 0 < options.maxRounds)
    (h : supply.Follows course) :
    (Supply.ofFill (fill options keep supply)).Follows (course.filter keep) := by
  refine .ofFill fun perPage place hperPage => ?_
  have hblank := Page.Holds.blank (course.filter keep) hperPage place
  rw [fill]
  split
  · exact fillRounds_follows h _ _ hperPage hblank (by omega)
  · exact siftRounds_follows h _ _ hblank (by omega)

end Filter

end KeysetPaging
