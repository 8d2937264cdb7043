import KeysetPaging.Proofs.Paginate
import KeysetPaging.Proofs.Serving
import Mathlib

/-! # What leaves are asked for

A collection asks its leaves for pages while it fills its own: a filter asks in every round, a merge
asks once for every lane, a concatenation asks one source after another. The same collection over
watched leaves does so too and writes down every visit of a leaf. Watching changes nothing, so the
visits are those of the collection itself: none is made at a place that is foreign to the leaf, and
a request without a size makes none at all.
-/

namespace KeysetPaging

variable {σ α β : Type}

/-! ## Watched sources -/

/-- A question that a leaf is asked: the place, and the check that the leaf's bookmarker makes. -/
structure Visit where
  place : Option Bookmark
  accepts : Bookmark → Bool

/-- The leaf is asked for its first page, or for a page after a place of its own. -/
def Visit.Allowed (visit : Visit) : Prop :=
  ∀ b ∈ visit.place, visit.accepts b

/-- The state of sources, with the visits so far, the latest first. -/
structure Watched (σ : Type) where
  sources : σ
  visits : List Visit

/-- Every visit so far was at an allowed place. -/
def Watched.Clean (state : Watched σ) : Prop :=
  ∀ visit ∈ state.visits, visit.Allowed

/-- A journal without the record of visits. -/
def Journal.unwatched (j : Journal (Watched σ)) : Journal σ :=
  ⟨j.events, j.state.sources⟩

/-- A run over sources, as one over watched sources that makes no visit. -/
def Run.unseen (run : Run σ α) : Run (Watched σ) α := fun j =>
  ((run j.unwatched).1, ⟨(run j.unwatched).2.events,
    { j.state with sources := (run j.unwatched).2.state }⟩)

/-- A source that writes down what it is asked before it is asked. -/
def Source.watched (bookmarker : Bookmarker α) (source : Source σ α) : Source (Watched σ) α where
  fetch page := do
    Run.change fun state =>
      { state with visits := ⟨page.current, bookmarker.accepts⟩ :: state.visits }
    (source.fetch page).unseen

mutual

/-- A collection whose leaves are watched. -/
def Collection.watched {σ : Type} : {α : Type} → Collection σ α → Collection (Watched σ) α
  | _, .leaf bookmarker source => .leaf bookmarker (source.watched bookmarker)
  | _, .filter inner keep options => .filter inner.watched keep options
  | _, .transform inner f => .transform inner.watched f
  | _, .concat sources => .concat sources.watched
  | _, .merge sources direction => .merge sources.watched direction

/-- A row of collections whose leaves are watched. -/
def Sources.watched {σ : Type} : {α : Type} → Sources σ α → Sources (Watched σ) α
  | _, .nil => .nil
  | _, .cons label collection rest => .cons label collection.watched rest.watched

end

/-- The visits of leaves while a page is asked for, in the order in which they are made. -/
def Collection.visits (c : Collection σ α) (request : PageRequest) (j : Journal σ) : List Visit :=
  (c.watched.paginate request ⟨j.events, ⟨j.state, []⟩⟩).2.state.visits.reverse

/-! ## Watching changes nothing -/

/-- Apart from the record of visits, the first run is the second one: it gives the same answer,
notes the same events and leaves the sources in the same state. -/
def Run.Mirrors (watched : Run (Watched σ) α) (run : Run σ α) : Prop :=
  ∀ j, (watched j).1 = (run j.unwatched).1 ∧ (watched j).2.unwatched = (run j.unwatched).2

namespace Run.Mirrors

theorem pure (a : α) : Mirrors (σ := σ) (pure a) (pure a) :=
  fun _ => ⟨rfl, rfl⟩

theorem bind {watched : Run (Watched σ) α} {run : Run σ α} {next : α → Run (Watched σ) β}
    {next' : α → Run σ β} (hrun : Mirrors watched run) (hnext : ∀ a, Mirrors (next a) (next' a)) :
    Mirrors (watched >>= next) (run >>= next') := by
  intro j
  obtain ⟨hanswer, hjournal⟩ := hrun j
  change (next (watched j).1 (watched j).2).1 = (next' (run j.unwatched).1 (run j.unwatched).2).1 ∧
    (next (watched j).1 (watched j).2).2.unwatched =
      (next' (run j.unwatched).1 (run j.unwatched).2).2
  rw [← hanswer, ← hjournal]
  exact hnext _ _

theorem note (e : Event) : Mirrors (σ := σ) (Run.note e) (Run.note e) :=
  fun _ => ⟨rfl, rfl⟩

end Run.Mirrors

/-- A watched source answers as the source does. -/
theorem Source.fetch_watched (bookmarker : Bookmarker α) (source : Source σ α) (page : Page α) :
    Run.Mirrors ((source.watched bookmarker).fetch page) (source.fetch page) :=
  fun _ => ⟨rfl, rfl⟩

/-- One supply answers as the other does, apart from the record of visits. -/
def Supply.Mirrors (watched : Supply (Watched σ) α) (supply : Supply σ α) : Prop :=
  ∀ perPage place, Run.Mirrors (watched perPage place) (supply perPage place)

theorem Supply.Mirrors.ofFill {watched : Page α → Run (Watched σ) (Filled α)}
    {fill : Page α → Run σ (Filled α)} (h : ∀ page, Run.Mirrors (watched page) (fill page)) :
    Supply.Mirrors (.ofFill watched) (.ofFill fill) := by
  intro perPage place
  rw [Supply.ofFill, Supply.ofFill]
  split
  · exact .pure _
  · refine (h _).bind fun filled => ?_
    split <;> exact .pure _

/-- A leaf fills a page as it does unwatched. -/
theorem Source.fill_watched (bookmarker : Bookmarker α) (source : Source σ α) (page : Page α) :
    Run.Mirrors ((source.watched bookmarker).fill bookmarker page)
      (source.fill bookmarker page) := by
  rw [fill, fill]
  refine (source.fetch_watched bookmarker page).bind fun fetched => ?_
  dsimp only
  split
  · exact .pure _
  · split
    · exact (Run.Mirrors.note _).bind fun _ => .pure _
    · exact .pure _

theorem Transform.fill_mirrors (f : α → β) {watched : Supply (Watched σ) α} {supply : Supply σ α}
    (h : watched.Mirrors supply) (page : Page β) :
    Run.Mirrors (fill f watched page) (fill f supply page) := by
  rw [fill, fill]
  refine (h _ _).bind ?_
  rintro (e | sub) <;> exact .pure _

namespace Filter

variable {options : FilterOptions} {keep : α → Bool} {watched : Supply (Watched σ) α}
  {supply : Supply σ α}

theorem fillRounds_mirrors (h : watched.Mirrors supply) (left round : Nat)
    (place : Option Bookmark) (size : Nat) (page : Page α) :
    Run.Mirrors (fillRounds options keep watched left round place size page)
      (fillRounds options keep supply left round place size page) := by
  induction left generalizing round place size page with
  | zero => exact (Run.Mirrors.note _).bind fun _ => .pure _
  | succ left ih =>
    rw [fillRounds, fillRounds]
    refine (h size place).bind ?_
    rintro (e | sub)
    · exact .pure _
    · refine (Run.Mirrors.note _).bind fun _ => ?_
      dsimp only
      split
      · exact .pure _
      · exact ih _ _ _ _

theorem siftRounds_mirrors (h : watched.Mirrors supply) (left round : Nat)
    (place : Option Bookmark) (page : Page α) :
    Run.Mirrors (siftRounds options keep watched left round place page)
      (siftRounds options keep supply left round place page) := by
  induction left generalizing round place page with
  | zero => exact (Run.Mirrors.note _).bind fun _ => .pure _
  | succ left ih =>
    rw [siftRounds, siftRounds]
    refine (h page.perPage place).bind ?_
    rintro (e | sub)
    · exact .pure _
    · refine (Run.Mirrors.note _).bind fun _ => ?_
      dsimp only
      split_ifs
      · exact .pure _
      · exact .pure _
      · exact ih _ _ _

theorem fill_mirrors (h : watched.Mirrors supply) (page : Page α) :
    Run.Mirrors (fill options keep watched page) (fill options keep supply page) := by
  rw [fill, fill]
  split
  · exact fillRounds_mirrors h _ _ _ _ page
  · exact siftRounds_mirrors h _ _ _ page

end Filter

/-- Watching changes no labels. -/
@[simp] theorem Sources.labels_watched : ∀ sources : Sources σ α,
    sources.watched.labels = sources.labels
  | .nil => by rw [watched, labels, labels]
  | .cons label c rest => by rw [watched, labels, labels, labels_watched rest]

@[simp] theorem Sources.firstLabel?_watched (sources : Sources σ α) :
    sources.watched.firstLabel? = sources.firstLabel? := by
  cases sources <;> rw [watched] <;> rfl

mutual

/-- A collection whose leaves are watched fills a page as it does unwatched. -/
theorem Collection.fill_watched {σ : Type} : ∀ {α : Type} (c : Collection σ α) (page : Page α),
    Run.Mirrors (c.watched.fill page) (c.fill page)
  | _, .leaf bookmarker source, page => by
    rw [Collection.watched, Collection.fill, Collection.fill]
    exact source.fill_watched bookmarker page
  | _, .filter inner keep options, page => by
    rw [Collection.watched, Collection.fill, Collection.fill]
    exact Filter.fill_mirrors (.ofFill inner.fill_watched) page
  | _, .transform inner f, page => by
    rw [Collection.watched, Collection.fill, Collection.fill]
    exact Transform.fill_mirrors f (.ofFill inner.fill_watched) page
  | _, .concat sources, page => by
    rw [Collection.watched, Collection.fill, Collection.fill, Sources.labels_watched]
    split
    · exact sources.fill_watched _ _ page
    · exact sources.fill_watched none none page
  | _, .merge sources direction, page => by
    rw [Collection.watched, Collection.fill, Collection.fill]
    refine (sources.lanes_watched _ page.perPage).bind ?_
    rintro (e | lanes) <;> exact .pure _

theorem Sources.fill_watched {σ : Type} : ∀ {α : Type} (sources : Sources σ α)
    (from? : Option String) (position : Option Bookmark) (page : Page α),
    Run.Mirrors (sources.watched.fill from? position page) (sources.fill from? position page)
  | _, .nil, from?, position, page => by
    rw [Sources.watched, Sources.fill, Sources.fill]
    exact .pure _
  | _, .cons label c rest, from?, position, page => by
    rw [Sources.watched, Sources.fill, Sources.fill]
    split
    · exact rest.fill_watched from? position page
    · refine ((Supply.Mirrors.ofFill c.fill_watched) _ _).bind ?_
      rintro (e | sub)
      · exact .pure _
      · refine (Run.Mirrors.note _).bind fun _ => ?_
        rw [Sources.firstLabel?_watched]
        dsimp only
        split_ifs
        · exact .pure _
        · split <;> exact .pure _
        · exact rest.fill_watched none none _

theorem Sources.lanes_watched {σ : Type} : ∀ {α : Type} (sources : Sources σ α)
    (known : List (String × Option Bookmark)) (perPage : Nat),
    Run.Mirrors (sources.watched.lanes known perPage) (sources.lanes known perPage)
  | _, .nil, known, perPage => by
    rw [Sources.watched, Sources.lanes, Sources.lanes]
    exact .pure _
  | _, .cons label c rest, known, perPage => by
    rw [Sources.watched, Sources.lanes, Sources.lanes]
    refine ((Supply.Mirrors.ofFill c.fill_watched) _ _).bind ?_
    rintro (e | sub)
    · exact .pure _
    · refine (Run.Mirrors.note _).bind fun _ => (rest.lanes_watched known perPage).bind ?_
      rintro (e | lanes) <;> exact .pure _

end

mutual

/-- Watching changes no place of a collection. -/
@[simp] theorem Collection.accepts_watched {σ : Type} : ∀ {α : Type} (c : Collection σ α)
    (b : Bookmark), c.watched.accepts b = c.accepts b
  | _, .leaf bookmarker source, b => by
    rw [Collection.watched, Collection.accepts, Collection.accepts]
  | _, .filter inner _ _, b => by
    rw [Collection.watched, Collection.accepts, Collection.accepts, inner.accepts_watched]
  | _, .transform inner _, b => by
    rw [Collection.watched, Collection.accepts, Collection.accepts, inner.accepts_watched]
  | _, .concat sources, b => by
    unfold Collection.watched Collection.accepts
    split
    · exact sources.accepts_watched _ _
    · rfl
  | _, .merge sources _, b => by
    unfold Collection.watched Collection.accepts
    split
    · exact List.all_congr rfl fun position => sources.accepts_watched position.1 position.2
    · rfl

theorem Sources.accepts_watched {σ : Type} : ∀ {α : Type} (sources : Sources σ α)
    (label : String) (position : Option Bookmark),
    sources.watched.accepts label position = sources.accepts label position
  | _, .nil, _, _ => by rw [Sources.watched, Sources.accepts, Sources.accepts]
  | _, .cons label c rest, wanted, position => by
    unfold Sources.watched Sources.accepts
    rw [rest.accepts_watched]
    split
    · cases position with
      | none => rfl
      | some b => exact c.accepts_watched b
    · rfl

end

/-- A token is read as it is unwatched, and names the same place. -/
theorem Collection.placeOf_watched (c : Collection σ α) (token : Option String) :
    Run.Mirrors (c.watched.placeOf token) (c.placeOf token) := by
  rcases token with - | token
  · exact .pure none
  · have hread : Run.Mirrors (σ := σ) (readToken token) (readToken token) := by
      rw [readToken, readToken]
      split
      · exact .pure _
      · exact (Run.Mirrors.note _).bind fun _ => .pure _
    rw [placeOf, placeOf]
    refine hread.bind ?_
    rintro (_ | b)
    · exact .pure _
    · dsimp only
      rw [c.accepts_watched]
      split
      · exact .pure _
      · exact (Run.Mirrors.note _).bind fun _ => .pure _

/-- **Watching changes nothing.** A request to a collection whose leaves are watched has the same
answer, notes the same events and leaves the sources in the same state. -/
theorem Collection.paginate_watched (c : Collection σ α) (request : PageRequest) :
    Run.Mirrors (c.watched.paginate request) (c.paginate request) := by
  rw [paginate, paginate]
  split
  · exact .pure _
  · exact .pure _
  next size _ _ =>
    have hanswer : ∀ {next : Except Error (Page α) → Run (Watched σ) (Except Error (Page α))}
        {next' : Except Error (Page α) → Run σ (Except Error (Page α))},
        (∀ answer, Run.Mirrors (next answer) (next' answer)) →
          Run.Mirrors
            (c.watched.placeOf request.page >>= fun place =>
              Supply.ofFill c.watched.fill size place >>= next)
            (c.placeOf request.page >>= fun place => Supply.ofFill c.fill size place >>= next') :=
      fun hnext => (c.placeOf_watched request.page).bind fun place =>
        (Supply.Mirrors.ofFill c.fill_watched size place).bind hnext
    cases request.totalEntries with
    | none =>
      refine hanswer ?_
      rintro (e | page)
      · exact .pure _
      · exact (Run.Mirrors.note _).bind fun _ => .pure _
    | some total =>
      refine (Run.Mirrors.note _).bind fun _ => hanswer ?_
      rintro (e | page)
      · exact .pure _
      · exact (Run.Mirrors.note _).bind fun _ => .pure _

mutual

/-- The leaves of a watched collection are the watched leaves of the collection. -/
theorem Collection.EveryLeaf.watched {σ : Type} {T : ∀ {α : Type}, Bookmarker α → Source σ α → Prop}
    {U : ∀ {α : Type}, Bookmarker α → Source (Watched σ) α → Prop}
    (h : ∀ {α : Type} (bookmarker : Bookmarker α) (source : Source σ α),
      T bookmarker source → U bookmarker (source.watched bookmarker)) :
    ∀ {α : Type} (c : Collection σ α), c.EveryLeaf T → c.watched.EveryLeaf U
  | _, .leaf bookmarker source => h bookmarker source
  | _, .filter inner _ _ => Collection.EveryLeaf.watched h inner
  | _, .transform inner _ => Collection.EveryLeaf.watched h inner
  | _, .concat sources => Sources.EveryLeaf.watched h sources
  | _, .merge sources _ => Sources.EveryLeaf.watched h sources

theorem Sources.EveryLeaf.watched {σ : Type} {T : ∀ {α : Type}, Bookmarker α → Source σ α → Prop}
    {U : ∀ {α : Type}, Bookmarker α → Source (Watched σ) α → Prop}
    (h : ∀ {α : Type} (bookmarker : Bookmarker α) (source : Source σ α),
      T bookmarker source → U bookmarker (source.watched bookmarker)) :
    ∀ {α : Type} (sources : Sources σ α), sources.EveryLeaf T → sources.watched.EveryLeaf U
  | _, .nil => id
  | _, .cons _ c rest => fun hT =>
    ⟨Collection.EveryLeaf.watched h c hT.1, Sources.EveryLeaf.watched h rest hT.2⟩

end

mutual

theorem Collection.Labelled.watched {σ : Type} : ∀ {α : Type} (c : Collection σ α),
    c.Labelled → c.watched.Labelled
  | _, .leaf _ _ => id
  | _, .filter inner _ _ => Collection.Labelled.watched inner
  | _, .transform inner _ => Collection.Labelled.watched inner
  | _, .concat sources => fun h =>
    ⟨(congrArg _ sources.labels_watched).trans h.1, Sources.Labelled.watched sources h.2⟩
  | _, .merge sources _ => fun h =>
    ⟨(congrArg _ sources.labels_watched).trans h.1, Sources.Labelled.watched sources h.2⟩

theorem Sources.Labelled.watched {σ : Type} : ∀ {α : Type} (sources : Sources σ α),
    sources.Labelled → sources.watched.Labelled
  | _, .nil => id
  | _, .cons _ c rest => fun h =>
    ⟨Collection.Labelled.watched c h.1, Sources.Labelled.watched rest h.2⟩

end

/-! ## Leaves that serve their own places -/

/-- Asked for a page of some size, from the start or after a place that its bookmarker accepts, a
source does not fail, and every item that it puts on the page has a bookmark, which the bookmarker
accepts. Nothing is expected of the source at any other place. -/
def Source.ServesOwn (bookmarker : Bookmarker α) (source : Source σ α) : Prop :=
  ∀ perPage place page, Page.start? perPage place = .ok page → (∀ b ∈ place, bookmarker.accepts b) →
    Run.Ensures (source.fetch page) fun fetched => fetched.failure = none ∧
      ∀ item ∈ (page.edits fetched.edits).items,
        ∃ b, bookmarker.bookmarkFor item = .ok b ∧ bookmarker.accepts b

/-- Items that all have a bookmark are all given one. -/
theorem Page.derive_succeeds {bookmarkFor : α → Except Error Bookmark} : ∀ {items : List α},
    (∀ item ∈ items, ∃ b, bookmarkFor item = .ok b) → (derive bookmarkFor items).2 = none
  | [], _ => rfl
  | item :: rest, h => by
    obtain ⟨b, hb⟩ := h item (by simp)
    rw [derive, hb]
    exact derive_succeeds fun other hother => h other (List.mem_cons_of_mem item hother)

/-- A page whose items all have a bookmark is given all that are missing. -/
theorem Page.assign_succeeds {bookmarkFor : α → Except Error Bookmark} {page : Page α}
    (h : ∀ item ∈ page.items, ∃ b, bookmarkFor item = .ok b) :
    (page.assign bookmarkFor).2 = none :=
  derive_succeeds fun item hitem => h item (List.mem_of_mem_drop hitem)

namespace Source.ServesOwn

variable {bookmarker : Bookmarker α} {source : Source σ α}

/-- A source that serves its own places answers with such places. -/
theorem keepsAccepted (h : source.ServesOwn bookmarker) : source.KeepsAccepted bookmarker := by
  intro perPage place hplace
  rw [Supply.ofFill]
  split
  · exact .pure (by simp)
  next page hpage =>
    have hserves := h perPage place page hpage hplace
    obtain ⟨hperPage, rfl⟩ := Page.start?_eq_ok hpage
    refine (source.fill_keeps (.start hperPage hplace) (hserves.mono ?_)).bind ?_
    · rintro fetched ⟨-, hitems⟩ item hitem b hb
      obtain ⟨b', hb', haccepts⟩ := hitems item hitem
      obtain rfl := Except.ok.inj (hb'.symm.trans hb)
      exact haccepts
    · rintro filled hfilled
      split
      · exact .pure (by simp)
      · refine .pure fun page hpage => ?_
        obtain rfl := Except.ok.inj hpage
        exact hfilled

/-- A source that serves its own places answers at them, and preserves what its fetches preserve of
the state. -/
theorem servesAccepted {I : σ → Prop} (h : source.ServesOwn bookmarker)
    (hstate : ∀ page : Page α, (∀ b ∈ page.current, bookmarker.accepts b) →
      Run.Upholds I (source.fetch page) fun _ => True) :
    source.ServesAccepted I bookmarker := by
  intro perPage place hperPage hplace
  have hserves := h perPage place _ (dif_pos hperPage) hplace
  rw [Supply.ofFill, Page.start?, dif_pos hperPage]
  refine Run.Upholds.bind (P := Filled.Succeeds) ?_ fun filled hfilled => ?_
  · rw [fill]
    refine ((hstate _ hplace).and hserves).bind ?_
    rintro fetched ⟨-, hfailure, hitems⟩
    rw [hfailure]
    have hassigned := Page.assign_succeeds fun item hitem =>
      (hitems item (Page.mem_items_of_truncate hitem)).imp fun _ hb => hb.1
    dsimp only
    split
    · exact .note (.pure hassigned)
    · exact .pure hassigned
  · rw [show filled.failure = none from hfilled]
    exact .pure ⟨filled.page, rfl⟩

/-- Watched, a source still serves its own places. -/
theorem watched (h : source.ServesOwn bookmarker) :
    (source.watched bookmarker).ServesOwn bookmarker := by
  intro perPage place page hpage hplace j
  rw [(source.fetch_watched bookmarker page j).1]
  exact h perPage place page hpage hplace j.unwatched

end Source.ServesOwn

/-- A watched source that is asked at its own places records only such visits. -/
theorem Source.watched_clean (bookmarker : Bookmarker α) (source : Source σ α) {page : Page α}
    (hplace : ∀ b ∈ page.current, bookmarker.accepts b) :
    Run.Upholds Watched.Clean ((source.watched bookmarker).fetch page) fun _ => True := by
  intro j hclean
  refine ⟨trivial, ?_⟩
  change ∀ visit ∈ ⟨page.current, bookmarker.accepts⟩ :: j.state.visits, visit.Allowed
  exact List.forall_mem_cons.mpr ⟨hplace, hclean⟩

/-! ## Requests -/

/-- A token names a place that the collection accepts, or none, and reading it asks no source. -/
theorem Collection.placeOf_upholds (I : σ → Prop) (c : Collection σ α) (token : Option String) :
    Run.Upholds I (c.placeOf token) fun place => ∀ b ∈ place, c.accepts b := by
  rcases token with - | token
  · exact .pure (by simp)
  · rw [placeOf]
    refine Run.Upholds.bind (P := fun _ => True) ?_ ?_
    · rw [readToken]
      split
      · exact .pure trivial
      · exact .note (.pure trivial)
    · rintro (_ | b) -
      · exact .pure (by simp)
      · dsimp only
        split_ifs with haccepts
        · exact .pure (by simpa using haccepts)
        · exact .note (.pure (by simp))

/-- A request with a size is answered when the collection serves the places that it accepts. -/
theorem Collection.paginate_upholds {I : σ → Prop} {c : Collection σ α}
    (hc : c.supply.Serves I fun b => c.accepts b) (request : PageRequest) {size : Nat}
    (hsize : request.perPage = some (size + 1)) :
    Run.Upholds I (c.paginate request) fun answer => ∃ page, answer = .ok page := by
  have hanswer : ∀ {next : Except Error (Page α) → Run σ (Except Error (Page α))},
      (∀ page, Run.Upholds I (next (.ok page)) fun answer => ∃ page, answer = .ok page) →
        Run.Upholds I (c.placeOf request.page >>= fun place => c.supply (size + 1) place >>= next)
          fun answer => ∃ page, answer = .ok page := by
    intro next hnext
    refine (c.placeOf_upholds I request.page).bind fun place hplace => ?_
    refine (hc (size + 1) place (by omega) hplace).bind ?_
    rintro _ ⟨page, rfl⟩
    exact hnext page
  rw [paginate, hsize]
  cases request.totalEntries with
  | none => exact hanswer fun page => .note (.pure ⟨page, rfl⟩)
  | some total => exact .note (hanswer fun page => .note (.pure ⟨page, rfl⟩))

/-- **Any token is served.** Over leaves that serve their own places, a request with a size is
answered with a page whatever its token says, and no leaf is visited at a place that its bookmarker
does not accept. A request without a size, or with size zero, is refused before any leaf is visited.
The visits are recorded by a run that mirrors the run of the request. -/
theorem Collection.paginate_serves {c : Collection σ α} (hlabelled : c.Labelled)
    (hleaves : c.EveryLeaf Source.ServesOwn) (request : PageRequest) (j : Journal σ) :
    Run.Mirrors (c.watched.paginate request) (c.paginate request) ∧
    (∀ perPage, request.perPage = some perPage → 0 < perPage →
      (∃ page, (c.paginate request j).1 = .ok page) ∧
        ∀ visit ∈ c.visits request j, visit.Allowed) ∧
    (request.perPage = none ∨ request.perPage = some 0 →
      c.paginate request j = (.error .invalidPerPage, j) ∧ c.visits request j = []) := by
  have hmirrors := c.paginate_watched request
  refine ⟨hmirrors, ?_, ?_⟩
  · rintro perPage hsize hperPage
    obtain ⟨size, rfl⟩ := Nat.exists_eq_add_one_of_ne_zero (Nat.ne_of_gt hperPage)
    have hserves : c.watched.supply.Serves Watched.Clean fun b => c.watched.accepts b :=
      c.watched.serves_accepts (hlabelled.watched c)
        (.watched (fun _ _ h => h.watched.keepsAccepted) c hleaves)
        (.watched (fun bookmarker source h => h.watched.servesAccepted fun _ hplace =>
          source.watched_clean bookmarker hplace) c hleaves)
    obtain ⟨⟨page, hpage⟩, hclean⟩ :=
      Collection.paginate_upholds hserves request hsize ⟨j.events, ⟨j.state, []⟩⟩ (by
        rintro visit ⟨⟩)
    refine ⟨⟨page, (hmirrors _).1.symm.trans hpage⟩, fun visit hvisit => ?_⟩
    exact hclean visit (List.mem_reverse.mp hvisit)
  · rintro hsize
    have hrefused : ∀ {τ : Type} (d : Collection τ α) (k : Journal τ),
        d.paginate request k = (.error .invalidPerPage, k) := by
      intro τ d k
      rw [paginate]
      rcases hsize with hsize | hsize <;> rw [hsize] <;> rfl
    refine ⟨hrefused c j, ?_⟩
    rw [visits, hrefused]
    rfl

/-- A source without end that gives up at a place which is no key. -/
def Source.wary : Source Unit Nat where
  fetch page := pure <|
    if page.current.all Bookmarker.acceptsKey then { edits := [.push 1, .extend [2, 3], .markMore] }
    else { failure := some (.source "no such place") }

/-- The wary source, marked by parity, in a concatenation that is merged and filtered. -/
def Collection.waryOnes : Collection Unit Nat :=
  .filter
    (.merge
      (.cons "numbers" (.concat (.cons "odd" (.leaf
        (.key (fun n => .bool (n % 2 == 1)) Bookmarker.acceptsKey .ascending)
        Source.wary) .nil)) .nil)
      .ascending)
    (fun n => n == 1) { maxRounds := 2 }

/-- Asked with a foreign token, the filter answers and visits the wary source at places of it. From
the start it visits it twice, and asked without a size not at all. -/
theorem Collection.waryOnes_served :
    (∃ page, (waryOnes.paginate ⟨some "forged", some 2, some 9⟩ ⟨[], ()⟩).1 = .ok page) ∧
      (∀ visit ∈ waryOnes.visits ⟨some "forged", some 2, some 9⟩ ⟨[], ()⟩, visit.Allowed) ∧
      (waryOnes.visits ⟨none, some 2, none⟩ ⟨[], ()⟩).map (·.place) = [none, some (.bool false)] ∧
      waryOnes.visits ⟨some "forged", none, none⟩ ⟨[], ()⟩ = [] := by
  have hleaves : waryOnes.EveryLeaf Source.ServesOwn := by
    refine ⟨⟨?_, trivial⟩, trivial⟩
    intro perPage place page hpage hplace
    have hcurrent : page.current.all Bookmarker.acceptsKey := by
      obtain ⟨_, rfl⟩ := Page.start?_eq_ok hpage
      cases place with
      | none => rfl
      | some b => exact hplace b rfl
    unfold Source.wary
    dsimp only
    rw [if_pos hcurrent]
    exact .pure ⟨rfl, fun item _ => ⟨_, rfl, rfl⟩⟩
  have hlabelled : waryOnes.Labelled := ⟨rfl, ⟨rfl, trivial, trivial⟩, trivial⟩
  obtain ⟨hpage, hvisits⟩ := (Collection.paginate_serves hlabelled hleaves
    ⟨some "forged", some 2, some 9⟩ ⟨[], ()⟩).2.1 2 rfl (by decide)
  have hrefused := (Collection.paginate_serves hlabelled hleaves
    ⟨some "forged", none, none⟩ ⟨[], ()⟩).2.2 (.inl rfl)
  exact ⟨hpage, hvisits, by cbv, hrefused.2⟩

end KeysetPaging
