import KeysetPaging.Proofs.Appending

/-! # Items and bookmarks stay paired

A page keeps its items in one list and their bookmarks in another, and a collection that is built
from others takes the two together again. A source changes the items alone: it adds some, puts
others in their place, or adds more than were asked for. Still every item on a page that a
collection answers with stands beside its own bookmark. At a leaf that is the one which the
bookmarker derives. Elsewhere it is made of the one that stood beside the item on an inner page,
and this inner page was answered in the same run.
-/

namespace KeysetPaging

variable {σ α β : Type} {before after : Journal σ}

/-! ## Pages that are answered in a run -/

/-- On the way from one journal to another the supply answers with these pages, one after another.
In between events may be noted. -/
inductive Supply.Answered (supply : Supply σ α) : Journal σ → Journal σ → List (Page α) → Prop where
  | done (j : Journal σ) : Answered supply j j []
  | note {before after : Journal σ} {subs : List (Page α)} (e : Event)
      (rest : Answered supply { before with events := e :: before.events } after subs) :
      Answered supply before after subs
  | ask {before between after : Journal σ} {size : Nat} {place : Option Bookmark} {sub : Page α}
      {subs : List (Page α)} (answer : supply size place before = (.ok sub, between))
      (rest : Answered supply between after subs) : Answered supply before after (sub :: subs)

/-- On the way from one journal to another some collections of a row answer with these pages, in the
order of the row and no more than once each. In between events may be noted. -/
inductive Sources.Answered :
    Sources σ α → Journal σ → Journal σ → List (String × Page α) → Prop where
  | done (sources : Sources σ α) (j : Journal σ) : Answered sources j j []
  | note {sources : Sources σ α} {before after : Journal σ} {asked : List (String × Page α)}
      (e : Event)
      (rest : Answered sources { before with events := e :: before.events } after asked) :
      Answered sources before after asked
  | skip {label : String} {c : Collection σ α} {sources : Sources σ α} {before after : Journal σ}
      {asked : List (String × Page α)} (rest : Answered sources before after asked) :
      Answered (.cons label c sources) before after asked
  | ask {label : String} {c : Collection σ α} {sources : Sources σ α}
      {before between after : Journal σ} {size : Nat} {place : Option Bookmark} {sub : Page α}
      {asked : List (String × Page α)} (answer : c.supply size place before = (.ok sub, between))
      (rest : Answered sources between after asked) :
      Answered (.cons label c sources) before after ((label, sub) :: asked)

/-- A supply that answers has started a page and filled it without failure. -/
theorem Supply.exists_of_ofFill_eq {fill : Page α → Run σ (Filled α)} {perPage : Nat}
    {place : Option Bookmark} {page : Page α}
    (h : Supply.ofFill fill perPage place before = (.ok page, after)) :
    ∃ start, Page.start? perPage place = .ok start ∧ fill start before = ({ page }, after) := by
  rw [ofFill] at h
  cases hstart : Page.start? perPage place with
  | error e =>
    rw [hstart] at h
    cases h
  | ok start =>
    rw [hstart] at h
    obtain ⟨⟨page', failure⟩, between, hfill, h⟩ := Run.exists_of_bind_eq h
    cases failure with
    | some e => cases h
    | none =>
      cases h
      exact ⟨start, rfl, hfill⟩

/-! ## Leaves -/

/-- No change of a source gives a bookmark to a page that has none. -/
theorem Page.bookmarks_edits {page : Page α} (h : page.bookmarks = []) (changes : List (Edit α)) :
    (page.edits changes).bookmarks = [] := by
  induction changes generalizing page with
  | nil => exact h
  | cons change changes ih =>
    refine ih ?_
    cases change with
    | push | extend | markMore => exact h
    | replace => rfl

/-- Dropping an overflow gives no bookmark to a page that has none. -/
theorem Page.bookmarks_truncate {page : Page α} (h : page.bookmarks = []) :
    page.truncate.bookmarks = [] := by
  rw [truncate]
  split
  · simp [h]
  · exact h

/-- On a page without bookmarks each item is given its own. -/
theorem Page.assign_forall₂ {bookmarkFor : α → Except Error Bookmark} {page : Page α}
    (hnone : page.bookmarks = []) (h : (page.assign bookmarkFor).2 = none) :
    List.Forall₂ (fun item b => bookmarkFor item = .ok b) page.items
      (page.assign bookmarkFor).1.bookmarks := by
  simp only [assign, hnone, List.take_nil, List.length_nil, List.drop_zero] at h ⊢
  exact derive_forall₂ h

/-- A leaf that fills a page without bookmarks leaves what its source put there, as far as it fits,
and each item with its own bookmark. -/
theorem Source.fill_marks {bookmarker : Bookmarker α} {source : Source σ α} {start page : Page α}
    (hnone : start.bookmarks = []) (h : source.fill bookmarker start before = ({ page }, after)) :
    page.items = (start.edits (source.fetch start before).1.edits).items.take start.perPage ∧
      List.Forall₂ (fun item b => bookmarker.bookmarkFor item = .ok b) page.items
        page.bookmarks := by
  rw [fill] at h
  obtain ⟨⟨edits, failure⟩, between, hfetch, h⟩ := Run.exists_of_bind_eq h
  rw [hfetch]
  cases failure with
  | some e => cases h
  | none =>
    -- An overflow is noted, which changes nothing about the page.
    have hassigned : (start.edits edits).truncate.assign bookmarker.bookmarkFor = (page, none) := by
      dsimp only at h
      split at h
      · exact Prod.ext (congrArg (·.1.page) h) (congrArg (·.1.failure) h)
      · exact Prod.ext (congrArg (·.1.page) h) (congrArg (·.1.failure) h)
    have hitems : page.items = (start.edits edits).truncate.items :=
      congrArg (·.1.items) hassigned.symm
    have hmarks := Page.assign_forall₂
      (Page.bookmarks_truncate (Page.bookmarks_edits hnone edits)) (congrArg Prod.snd hassigned)
    rw [hassigned, ← hitems] at hmarks
    rw [Page.items_truncate, Page.perPage_edits] at hitems
    exact ⟨hitems, hmarks⟩

/-! ## Filtered and transformed collections -/

/-- A page that takes more items has less room. -/
theorem Page.remaining_append (page : Page α) (es : List (α × Bookmark)) :
    (page.append es).remaining = page.remaining - es.length := by
  have hperPage : (page.append es).perPage = page.perPage := rfl
  rw [remaining, remaining, hperPage, length_items_append]
  omega

namespace Filter

variable {options : FilterOptions} {keep : α → Bool} {supply : Supply σ α}

/-- The entries of inner pages that pass a test. -/
def kept (keep : α → Bool) (subs : List (Page α)) : List (α × Bookmark) :=
  (subs.flatMap Page.entries).filter fun e => keep e.1

theorem kept_cons (sub : Page α) (subs : List (Page α)) :
    kept keep (sub :: subs) = (sub.entries.filter fun e => keep e.1) ++ kept keep subs := by
  rw [kept, List.flatMap_cons, List.filter_append, kept]

theorem kept_singleton (sub : Page α) :
    kept keep [sub] = sub.entries.filter fun e => keep e.1 := by
  rw [kept, List.flatMap_singleton]

/-- As much of what passes goes on a page as there is room for. -/
theorem entries_take {page : Page α} (hroom : page.isFull = false)
    (hpaired : page.items.length = page.bookmarks.length) (es : List (α × Bookmark))
    (sub : Page α) : (take es sub page).1.entries = page.entries ++ es.take page.remaining := by
  have hmax : max 1 page.remaining = page.remaining :=
    Nat.max_eq_right (page.remaining_pos hroom)
  rw [take, hmax, ← Page.entries_append hpaired]
  split_ifs <;> rfl

/-- A page that is not full with what passes has taken all of it. -/
theorem take_of_not_full {page sub : Page α} {es : List (α × Bookmark)}
    (hroom : page.isFull = false) (h : (take es sub page).2 = false) :
    es.length < page.remaining ∧ (take es sub page).1 = page.append es := by
  have hmax : max 1 page.remaining = page.remaining :=
    Nat.max_eq_right (page.remaining_pos hroom)
  rcases Nat.lt_trichotomy es.length (max 1 page.remaining) with hlt | heq | hgt
  · exact ⟨hmax ▸ hlt, by rw [take_of_lt hlt]⟩
  · rw [take_of_eq heq] at h
    cases h
  · rw [take_of_gt hgt] at h
    cases h

/-- The filling mode adds what passes of the inner pages, as far as there is room for it. -/
theorem fillRounds_entries {left round : Nat} {place : Option Bookmark} {size : Nat}
    {page filled : Page α} (hroom : page.isFull = false)
    (hpaired : page.items.length = page.bookmarks.length)
    (h : fillRounds options keep supply left round place size page before
      = ({ page := filled }, after)) :
    ∃ subs, supply.Answered before after subs ∧
      filled.entries = page.entries ++ (kept keep subs).take page.remaining := by
  induction left generalizing round place size page before with
  | zero =>
    cases h
    refine ⟨[], .note _ (.done _), ?_⟩
    change page.entries = _
    simp [kept]
  | succ left ih =>
    rw [fillRounds] at h
    obtain ⟨e | sub, between, hasked, h⟩ := Run.exists_of_bind_eq h
    · cases h
    · replace h := Run.of_note_bind_eq h
      dsimp only at h
      split at h
      next =>
        cases h
        refine ⟨[sub], .ask hasked (.note _ (.done _)), ?_⟩
        rw [entries_take hroom hpaired, kept_singleton]
      next hgoesOn =>
        have hopen : (take (sub.entries.filter fun e => keep e.1) sub page).2 = false := by
          simpa using (by simpa using hgoesOn : _ ∧ _).1
        have hroom' := (length_take_le hroom _ sub).2 hopen
        obtain ⟨hfew, htaken⟩ := take_of_not_full hroom hopen
        rw [htaken] at h hroom'
        obtain ⟨subs, hsubs, hentries⟩ := ih hroom' (by simp [hpaired]) h
        refine ⟨sub :: subs, .ask hasked (.note _ hsubs), ?_⟩
        rw [hentries, Page.entries_append hpaired, Page.remaining_append, kept_cons,
          List.take_append, List.take_of_length_le (Nat.le_of_lt hfew), List.append_assoc]

/-- The sifting mode adds what passes of the inner pages. -/
theorem siftRounds_entries {left round : Nat} {place : Option Bookmark} {page filled : Page α}
    (hpaired : page.items.length = page.bookmarks.length)
    (h : siftRounds options keep supply left round place page before
      = ({ page := filled }, after)) :
    ∃ subs, supply.Answered before after subs ∧
      filled.entries = page.entries ++ kept keep subs := by
  induction left generalizing round place page before with
  | zero =>
    cases h
    exact ⟨[], .note _ (.done _), (List.append_nil _).symm⟩
  | succ left ih =>
    rw [siftRounds] at h
    obtain ⟨e | sub, between, hasked, h⟩ := Run.exists_of_bind_eq h
    · cases h
    · replace h := Run.of_note_bind_eq h
      have hadded := Page.entries_append hpaired (sub.entries.filter fun e => keep e.1)
      have hlast : (page.append (sub.entries.filter fun e => keep e.1)).entries
          = page.entries ++ kept keep [sub] := by
        rw [hadded, kept_singleton]
      split_ifs at h
      · cases h
        exact ⟨[sub], .ask hasked (.note _ (.done _)), hlast⟩
      · cases h
        exact ⟨[sub], .ask hasked (.note _ (.done _)), hlast⟩
      · obtain ⟨subs, hsubs, hentries⟩ := ih (by simp [hpaired]) h
        refine ⟨sub :: subs, .ask hasked (.note _ hsubs), ?_⟩
        rw [hentries, hadded, kept_cons, List.append_assoc]

/-- A filter fills an empty page with what passes of the inner pages, up to the size of the page. -/
theorem entries_fill {start filled : Page α} (hroom : start.isFull = false)
    (hitems : start.items = []) (hbookmarks : start.bookmarks = [])
    (hle : filled.items.length ≤ start.perPage)
    (h : fill options keep supply start before = ({ page := filled }, after)) :
    ∃ subs, supply.Answered before after subs ∧
      filled.entries = (kept keep subs).take start.perPage := by
  have hpaired : start.items.length = start.bookmarks.length := by rw [hitems, hbookmarks]; rfl
  have hentries : start.entries = [] := by rw [Page.entries, hitems, List.zip_nil_left]
  have hremaining : start.remaining = start.perPage := by rw [Page.remaining, hitems]; rfl
  rw [fill] at h
  cases hmode : options.mode with
  | filling =>
    rw [hmode] at h
    obtain ⟨subs, hsubs, hfilled⟩ := fillRounds_entries hroom hpaired h
    rw [hentries, hremaining] at hfilled
    exact ⟨subs, hsubs, hfilled⟩
  | sifting =>
    -- All that passes is on the page, and fits.
    rw [hmode] at h
    obtain ⟨subs, hsubs, hfilled⟩ := siftRounds_entries hpaired h
    rw [hentries, List.nil_append] at hfilled
    refine ⟨subs, hsubs, ?_⟩
    rw [← hfilled, List.take_of_length_le (Nat.le_trans filled.length_entries_le hle)]

end Filter

/-- A transformed collection adds the images of what the inner page holds. -/
theorem Transform.entries_fill {f : α → β} {supply : Supply σ α} {start filled : Page β}
    (hpaired : start.items.length = start.bookmarks.length)
    (h : fill f supply start before = ({ page := filled }, after)) :
    ∃ sub, supply start.perPage start.current before = (.ok sub, after) ∧
      filled.entries = start.entries ++ sub.entries.map fun e => (f e.1, e.2) := by
  rw [fill] at h
  obtain ⟨e | sub, between, hanswer, h⟩ := Run.exists_of_bind_eq h
  · cases h
  · have hadded := Page.entries_append hpaired (sub.entries.map fun e => (f e.1, e.2))
    cases hmore : sub.hasMore <;> simp only [hmore] at h <;> cases h
    · exact ⟨sub, hanswer, hadded⟩
    · exact ⟨sub, hanswer, hadded⟩

/-! ## Collections in a row -/

/-- The entries of pages that collections in a row have answered, each with its label. -/
def Concat.entries (asked : List (String × Page α)) : List (α × Bookmark) :=
  asked.flatMap fun a => a.2.entries.map fun e => (e.1, .concat a.1 (some e.2))

theorem Concat.entries_singleton (label : String) (sub : Page α) :
    entries [(label, sub)] = sub.entries.map fun e => (e.1, place label e.2) :=
  List.flatMap_singleton _ _

theorem Concat.entries_cons (label : String) (sub : Page α) (asked : List (String × Page α)) :
    entries ((label, sub) :: asked)
      = (sub.entries.map fun e => (e.1, place label e.2)) ++ entries asked :=
  List.flatMap_cons

/-- A row adds what its collections answer, each under its label. -/
theorem Sources.fill_entries : ∀ (sources : Sources σ α) {from? : Option String}
    {position : Option Bookmark} {page filled : Page α} {before : Journal σ},
      page.items.length = page.bookmarks.length →
      sources.fill from? position page before = ({ page := filled }, after) →
        ∃ asked, sources.Answered before after asked ∧
          filled.entries = page.entries ++ Concat.entries asked
  | .nil, from?, position, page, filled, before => by
    intro _ h
    cases h
    exact ⟨[], .done .nil _, (List.append_nil _).symm⟩
  | .cons label c rest, from?, position, page, filled, before => by
    intro hpaired h
    rw [fill] at h
    split at h
    · obtain ⟨asked, hasked, hentries⟩ := rest.fill_entries hpaired h
      exact ⟨asked, .skip hasked, hentries⟩
    · obtain ⟨e | sub, between, hanswer, h⟩ := Run.exists_of_bind_eq h
      · cases h
      · replace h := Run.of_note_bind_eq h
        have hadded := Page.entries_append hpaired
          (sub.entries.map fun e => (e.1, Concat.place label e.2))
        have hlast : (page.append
            (sub.entries.map fun e => (e.1, Concat.place label e.2))).entries
              = page.entries ++ Concat.entries [(label, sub)] := by
          rw [hadded, Concat.entries_singleton]
        split_ifs at h
        · cases h
          exact ⟨[(label, sub)], .ask hanswer (.note _ (.done rest _)), hlast⟩
        · cases hnext : rest.firstLabel? <;> rw [hnext] at h <;> cases h
          · exact ⟨[(label, sub)], .ask hanswer (.note _ (.done rest _)), hlast⟩
          · exact ⟨[(label, sub)], .ask hanswer (.note _ (.done rest _)), hlast⟩
        · obtain ⟨asked, hasked, hentries⟩ := rest.fill_entries (by simp [hpaired]) h
          refine ⟨(label, sub) :: asked, .ask hanswer (.note _ hasked), ?_⟩
          rw [hentries, hadded, Concat.entries_cons, List.append_assoc]

/-- Every collection of a row answers once, and its lane holds what it answered. -/
theorem Sources.lanes_answered : ∀ (sources : Sources σ α)
    {known : List (String × Option Bookmark)} {perPage : Nat} {lanes : List (Lane α)}
    {before : Journal σ}, sources.lanes known perPage before = (.ok lanes, after) →
      ∃ asked, sources.Answered before after asked ∧ asked.map (·.1) = sources.labels ∧
        lanes = asked.map fun a => Lane.ofPage a.1 (known.lookup a.1).join a.2
  | .nil, known, perPage, lanes, before => by
    intro h
    cases h
    exact ⟨[], .done .nil _, rfl, rfl⟩
  | .cons label c rest, known, perPage, lanes, before => by
    intro h
    rw [Sources.lanes] at h
    obtain ⟨e | sub, between, hanswer, h⟩ := Run.exists_of_bind_eq h
    · cases h
    · replace h := Run.of_note_bind_eq h
      obtain ⟨e | others, _, hrest, h⟩ := Run.exists_of_bind_eq h
      · cases h
      · cases h
        obtain ⟨asked, hasked, hlabels, rfl⟩ := rest.lanes_answered hrest
        exact ⟨(label, sub) :: asked, .ask hanswer (.note _ hasked),
          congrArg (label :: ·) hlabels, rfl⟩

/-- Items are dealt from lanes one after another. Each is the front item of some lane. That lane
moves on to the bookmark which stood beside the item, and now the places of all lanes stand beside
it. -/
inductive Lane.Deals : List (Lane α) → List (α × Bookmark) → Prop where
  | done (lanes : List (Lane α)) : Deals lanes []
  | next {lanes moved : List (Lane α)} {i : Nat} {lane : Lane α} {item : α} {b : Bookmark}
      {rest dealt : List (α × Bookmark)} (chosen : lanes[i]? = some lane)
      (front : lane.buffer = (item, b) :: rest)
      (moves : moved = lanes.set i { lane with place := some b, buffer := rest })
      (others : Deals moved dealt) :
      Deals lanes ((item, .merge (moved.map fun lane => (lane.label, lane.place))) :: dealt)

namespace Merge

variable {direction : Direction}

/-- What a merge gives out is dealt from its lanes. -/
theorem interleave_deals (room : Nat) (lanes : List (Lane α)) :
    Lane.Deals lanes (interleave direction room lanes).1 := by
  induction room generalizing lanes with
  | zero => exact .done lanes
  | succ room ih =>
    rcases interleave_step direction room lanes with
      ⟨-, hstop, -⟩ | ⟨i, lane, ⟨item, b⟩, rest, -, hlane, hbuffer, hgo, -⟩
    · rw [hstop]
      exact .done lanes
    · rw [hgo]
      refine .next hlane hbuffer ?_ (ih _)
      have hadvanced : lane.advance = { lane with place := some b, buffer := rest } := by
        rw [Lane.advance, hbuffer]
      rw [List.modify_eq_set_getElem?, hlane, ← hadvanced]
      rfl

/-- A merge adds what is dealt from its lanes. -/
theorem entries_fill {lanes : List (Lane α)} {page : Page α}
    (hpaired : page.items.length = page.bookmarks.length) :
    (fill direction lanes page).entries
      = page.entries ++ (interleave direction page.remaining lanes).1 := by
  rw [fill, ← Page.entries_append hpaired]
  dsimp only
  split <;> rfl

end Merge

/-! ## All collections -/

/-- Where the items of a page come from, and the bookmarks beside them, when a collection answers
with the page on the way from one journal to another.

* A leaf leaves what its source put on the empty page, as far as it fits, and beside each item the
  bookmark that its bookmarker derives.
* A filter takes items with their bookmarks from inner pages, as many of those that pass as fit.
* A transformation changes the items of one inner page, and leaves the bookmarks beside them.
* A concatenation takes the items of pages that its collections answer, and puts the label of the
  collection on the bookmark of each item.
* A merge deals the items of pages that all its collections answer, from the places on that are
  known for their labels. -/
def Collection.Provenance : {α : Type} → Collection σ α → (perPage : Nat) →
    (place : Option Bookmark) → (before after : Journal σ) → Page α → Prop
  | _, .leaf bookmarker source, perPage, place, before, _, page =>
      ∃ start, Page.start? perPage place = .ok start ∧
        page.items = (start.edits (source.fetch start before).1.edits).items.take perPage ∧
        List.Forall₂ (fun item b => bookmarker.bookmarkFor item = .ok b) page.items page.bookmarks
  | _, .filter inner keep _, perPage, _, before, after, page =>
      ∃ subs, inner.supply.Answered before after subs ∧
        page.entries = (Filter.kept keep subs).take perPage
  | _, .transform inner f, perPage, place, before, after, page =>
      ∃ sub, inner.supply perPage place before = (.ok sub, after) ∧
        page.entries = sub.entries.map fun e => (f e.1, e.2)
  | _, .concat sources, _, _, before, after, page =>
      ∃ asked, sources.Answered before after asked ∧ page.entries = Concat.entries asked
  | _, .merge sources _, _, place, before, after, page =>
      ∃ asked, sources.Answered before after asked ∧ asked.map (·.1) = sources.labels ∧
        Lane.Deals (asked.map fun a =>
          Lane.ofPage a.1 ((Course.known place).lookup a.1).join a.2) page.entries

/-- Every page has its items and bookmarks from where its collection takes them. -/
theorem Collection.provenance (c : Collection σ α) {perPage : Nat} {place : Option Bookmark}
    {page : Page α} (h : c.supply perPage place before = (.ok page, after)) :
    c.Provenance perPage place before after page := by
  have hanswer : (c.supply perPage place before).1 = .ok page := congrArg Prod.fst h
  have hle : page.items.length ≤ perPage := c.bounded perPage place before page hanswer
  obtain ⟨start, hstart, hfill⟩ := Supply.exists_of_ofFill_eq h
  obtain ⟨hperPage, rfl⟩ := Page.start?_eq_ok hstart
  have hroom := Page.isFull_blank (α := α) hperPage place
  cases c with
  | leaf bookmarker source =>
    rw [fill] at hfill
    exact ⟨_, hstart, Source.fill_marks rfl hfill⟩
  | filter inner keep options =>
    rw [fill] at hfill
    exact Filter.entries_fill hroom rfl rfl hle hfill
  | transform inner f =>
    rw [fill] at hfill
    exact Transform.entries_fill rfl hfill
  | concat sources =>
    rw [fill] at hfill
    dsimp only at hfill
    split at hfill
    · exact sources.fill_entries rfl hfill
    · exact sources.fill_entries rfl hfill
  | merge sources direction =>
    rw [fill] at hfill
    obtain ⟨e | lanes, between, hlanes, hfill⟩ := Run.exists_of_bind_eq hfill
    · cases hfill
    · have hknown : sources.lanes (Course.known place) perPage before = (.ok lanes, between) :=
        hlanes
      obtain ⟨asked, hasked, hlabels, rfl⟩ := sources.lanes_answered hknown
      cases hfill
      refine ⟨asked, hasked, hlabels, ?_⟩
      rw [Merge.entries_fill rfl]
      exact Merge.interleave_deals _ _

/-- **Items and bookmarks stay paired.** Whatever the sources of a collection do to their pages, a
page that it answers with, asked for any number of items after any place, holds no more items than
that, and as many bookmarks as items, so that no item is lost when each is taken together with its
bookmark. At a leaf each item has its own bookmark, and elsewhere each has the bookmark that was
beside it on an inner page, answered in the same run, with the label of a concatenation or in the
places of the lanes of a merge. -/
theorem Collection.answer_paired (c : Collection σ α) {perPage : Nat} {place : Option Bookmark}
    {page : Page α} (h : c.supply perPage place before = (.ok page, after)) :
    page.items.length ≤ perPage ∧ page.bookmarks.length = page.items.length ∧
      page.entries.map (·.1) = page.items ∧ page.entries.map (·.2) = page.bookmarks ∧
        c.Provenance perPage place before after page := by
  have hanswer : (c.supply perPage place before).1 = .ok page := congrArg Prod.fst h
  have hle : page.items.length ≤ perPage := c.bounded perPage place before page hanswer
  obtain ⟨hpaired, -⟩ := c.pairs perPage place before page hanswer
  obtain ⟨hitems, hbookmarks⟩ := Page.map_entries hpaired
  exact ⟨hle, hpaired.symm, hitems, hbookmarks, c.provenance h⟩

namespace Collection

/-- A leaf whose source changes its mind and puts too much on every page, marked by itself. -/
def restless : Collection Unit Int64 :=
  .leaf (.key .int Bookmarker.acceptsKey .ascending)
    { fetch := fun _ => pure { edits := [.push 9, .replace [1, 2], .extend [3, 4, 5]] } }

/-- The odd numbers of such a leaf beside all numbers of another, each of these moved on by ten. -/
def oddBesideMoved : Collection Unit Int64 :=
  .merge (.cons "odd" (restless.filter (fun n => n % 2 == 1) {})
    (.cons "moved" (restless.transform (· + 10)) .nil)) .ascending

/-- The first three items that the lanes deal, with the places of both lanes after each. -/
def firstDealt : Page Int64 where
  perPage := 3
  items := [1, 11, 12]
  bookmarks := [
    .merge [("odd", some (.int 1)), ("moved", none)],
    .merge [("odd", some (.int 1)), ("moved", some (.int 1))],
    .merge [("odd", some (.int 1)), ("moved", some (.int 2))]]
  hasMore := true
  resumeAt := some (.merge [("odd", some (.int 1)), ("moved", some (.int 2))])
  perPage_pos := by decide

/-- The lanes are asked for three items each, and the filter asks its leaf twice. -/
theorem oddBesideMoved_paired :
    ∃ after, oddBesideMoved.supply 3 none ⟨[], ()⟩ = (.ok firstDealt, after) ∧
      firstDealt.items.length ≤ 3 ∧ firstDealt.bookmarks.length = firstDealt.items.length ∧
        firstDealt.entries.map (·.1) = firstDealt.items ∧
          firstDealt.entries.map (·.2) = firstDealt.bookmarks ∧
            oddBesideMoved.Provenance 3 none ⟨[], ()⟩ after firstDealt := by
  have hanswer : (oddBesideMoved.supply 3 none ⟨[], ()⟩).1 = .ok firstDealt := by cbv
  have hsupply : oddBesideMoved.supply 3 none ⟨[], ()⟩
      = (.ok firstDealt, (oddBesideMoved.supply 3 none ⟨[], ()⟩).2) := Prod.ext hanswer rfl
  exact ⟨_, hsupply, oddBesideMoved.answer_paired hsupply⟩

end Collection

end KeysetPaging
