import KeysetPaging.Proofs.Places
import Mathlib.Data.List.Forall2

/-! # What filling does to a page

A collection that is built from others fills a page by adding items together with their bookmarks,
by marking that there is more, and by fixing where to resume. It never takes anything back. A source
adds items alone, and their bookmarks are derived at once. So on every page that a collection
answers with there is a bookmark for each item.
-/

namespace KeysetPaging

variable {σ α β : Type}

/-- A page after some items were added with their bookmarks. Its size and its start are the same,
it still goes on if it did, and nobody has fixed where unless it does. -/
structure Page.Extends (page before : Page α) : Prop where
  perPage_eq : page.perPage = before.perPage
  current_eq : page.current = before.current
  more : before.hasMore → page.hasMore
  fixed : page.hasMore = false → page.resumeAt = before.resumeAt
  added : ∃ es : List (α × Bookmark), page.items = before.items ++ es.map (·.1) ∧
    page.bookmarks = before.bookmarks ++ es.map (·.2)

namespace Page.Extends

variable {page before : Page α}

theorem refl (page : Page α) : page.Extends page :=
  ⟨rfl, rfl, id, fun _ => rfl, [], by simp, by simp⟩

theorem append (h : page.Extends before) (es : List (α × Bookmark)) :
    (page.append es).Extends before := by
  obtain ⟨fs, hitems, hbookmarks⟩ := h.added
  exact ⟨h.perPage_eq, h.current_eq, h.more, h.fixed, fs ++ es, by simp [Page.append, hitems],
    by simp [Page.append, hbookmarks]⟩

theorem markMore (h : page.Extends before) : page.markMore.Extends before :=
  ⟨h.perPage_eq, h.current_eq, fun _ => rfl, nofun, h.added⟩

theorem goOn (h : page.Extends before) (place : Option Bookmark) :
    (page.markMore.resume place).Extends before :=
  ⟨h.perPage_eq, h.current_eq, fun _ => rfl, nofun, h.added⟩

/-- Items and bookmarks that belong together still do after filling. -/
theorem paired (h : page.Extends before) (hbefore : before.items.length = before.bookmarks.length) :
    page.items.length = page.bookmarks.length := by
  obtain ⟨es, hitems, hbookmarks⟩ := h.added
  simp [hitems, hbookmarks, hbefore]

end Page.Extends

/-- A page was filled from another by adding to it. -/
def Filled.Extends (before : Page α) (filled : Filled α) : Prop :=
  filled.page.Extends before

/-! ## Built collections -/

theorem Transform.fill_extends (f : α → β) (supply : Supply σ α) (page : Page β) :
    Run.Ensures (fill f supply page) (Filled.Extends page) := by
  rw [fill]
  refine .bind_any ?_
  rintro (e | sub)
  · exact .pure (.refl page)
  · have happended :=
      (Page.Extends.refl page).append (sub.entries.map fun entry => (f entry.1, entry.2))
    refine .pure ?_
    split
    · exact happended.goOn _
    · exact happended

namespace Filter

variable {options : FilterOptions} {keep : α → Bool} {supply : Supply σ α} {before : Page α}

theorem take_extends {page : Page α} (h : page.Extends before) (kept : List (α × Bookmark))
    (sub : Page α) : (take kept sub page).1.Extends before := by
  have happended := h.append (kept.take (max 1 page.remaining))
  rw [take]
  split_ifs
  · exact happended.markMore
  · exact happended.goOn _
  · exact happended
  · exact happended

theorem fillRounds_extends (left round : Nat) (place : Option Bookmark) (size : Nat)
    {page : Page α} (h : page.Extends before) :
    Run.Ensures (fillRounds options keep supply left round place size page)
      (Filled.Extends before) := by
  induction left generalizing round place size page with
  | zero => exact .note (.pure (h.goOn place))
  | succ left ih =>
    rw [fillRounds]
    refine .bind_any ?_
    rintro (e | sub)
    · exact .pure h
    · refine .note ?_
      dsimp only
      split
      · exact .pure (take_extends h _ sub)
      · exact ih _ _ _ (take_extends h _ sub)

theorem siftRounds_extends (left round : Nat) (place : Option Bookmark) {page : Page α}
    (h : page.Extends before) :
    Run.Ensures (siftRounds options keep supply left round place page)
      (Filled.Extends before) := by
  induction left generalizing round place page with
  | zero => exact .note (.pure (h.goOn place))
  | succ left ih =>
    rw [siftRounds]
    refine .bind_any ?_
    rintro (e | sub)
    · exact .pure h
    · refine .note ?_
      dsimp only
      split_ifs
      · exact .pure (h.append _)
      · exact .pure ((h.append _).goOn _)
      · exact ih _ _ (h.append _)

theorem fill_extends (options : FilterOptions) (keep : α → Bool) (supply : Supply σ α)
    (page : Page α) : Run.Ensures (fill options keep supply page) (Filled.Extends page) := by
  rw [fill]
  split
  · exact fillRounds_extends _ _ _ _ (.refl page)
  · exact siftRounds_extends _ _ _ (.refl page)

end Filter

theorem Sources.fill_extends {before : Page α} : ∀ (sources : Sources σ α)
    (from? : Option String) (position : Option Bookmark) {page : Page α}, page.Extends before →
      Run.Ensures (sources.fill from? position page) (Filled.Extends before)
  | .nil, from?, position, page, h => by
    rw [fill]
    exact .pure h
  | .cons label c rest, from?, position, page, h => by
    rw [fill]
    split
    · exact rest.fill_extends from? position h
    · refine .bind_any ?_
      rintro (e | sub)
      · exact .pure h
      · refine .note ?_
        dsimp only
        split_ifs
        · exact .pure ((h.append _).goOn _)
        · split
          · exact .pure (h.append _)
          · exact .pure ((h.append _).goOn _)
        · exact rest.fill_extends none none (h.append _)

theorem Merge.fill_extends (direction : Direction) (lanes : List (Lane α)) (page : Page α) :
    (fill direction lanes page).Extends page := by
  have happended := (Page.Extends.refl page).append (interleave direction page.remaining lanes).1
  rw [fill]
  dsimp only
  split
  · exact happended.goOn _
  · exact happended

/-! ## Pages with a bookmark for each item -/

/-- The entries of a page whose items have a bookmark each are its items and its bookmarks. -/
theorem Page.map_entries {page : Page α} (h : page.items.length = page.bookmarks.length) :
    page.entries.map (·.1) = page.items ∧ page.entries.map (·.2) = page.bookmarks :=
  ⟨List.map_fst_zip (Nat.le_of_eq h), List.map_snd_zip (Nat.le_of_eq h.symm)⟩

/-- The supply answers with pages that start where they are asked and have a bookmark for each
item. -/
def Supply.Pairs (supply : Supply σ α) : Prop :=
  ∀ perPage place, Run.Ensures (supply perPage place) fun answer =>
    ∀ page, answer = .ok page →
      page.items.length = page.bookmarks.length ∧ page.current = place

/-- A way of filling empty pages in pairs makes a supply that does. -/
theorem Supply.Pairs.ofFill {fill : Page α → Run σ (Filled α)}
    (h : ∀ perPage place (hperPage : 0 < perPage),
      Run.Ensures (fill { perPage, current := place, perPage_pos := hperPage }) fun filled =>
        filled.failure = none →
          filled.page.items.length = filled.page.bookmarks.length ∧ filled.page.current = place) :
    (Supply.ofFill fill).Pairs :=
  fun perPage place => Supply.ofFill_ensures (h perPage place)

/-- A way of filling pages by adding to them makes a supply that answers in pairs. -/
theorem Supply.Pairs.of_extends {fill : Page α → Run σ (Filled α)}
    (h : ∀ page, Run.Ensures (fill page) (Filled.Extends page)) : (Supply.ofFill fill).Pairs :=
  .ofFill fun _ _ _ => (h _).mono fun _ hfilled _ =>
    ⟨Page.Extends.paired hfilled rfl, hfilled.current_eq⟩

/-- When every item has a bookmark, each is given its own. -/
theorem Page.derive_forall₂ {bookmarkFor : α → Except Error Bookmark} : ∀ {items : List α},
    (derive bookmarkFor items).2 = none →
      List.Forall₂ (fun item b => bookmarkFor item = .ok b) items (derive bookmarkFor items).1
  | [], _ => .nil
  | item :: rest, h => by
    rw [derive] at h ⊢
    split at h
    · cases h
    next b hb => exact .cons hb (derive_forall₂ h)

/-- A list of items of which each has a bookmark has as many bookmarks. -/
theorem Page.length_derive {bookmarkFor : α → Except Error Bookmark} {items : List α}
    (h : (derive bookmarkFor items).2 = none) :
    (derive bookmarkFor items).1.length = items.length :=
  (derive_forall₂ h).length_eq.symm

/-- Once the missing bookmarks are derived there is one for each item. -/
theorem Page.paired_assign {bookmarkFor : α → Except Error Bookmark} {page : Page α}
    (h : (page.assign bookmarkFor).2 = none) :
    (page.assign bookmarkFor).1.items.length = (page.assign bookmarkFor).1.bookmarks.length := by
  have hderived := length_derive h
  rw [List.length_drop] at hderived
  simp only [assign, List.length_append, List.length_take] at hderived ⊢
  omega

/-- A source has bookmarks derived for all its items. -/
theorem Source.fill_pairs (bookmarker : Bookmarker α) (source : Source σ α) (page : Page α) :
    Run.Ensures (source.fill bookmarker page) fun filled => filled.failure = none →
      filled.page.items.length = filled.page.bookmarks.length ∧
        filled.page.current = page.current := by
  rw [fill]
  refine .bind_any fun fetched => ?_
  dsimp only
  split
  · exact .pure (by simp)
  · have hassigned : ∀ page' : Page α, page'.current = page.current →
        (page'.assign bookmarker.bookmarkFor).2 = none →
          (page'.assign bookmarker.bookmarkFor).1.items.length
              = (page'.assign bookmarker.bookmarkFor).1.bookmarks.length ∧
            (page'.assign bookmarker.bookmarkFor).1.current = page.current :=
      fun page' hcurrent h => ⟨Page.paired_assign h, hcurrent⟩
    split
    · exact .note (.pure (hassigned _ (by simp)))
    · exact .pure (hassigned _ (by simp))

/-- **On every page that a collection answers with there is a bookmark for each item**, whatever its
sources do. -/
theorem Collection.pairs : ∀ c : Collection σ α, (Supply.ofFill c.fill).Pairs
  | .leaf bookmarker source => .ofFill fun perPage place hperPage => by
    rw [fill]
    exact source.fill_pairs bookmarker _
  | .filter inner keep options => .of_extends fun page => by
    rw [fill]
    exact Filter.fill_extends options keep _ page
  | .transform inner f => .of_extends fun page => by
    rw [fill]
    exact Transform.fill_extends f _ page
  | .concat sources => .of_extends fun page => by
    rw [fill]
    split
    · exact sources.fill_extends _ _ (.refl page)
    · exact sources.fill_extends none none (.refl page)
  | .merge sources direction => .of_extends fun page => by
    rw [fill]
    refine .bind_any ?_
    rintro (e | lanes)
    · exact .pure (.refl page)
    · exact .pure (Merge.fill_extends direction lanes page)

end KeysetPaging
