import KeysetPaging.Proofs.Ties
import KeysetPaging.Proofs.Walk
import Mathlib.Data.List.FinRange

/-! # What a walk misses

No place tells level items apart, so a page starts after all items that are level with the place it
starts at. A page that ends between level items makes a walk miss the later ones of them, and these
are all the items that a walk misses. What it holds of a list is said by positions: every page holds
a window of the sorted list, and the next window starts behind the last level item.
-/

namespace KeysetPaging

open Std

variable {σ α : Type}

/-! ## Windows -/

/-- Some positions of a list of `n` items: those from `start` on, and at most `size` of them. -/
def window (n start size : Nat) : List (Fin n) :=
  ((List.finRange n).drop start).take size

theorem mem_window {n start size : Nat} {i : Fin n} :
    i ∈ window n start size ↔ start ≤ i ∧ i < start + size := by
  rw [window, List.mem_take_iff_getElem]
  simp only [List.getElem_drop, List.getElem_finRange, List.length_drop, List.length_finRange]
  constructor
  · rintro ⟨j, hj, rfl⟩
    simp only [Fin.val_cast]
    omega
  · rintro ⟨hstart, hend⟩
    refine ⟨i - start, by omega, Fin.ext ?_⟩
    simp only [Fin.val_cast]
    omega

/-- What stands in a window of a list. -/
theorem map_get_window (xs : List α) (start size : Nat) :
    (window xs.length start size).map xs.get = (xs.drop start).take size := by
  rw [window, List.map_take, List.map_drop, List.map_get_finRange]

theorem window_increasing (n start size : Nat) : (window n start size).Pairwise (· < ·) :=
  ((List.pairwise_lt_finRange n).drop).take

/-- The last one of increasing positions is the largest. -/
theorem le_of_mem_getLast? {n : Nat} {is : List (Fin n)} (h : is.Pairwise (· < ·)) {i j : Fin n}
    (hi : i ∈ is.getLast?) (hj : j ∈ is) : j ≤ i := by
  obtain ⟨front, rfl⟩ := List.getLast?_eq_some_iff.mp hi
  rcases List.mem_append.mp hj with hfront | hlast
  · exact Fin.le_of_lt ((List.pairwise_append.mp h).2.2 j hfront i List.mem_cons_self)
  · rw [List.mem_singleton.mp hlast]

namespace ItemList

variable {list : ItemList α}

/-- After a place, a list goes on from a position on. In front of it are the items that do not
follow the place. -/
theorem Ordered.after_eq_drop (h : list.Ordered) (place : Bookmark) :
    ∃ next, list.after (some place) = list.entries.drop next ∧
      ∀ i : Fin list.entries.length, i < next ↔
        list.bookmarker.compare (list.entries.get i).2 place ≠ .gt := by
  refine ⟨_, List.dropWhile_eq_drop_findIdx_not, fun i => ⟨fun hi => ?_, fun hi => ?_⟩⟩
  · simpa using List.not_of_lt_findIdx hi
  · -- What stands further on comes after the place.
    by_contra hnext
    obtain ⟨behind, hbehind⟩ := Nat.exists_eq_add_of_le (Nat.le_of_not_lt hnext)
    have hafter : list.entries.get i ∈ list.after (some place) := by
      rw [after, List.dropWhile_eq_drop_findIdx_not, List.mem_drop_iff_getElem]
      exact ⟨behind, by omega, by simp [hbehind]⟩
    rw [h.after_some] at hafter
    exact hi (by simpa using (List.mem_filter.mp hafter).2)

end ItemList

/-- The page holds as much as fits of what is left. It is the last page if that is all, and else the
next one starts after its last item. -/
structure Page.Cuts (rest : List (α × Bookmark)) (page : Page α) : Prop where
  items_eq : page.items = (rest.take page.perPage).map (·.1)
  ends : page.nextBookmark = none → rest.length ≤ page.perPage
  goesOn : ∀ b ∈ page.nextBookmark, page.perPage < rest.length ∧
    ∃ e ∈ (rest.take page.perPage).getLast?, e.2 = b

theorem Page.ofRest_cuts (rest : List (α × Bookmark)) (place : Option Bookmark) {perPage : Nat}
    (hperPage : 0 < perPage) : (ofRest rest place hperPage).Cuts rest := by
  by_cases hmore : perPage < rest.length
  · obtain ⟨e, he⟩ : ∃ e, (rest.take perPage).getLast? = some e :=
      ⟨_, List.getLast?_eq_some_getLast (List.ne_nil_of_length_pos (by
        rw [List.length_take]
        omega))⟩
    have hnext : (ofRest rest place hperPage).nextBookmark = some e.2 := by
      simp only [nextBookmark, ofRest, hmore, List.getLast?_map, he, decide_true, if_true,
        Option.map_some, Option.none_or, Option.some_or]
    refine ⟨rfl, by simp [hnext], ?_⟩
    rw [hnext]
    rintro _ ⟨⟩
    exact ⟨hmore, e, he, rfl⟩
  · have hnext : (ofRest rest place hperPage).nextBookmark = none := by
      simp [nextBookmark, ofRest, hmore]
    exact ⟨rfl, fun _ => Nat.le_of_not_lt hmore, by simp [hnext]⟩

namespace ItemList

/-- What pages hold of a list from a position on, and what they miss. Every page holds the items at
some positions, which increase from page to page. An item stands at none of them exactly when a page
ends with an item in front of it that it is level with. -/
structure Picks (list : ItemList α) (start : Nat) (pages : List (Page α))
    (places : List (List (Fin list.entries.length))) : Prop where
  items_eq : pages.map (·.items)
    = places.map fun page => page.map fun i => (list.entries.get i).1
  start_le : ∀ i ∈ places.flatten, start ≤ i
  increasing : places.flatten.Pairwise (· < ·)
  missing_iff : ∀ j : Fin list.entries.length, start ≤ j →
    (j ∉ places.flatten ↔ ∃ page ∈ places, ∃ i ∈ page.getLast?, i < j ∧
      list.bookmarker.compare (list.entries.get i).2 (list.entries.get j).2 = .eq)

variable {list : ItemList α} {start : Nat} {page : Page α}

/-- The items of a page that is cut off a list stand in a window of the list. -/
theorem items_eq_window (hcuts : page.Cuts (list.entries.drop start)) : page.items
    = (window list.entries.length start page.perPage).map fun i => (list.entries.get i).1 := by
  rw [hcuts.items_eq, ← map_get_window, List.map_map]
  rfl

/-- The last page misses nothing of what is left. -/
theorem Picks.last (hcuts : page.Cuts (list.entries.drop start))
    (hnext : page.nextBookmark = none) :
    list.Picks start [page] [window list.entries.length start page.perPage] where
  items_eq := by simp [items_eq_window hcuts]
  start_le i hi := by
    rw [List.flatten_singleton] at hi
    exact (mem_window.mp hi).1
  increasing := by simpa using window_increasing _ _ _
  missing_iff j hj := by
    have hall := hcuts.ends hnext
    rw [List.length_drop] at hall
    have hmem : j ∈ window list.entries.length start page.perPage := mem_window.mpr (by omega)
    simp only [List.flatten_singleton, hmem, not_true, List.mem_singleton, exists_eq_left,
      false_iff, not_exists, not_and]
    intro i hi hlt
    exact absurd (le_of_mem_getLast? (window_increasing _ _ _) hi hmem) (Fin.not_le.mpr hlt)

/-- A page ends with the item before the place where its window does. -/
theorem getLast?_window {b : Bookmark} (hcuts : page.Cuts (list.entries.drop start))
    (hnext : page.nextBookmark = some b) :
    ∃ last : Fin list.entries.length, last + 1 = start + page.perPage ∧
      (window list.entries.length start page.perPage).getLast? = some last ∧
      (list.entries.get last).2 = b := by
  obtain ⟨hmore, e, he, rfl⟩ := hcuts.goesOn b hnext
  rw [← map_get_window, List.getLast?_map] at he
  obtain ⟨last, hlast, rfl⟩ := Option.map_eq_some_iff.mp he
  refine ⟨last, ?_, hlast, rfl⟩
  have hpos := page.perPage_pos
  rw [List.length_drop] at hmore
  -- The last position of the window is one of it, and no other one of it is larger.
  have hle := le_of_mem_getLast? (j := ⟨start + page.perPage - 1, by omega⟩)
    (window_increasing _ _ _) hlast (mem_window.mpr ⟨by dsimp only; omega, by dsimp only; omega⟩)
  have hmem := mem_window.mp (List.mem_of_getLast? hlast)
  rw [Fin.le_def] at hle
  dsimp only at hle
  omega

/-- Behind an item, those are level with it that the next page does not start with. -/
theorem Ordered.level_iff (h : list.Ordered) {last j : Fin list.entries.length} {next : Nat}
    (hnext : ∀ i : Fin list.entries.length, i < next ↔
      list.bookmarker.compare (list.entries.get i).2 (list.entries.get last).2 ≠ .gt)
    (hlast : last < j) :
    list.bookmarker.compare (list.entries.get last).2 (list.entries.get j).2 = .eq ↔ j < next := by
  have := h.standard.transCmp
  have hle := List.pairwise_iff_get.mp h.sorted last j hlast
  have hswap : list.bookmarker.compare (list.entries.get j).2 (list.entries.get last).2
      = (list.bookmarker.compare (list.entries.get last).2 (list.entries.get j).2).swap :=
    OrientedCmp.eq_swap
  rw [hnext, hswap]
  cases hcompare : list.bookmarker.compare (list.entries.get last).2 (list.entries.get j).2 with
  | lt | eq => simp
  | gt => exact absurd hcompare hle

/-- A page in front of others misses the items that are level with its last one. -/
theorem Picks.cons (h : list.Ordered) {b : Bookmark} {next : Nat} {pages : List (Page α)}
    {places : List (List (Fin list.entries.length))}
    (hcuts : page.Cuts (list.entries.drop start)) (hb : page.nextBookmark = some b)
    (hnext : ∀ i : Fin list.entries.length, i < next ↔
      list.bookmarker.compare (list.entries.get i).2 b ≠ .gt)
    (hrest : list.Picks next pages places) :
    list.Picks start (page :: pages)
      (window list.entries.length start page.perPage :: places) := by
  have := h.standard.transCmp
  obtain ⟨last, hend, hlast, rfl⟩ := getLast?_window hcuts hb
  have hlt : last < next := (hnext last).mpr (by simp [ReflCmp.compare_self])
  refine ⟨?_, ?_, ?_, fun j hj => ?_⟩
  · rw [List.map_cons, List.map_cons, items_eq_window hcuts, hrest.items_eq]
  · rw [List.flatten_cons, List.forall_mem_append]
    refine ⟨fun i hi => (mem_window.mp hi).1, fun i hi => ?_⟩
    have hle := hrest.start_le i hi
    omega
  · rw [List.flatten_cons, List.pairwise_append]
    refine ⟨window_increasing _ _ _, hrest.increasing, fun i hi j hj => ?_⟩
    have hwindow := mem_window.mp hi
    have hle := hrest.start_le j hj
    rw [Fin.lt_def]
    omega
  · have hover : j ∉ window list.entries.length start page.perPage ↔ last < j := by
      rw [mem_window, Fin.lt_def]
      omega
    rw [List.flatten_cons, List.mem_append, not_or, hover, List.exists_mem_cons_iff, hlast]
    simp only [Option.mem_some_iff, exists_eq_left']
    by_cases hafter : next ≤ j
    · -- Where the next page has started, this one is over, and its last item is not level.
      have hbehind : last < j := Fin.lt_def.mpr (by omega)
      have hlevel := (h.level_iff hnext hbehind).not.mpr (Nat.not_lt.mpr hafter)
      rw [and_iff_right hbehind, hrest.missing_iff j hafter, or_iff_right fun hlast =>
        hlevel hlast.2]
    · -- Before that no other page has an item, and what this one leaves is level with its last.
      have hnone : j ∉ places.flatten := fun hmem => hafter (hrest.start_le j hmem)
      have hnolast : ¬ ∃ page ∈ places, ∃ i ∈ page.getLast?, i < j ∧
          list.bookmarker.compare (list.entries.get i).2 (list.entries.get j).2 = .eq := by
        rintro ⟨page, hpage, i, hi, hij, -⟩
        have hmem := List.mem_flatten.mpr ⟨page, hpage, List.mem_of_getLast? hi⟩
        exact hafter (Nat.le_trans (hrest.start_le i hmem) (Nat.le_of_lt hij))
      rw [and_iff_left hnone, or_iff_left hnolast]
      exact ⟨fun hbehind => ⟨hbehind, (h.level_iff hnext hbehind).mpr (Nat.lt_of_not_le hafter)⟩,
        fun hlevel => hlevel.1⟩

/-! ## Walks -/

/-- Asked after a place, a list in order cuts off its page what comes after the place. -/
theorem Ordered.gives (h : list.Ordered) {P : Bookmark → Prop} (hP : ∀ e ∈ list.entries, P e.2) :
    (Collection.leaf list.bookmarker list.source : Collection σ α).supply.Gives P
      fun place page => page.Cuts (list.after place) := by
  intro perPage place hperPage hplace
  have hkeeps := h.keeps (σ := σ) hP perPage place hplace
  have heq : Run.Ensures ((Collection.leaf list.bookmarker list.source : Collection σ α).supply
      perPage place) fun answer => answer = .ok (.ofRest (list.after place) place hperPage) := by
    rw [h.supply_eq place hperPage]
    exact .pure rfl
  refine (hkeeps.and heq).mono ?_
  rintro _ ⟨hwithin, rfl⟩
  obtain ⟨hwithin, hcurrent⟩ := hwithin _ rfl
  exact ⟨_, rfl, hwithin, hcurrent, Page.ofRest_cuts _ _ hperPage⟩

/-- A walk through a list in order that has come to the end holds windows of what comes after its
starting place. -/
theorem Ordered.walkBy_picks (h : list.Ordered)
    (hown : ∀ e ∈ list.entries, list.bookmarker.accepts e.2 ∧ e.2.levels ≤ Document.maxLevels)
    {sizes : Nat → Nat} (hsizes : ∀ n, 0 < sizes n) (most : Nat) (token : Option String) :
    let c : Collection σ α := .leaf list.bookmarker list.source
    Run.Ensures (c.walkBy sizes most token) fun walk => walk.finished = true →
      ∀ start, list.after (c.startOf token) = list.entries.drop start →
        ∃ places, list.Picks start walk.pages places := by
  intro c
  have haccepts : ∀ b, c.accepts b = list.bookmarker.accepts b := fun b => by
    rw [Collection.accepts]
  have hgives : c.supply.Gives (fun b => c.accepts b ∧ b.levels ≤ Document.maxLevels)
      fun place page => page.Cuts (list.after place) := by
    simp only [haccepts]
    exact h.gives hown
  refine Collection.walkBy_induction (motive := fun place _ walk => walk.finished = true →
    ∀ start, list.after place = list.entries.drop start →
      ∃ places, list.Picks start walk.pages places) hgives (fun _ => id) ?_ ?_ ?_ hsizes
    Collection.accepts_startOf
  · intro place hfinished
    cases hfinished
  · intro place most page hcuts _ hnext _ start hstart
    exact ⟨_, .last (hstart ▸ hcuts) hnext⟩
  · intro place most page b walk hcuts _ hb hwalk hfinished start hstart
    obtain ⟨next, hafter, hnext⟩ := h.after_eq_drop b
    obtain ⟨places, hplaces⟩ := hwalk hfinished next hafter
    exact ⟨_, .cons h (hstart ▸ hcuts) hb hnext hplaces⟩

end ItemList

/-- **What a walk through a list of items misses.** Bookmarks of the items may be level. A walk from
the beginning, with pages of any sizes, comes to the end of the sorted items and holds each of them
at most once and in their order. It misses an item exactly when one of its pages ends with an item
in front of it that it is level with. -/
theorem Collection.walkBy_misses {bookmarker : Bookmarker α} (hstandard : bookmarker.Standard)
    {items : List α} {marked : List (α × Bookmark)}
    (hmark : ItemList.mark bookmarker items = .ok marked)
    (hown : ∀ e ∈ marked, bookmarker.accepts e.2 ∧ e.2.levels ≤ 127) {sizes : Nat → Nat}
    (hsizes : ∀ n, 0 < sizes n) {most : Nat} (hmost : items.length < most) :
    ∃ c : Collection σ α, ofItems? bookmarker items = .ok c ∧
      Run.Ensures (c.walkBy sizes most none) fun walk =>
        walk.failure = none ∧ walk.finished = true ∧
          ∃ places, ItemList.Picks ⟨bookmarker, ItemList.sort bookmarker marked⟩ 0 walk.pages
            places := by
  let list : ItemList α := ⟨bookmarker, ItemList.sort bookmarker marked⟩
  have h : list.Ordered := ItemList.ordered_sort hstandard hmark
  have hperm : list.entries.Perm marked := List.mergeSort_perm _ _
  have hentries : ∀ e ∈ list.entries,
      list.bookmarker.accepts e.2 ∧ e.2.levels ≤ Document.maxLevels := fun e he =>
    hown e (hperm.mem_iff.mp he)
  have hlength : list.entries.length = items.length := by
    rw [hperm.length_eq, ← ItemList.items_of_mark hmark, List.length_map]
  let c : Collection σ α := .leaf bookmarker list.source
  have hkeeps : c.supply.Keeps fun b => bookmarker.accepts b ∧ b.levels ≤ Document.maxLevels :=
    h.keeps hentries
  have hends : Run.Ensures (c.walkBy sizes most none) fun walk =>
      (list.course none).left < most → walk.ReadsAll (list.course none) :=
    walkBy_readsAll (h.follows.gives hkeeps)
      (fun b hb => ⟨by rw [accepts]; exact hb.1, hb.2⟩) hsizes most (by rintro b ⟨⟩)
  have hpicks := h.walkBy_picks (σ := σ) hentries hsizes most none
  refine ⟨c, ?_, (hends.and hpicks).mono fun walk ⟨hreads, hpicks⟩ => ?_⟩
  · rw [ofItems?, ItemList.ofItems?, hmark]
    rfl
  · have hreads := hreads (by change list.entries.length < most; omega)
    exact ⟨hreads.unfailing, hreads.finished, hpicks hreads.finished 0 rfl⟩

/-- Numbers that are marked by their tens. -/
def byTens : Bookmarker Nat :=
  .key (fun n => .int (.ofNat (n / 10))) Bookmarker.acceptsKey .ascending

/-- Numbers with their tens, some of which are level. -/
def tens : List (Nat × Bookmark) :=
  [(21, .int 2), (10, .int 1), (22, .int 2), (11, .int 1), (23, .int 2), (30, .int 3)]

/-- A walk with two numbers a page misses the third one of those with the same tens. -/
theorem Collection.tens_misses :
    ∃ c : Collection Unit Nat, ofItems? byTens (tens.map (·.1)) = .ok c ∧
      Run.Ensures (c.walkBy (fun _ => 2) 7 none) fun walk =>
        walk.failure = none ∧ walk.finished = true ∧
          ∃ places, ItemList.Picks ⟨byTens, ItemList.sort byTens tens⟩ 0 walk.pages places :=
  walkBy_misses (.key _ _ _) (show ItemList.mark byTens (tens.map (·.1)) = .ok tens from rfl)
    (by decide) (fun _ => by decide) (by decide)

end KeysetPaging
