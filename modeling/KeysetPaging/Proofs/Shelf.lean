import KeysetPaging.Collection.Basic
import KeysetPaging.Proofs.Bookmarker
import Mathlib.Data.List.Basic
import Mathlib.Data.List.Nodup

/-! # Lists of items in order

A list of items stands in the order of its bookmarker, so what comes after a place is a suffix of
the list, also when the place is none of its own. Bookmarks may be level. A shelf is a list of items
whose bookmarks differ and are accepted by their own bookmarker, and it is strictly sorted.
-/

namespace KeysetPaging

open Std

variable {σ α : Type}

/-- A list is marked by marking its first item and then the others. -/
theorem ItemList.mark_cons {bookmarker : Bookmarker α} {item : α} {items : List α}
    {marked : List (α × Bookmark)} (h : mark bookmarker (item :: items) = .ok marked) :
    ∃ b rest, bookmarker.bookmarkFor item = .ok b ∧ mark bookmarker items = .ok rest ∧
      marked = (item, b) :: rest := by
  rw [mark, List.mapM_cons] at h
  cases hitem : bookmarker.bookmarkFor item with
  | error e =>
    rw [hitem] at h
    cases h
  | ok b =>
    cases hrest : mark bookmarker items with
    | error e =>
      rw [mark] at hrest
      rw [hitem, hrest] at h
      cases h
    | ok rest =>
      rw [mark] at hrest
      rw [hitem, hrest] at h
      obtain rfl : (item, b) :: rest = marked := Except.ok.inj h
      exact ⟨b, rest, rfl, rfl, rfl⟩

/-- Every bookmark of a marked list is derived for its item. -/
theorem ItemList.bookmarkFor_of_mark {bookmarker : Bookmarker α} :
    ∀ {items : List α} {marked : List (α × Bookmark)}, mark bookmarker items = .ok marked →
      ∀ e ∈ marked, bookmarker.bookmarkFor e.1 = .ok e.2
  | [], marked, h => by
    obtain rfl := Except.ok.inj h
    simp
  | item :: items, marked, h => by
    obtain ⟨b, rest, hitem, hrest, rfl⟩ := mark_cons h
    simp only [List.mem_cons, forall_eq_or_imp]
    exact ⟨hitem, bookmarkFor_of_mark hrest⟩

/-- A marked list has the items that were given, in their order. -/
theorem ItemList.items_of_mark {bookmarker : Bookmarker α} :
    ∀ {items : List α} {marked : List (α × Bookmark)}, mark bookmarker items = .ok marked →
      marked.map (·.1) = items
  | [], marked, h => by
    obtain rfl := Except.ok.inj h
    rfl
  | item :: items, marked, h => by
    obtain ⟨b, rest, -, hrest, rfl⟩ := mark_cons h
    rw [List.map_cons, items_of_mark hrest]

/-- The entries of a list stand in the order of its bookmarker, each with the bookmark that is
derived for its item. -/
structure ItemList.Ordered (list : ItemList α) : Prop where
  standard : list.bookmarker.Standard
  sorted : list.entries.Pairwise fun e f => list.bookmarker.compare e.2 f.2 ≠ .gt
  derived : ∀ e ∈ list.entries, list.bookmarker.bookmarkFor e.1 = .ok e.2

namespace ItemList

/-- Marked items that are sorted are in order. -/
theorem ordered_sort {bookmarker : Bookmarker α} (hstandard : bookmarker.Standard)
    {items : List α} {marked : List (α × Bookmark)} (h : mark bookmarker items = .ok marked) :
    Ordered ⟨bookmarker, sort bookmarker marked⟩ where
  standard := hstandard
  sorted := by
    have := hstandard.transCmp
    have := transCmp_on bookmarker.compare fun e : α × Bookmark => e.2
    exact pairwise_mergeSort (fun e f => bookmarker.compare e.2 f.2) marked
  derived e he := bookmarkFor_of_mark h e ((List.mergeSort_perm _ _).mem_iff.mp he)

variable {list : ItemList α}

/-- What comes after a place is the end of the list. -/
theorem after_suffix (list : ItemList α) (place : Option Bookmark) :
    ∃ before, list.entries = before ++ list.after place := by
  cases place with
  | none => exact ⟨[], rfl⟩
  | some place => exact ⟨_, (List.takeWhile_append_dropWhile).symm⟩

/-- No more comes after a place than there is. -/
theorem length_after_le (list : ItemList α) (place : Option Bookmark) :
    (list.after place).length ≤ list.entries.length := by
  obtain ⟨before, hbefore⟩ := list.after_suffix place
  rw [hbefore, List.length_append]
  omega

/-- What comes after a place is among the entries of the list. -/
theorem mem_entries_of_mem_after {place : Option Bookmark} {e : α × Bookmark}
    (h : e ∈ list.after place) : e ∈ list.entries := by
  obtain ⟨before, hbefore⟩ := list.after_suffix place
  rw [hbefore]
  exact List.mem_append_right before h

/-- What comes after a place: the items whose bookmarks follow it in the order of the bookmarker. -/
theorem Ordered.after_some (h : list.Ordered) (place : Bookmark) : list.after (some place)
    = list.entries.filter fun e => list.bookmarker.compare e.2 place == .gt := by
  have := h.standard.transCmp
  have hsorted := h.sorted
  rw [after]
  change List.dropWhile (fun e : α × Bookmark => list.bookmarker.compare e.2 place != .gt) _ = _
  generalize list.entries = entries at hsorted ⊢
  induction entries with
  | nil => rfl
  | cons e rest ih =>
    obtain ⟨hfirst, hrest⟩ := List.pairwise_cons.mp hsorted
    cases hplace : list.bookmarker.compare e.2 place with
    | gt =>
      -- Everything behind an item that follows the place follows it too.
      have hall : ∀ f ∈ rest, list.bookmarker.compare f.2 place = .gt := fun f hf =>
        OrientedCmp.gt_of_lt (TransCmp.lt_of_lt_of_isLE (OrientedCmp.lt_of_gt hplace)
          (Ordering.isLE_iff_ne_gt.mpr (hfirst f hf)))
      have hrest' : rest.filter (fun f => list.bookmarker.compare f.2 place == .gt) = rest := by
        simpa only [List.filter_eq_self, beq_iff_eq] using hall
      simp [hplace, hrest']
    | lt | eq => simpa [hplace] using ih hrest

/-- Less comes after an entry than after a place that the entry follows. -/
theorem Ordered.length_after_lt (h : list.Ordered) {place : Option Bookmark} {e : α × Bookmark}
    (he : e ∈ list.after place) :
    (list.after (some e.2)).length < (list.after place).length := by
  have := h.standard.transCmp
  -- What follows the entry follows the place as well, and the entry does not follow itself.
  have hafter : list.after (some e.2)
      = (list.after place).filter fun f => list.bookmarker.compare f.2 e.2 == .gt := by
    cases place with
    | none => exact h.after_some e.2
    | some b =>
      rw [h.after_some] at he
      obtain ⟨-, heb⟩ := List.mem_filter.mp he
      rw [h.after_some, h.after_some, List.filter_filter]
      refine List.filter_congr fun f _ => ?_
      cases hfe : list.bookmarker.compare f.2 e.2 with
      | gt => simp [TransCmp.gt_trans hfe (by simpa using heb)]
      | lt | eq => simp
  rw [hafter]
  refine List.length_filter_lt_length_iff_exists.mpr ⟨e, he, ?_⟩
  simp [ReflCmp.compare_self]

end ItemList

/-- Items with a bookmarker that derives bookmarks for all of them, no two alike, and accepts every
one. -/
structure Shelf (α : Type) where
  bookmarker : Bookmarker α
  items : List α
  /-- The items with their bookmarks, in the order given. -/
  marked : List (α × Bookmark)
  standard : bookmarker.Standard
  mark_eq : ItemList.mark bookmarker items = .ok marked
  distinct : (marked.map (·.2)).Nodup
  accepted : ∀ e ∈ marked, bookmarker.accepts e.2

namespace Shelf

variable (shelf : Shelf α)

/-- The items in the order of their bookmarks. -/
def list : ItemList α :=
  ⟨shelf.bookmarker, ItemList.sort shelf.bookmarker shelf.marked⟩

/-- The items as a collection. -/
def collection (σ : Type) : Collection σ α :=
  .leaf shelf.bookmarker shelf.list.source

/-- The collection of a shelf is made of its items. -/
theorem ofItems?_eq :
    Collection.ofItems? shelf.bookmarker shelf.items = .ok (shelf.collection σ) := by
  rw [Collection.ofItems?, ItemList.ofItems?, shelf.mark_eq]
  rfl

/-- Every item of a shelf is marked, in the order given. -/
theorem items_marked : shelf.marked.map (·.1) = shelf.items :=
  ItemList.items_of_mark shelf.mark_eq

/-- The items of a shelf are sorted, not changed. -/
theorem entries_perm : shelf.list.entries.Perm shelf.marked :=
  List.mergeSort_perm _ _

/-- Every bookmark of a shelf is derived for its item. -/
theorem bookmarkFor_eq {e : α × Bookmark} (he : e ∈ shelf.list.entries) :
    shelf.bookmarker.bookmarkFor e.1 = .ok e.2 :=
  ItemList.bookmarkFor_of_mark shelf.mark_eq e (shelf.entries_perm.mem_iff.mp he)

/-- A shelf is in order. -/
theorem ordered : shelf.list.Ordered :=
  ItemList.ordered_sort shelf.standard shelf.mark_eq

/-- **The items of a shelf stand strictly in order.** -/
theorem entries_pairwise :
    shelf.list.entries.Pairwise fun e f => shelf.bookmarker.compare e.2 f.2 = .lt := by
  have hsorted : shelf.list.entries.Pairwise fun e f => shelf.bookmarker.compare e.2 f.2 ≠ .gt :=
    shelf.ordered.sorted
  -- A stable sort keeps equal bookmarks side by side, and here there are none.
  have hdistinct : (shelf.list.entries.map (·.2)).Nodup :=
    (shelf.entries_perm.map _).nodup_iff.mpr shelf.distinct
  refine (hsorted.and (List.pairwise_map.mp hdistinct)).imp_of_mem ?_
  rintro e f he hf ⟨hle, hne⟩
  have hne' : shelf.bookmarker.compare e.2 f.2 ≠ .eq := fun heq =>
    hne (shelf.standard.eq_of_compare (shelf.accepted e (shelf.entries_perm.mem_iff.mp he))
      (shelf.accepted f (shelf.entries_perm.mem_iff.mp hf)) heq)
  revert hle hne'
  cases shelf.bookmarker.compare e.2 f.2 <;> simp

/-- What comes after a place: the items whose bookmarks follow it in the order of the bookmarker. -/
theorem after_some (place : Bookmark) : shelf.list.after (some place)
    = shelf.list.entries.filter fun e => shelf.bookmarker.compare e.2 place == .gt :=
  shelf.ordered.after_some place

/-- What comes after an item of a shelf is what stands behind it. -/
theorem after_mark {before after : List (α × Bookmark)} {e : α × Bookmark}
    (h : shelf.list.entries = before ++ e :: after) : shelf.list.after (some e.2) = after := by
  have := shelf.standard.transCmp
  have hsorted := shelf.entries_pairwise
  rw [h, List.pairwise_append, List.pairwise_cons] at hsorted
  obtain ⟨-, ⟨hafter, -⟩, hbefore⟩ := hsorted
  rw [shelf.after_some, h, List.filter_append, List.filter_cons]
  have hnone : before.filter (fun f => shelf.bookmarker.compare f.2 e.2 == .gt) = [] := by
    simp only [List.filter_eq_nil_iff, beq_iff_eq]
    intro f hf
    simp [hbefore f hf e (by simp)]
  have hall : after.filter (fun f => shelf.bookmarker.compare f.2 e.2 == .gt) = after := by
    simp only [List.filter_eq_self, beq_iff_eq]
    exact fun f hf => OrientedCmp.gt_of_lt (hafter f hf)
  simp [hnone, hall, ReflCmp.compare_self]

/-- The items of a shelf after a place can be put in order in one way only. -/
theorem eq_after_of_perm {place : Option Bookmark} {es : List (α × Bookmark)}
    (hperm : es.Perm (shelf.list.after place))
    (hsorted : es.Pairwise fun e f => shelf.bookmarker.compare e.2 f.2 ≠ .gt) :
    es = shelf.list.after place := by
  have := shelf.standard.transCmp
  obtain ⟨before, hbefore⟩ := shelf.list.after_suffix place
  have hafter : (shelf.list.after place).Pairwise fun e f =>
      shelf.bookmarker.compare e.2 f.2 ≠ .gt := by
    have hentries := shelf.entries_pairwise
    rw [hbefore] at hentries
    exact (List.pairwise_append.mp hentries).2.1.imp fun hlt => by simp [hlt]
  refine List.Perm.eq_of_pairwise ?_ hsorted hafter hperm
  intro e f he hf hef hfe
  have he := shelf.entries_perm.mem_iff.mp
    (ItemList.mem_entries_of_mem_after (hperm.mem_iff.mp he))
  have hf := shelf.entries_perm.mem_iff.mp (ItemList.mem_entries_of_mem_after hf)
  -- Entries that come after each other neither way are level, so their bookmarks are the same.
  have heq : shelf.bookmarker.compare e.2 f.2 = .eq := by
    cases hcompare : shelf.bookmarker.compare e.2 f.2 with
    | lt => exact absurd (OrientedCmp.gt_of_lt hcompare) hfe
    | eq => rfl
    | gt => exact absurd hcompare hef
  exact List.inj_on_of_nodup_map shelf.distinct he hf
    (shelf.standard.eq_of_compare (shelf.accepted e he) (shelf.accepted f hf) heq)

end Shelf

end KeysetPaging
