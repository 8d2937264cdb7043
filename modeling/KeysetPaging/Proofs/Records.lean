import KeysetPaging.Proofs.Shelf
import KeysetPaging.Proofs.SortKeys

/-! # Records in the order of sort fields

A list of records that have a value of every sort field is marked with their keys and sorted by
them. The order of the keys is the order of the records: the first field in which two of them differ
decides. Records that differ in a sort field make a shelf.
-/

namespace KeysetPaging

namespace SortField

/-- Every item has a value of every sort field. -/
def Keyed (fields : List SortField) (items : List Json) : Prop :=
  ∀ item ∈ items, ∀ field ∈ fields, ∃ b, field.bookmarkFor item = .ok b

/-- Items that have a value of every sort field are marked with their keys. -/
theorem Keyed.exists_mark {fields : List SortField} {items : List Json} (h : Keyed fields items) :
    ∃ marked, ItemList.mark (.ofFields fields) items = .ok marked := by
  refine exists_mapM_eq_ok fun item hitem => ?_
  obtain ⟨b, hb⟩ := Bookmarker.exists_ofFields_bookmarkFor (h item hitem)
  exact ⟨(item, b), by rw [hb]; rfl⟩

/-- The order of two records by one field: that of their values, of which null is the least, turned
around where the field descends. -/
def compareIn (field : SortField) (a b : Json) : Ordering :=
  match field.bookmarkFor a, field.bookmarkFor b with
  | .ok x, .ok y => field.direction.apply (Bookmark.compare x y)
  | _, _ => .eq

/-- The order of two records by several fields: the first field in which they differ decides. -/
def compareRecords (fields : List SortField) (a b : Json) : Ordering :=
  fields.foldr (fun field rest => (field.compareIn a b).then rest) .eq

/-- No two items have the same value in every sort field. -/
def Distinct (fields : List SortField) (items : List Json) : Prop :=
  items.Pairwise fun a b => ∃ field ∈ fields, field.bookmarkFor a ≠ field.bookmarkFor b

/-- Keys are compared as the records that they are derived for. -/
theorem compareRecords_eq {fields : List SortField} {a b : Json} {as bs : List Bookmark}
    (ha : List.Forall₂ (fun field part => field.bookmarkFor a = .ok part) fields as)
    (hb : List.Forall₂ (fun field part => field.bookmarkFor b = .ok part) fields bs) :
    compareRecords fields a b = Bookmarker.compareFields fields as bs := by
  induction ha generalizing bs with
  | nil =>
    cases hb
    rfl
  | cons hfirst _ ih =>
    cases hb with
    | cons hfirst' hrest' =>
      rw [Bookmarker.compareFields_cons, ← ih hrest', compareRecords, List.foldr_cons, compareIn,
        hfirst, hfirst']
      rfl

/-- The order of a sequence is the order of its records. -/
theorem compareRecords_eq_compare {fields : List SortField} {a b : Json} {x y : Bookmark}
    (ha : (Bookmarker.ofFields fields).bookmarkFor a = .ok x)
    (hb : (Bookmarker.ofFields fields).bookmarkFor b = .ok y) :
    (Bookmarker.ofFields fields).compare x y = compareRecords fields a b := by
  rw [Bookmarker.ofFields_compare (Bookmarker.ofFields_accepts_of_bookmarkFor ha)
    (Bookmarker.ofFields_accepts_of_bookmarkFor hb)]
  exact (compareRecords_eq (Bookmarker.ofFields_bookmarkFor ha)
    (Bookmarker.ofFields_bookmarkFor hb)).symm

/-- Records that have one key have the same value in every field. -/
theorem bookmarkFor_eq_of_key {fields : List SortField} {a b : Json} {parts : List Bookmark}
    (ha : List.Forall₂ (fun field part => field.bookmarkFor a = .ok part) fields parts)
    (hb : List.Forall₂ (fun field part => field.bookmarkFor b = .ok part) fields parts) :
    ∀ field ∈ fields, field.bookmarkFor a = field.bookmarkFor b := by
  induction ha with
  | nil => simp
  | cons hfirst _ ih =>
    cases hb with
    | cons hfirst' hrest' =>
      simp only [List.mem_cons, forall_eq_or_imp]
      exact ⟨hfirst.trans hfirst'.symm, ih hrest'⟩

/-- Items that differ in a sort field are marked with keys that differ. -/
theorem Distinct.nodup {fields : List SortField} {items : List Json}
    {marked : List (Json × Bookmark)} (h : Distinct fields items)
    (hmarked : ItemList.mark (.ofFields fields) items = .ok marked) :
    (marked.map (·.2)).Nodup := by
  rw [← ItemList.items_of_mark hmarked, Distinct, List.pairwise_map] at h
  refine List.pairwise_map.mpr (h.imp_of_mem ?_)
  rintro e f he hf ⟨field, hfield, hne⟩ heq
  have hekey := Bookmarker.ofFields_bookmarkFor (ItemList.bookmarkFor_of_mark hmarked e he)
  have hfkey := Bookmarker.ofFields_bookmarkFor (ItemList.bookmarkFor_of_mark hmarked f hf)
  rw [heq] at hekey
  exact hne (bookmarkFor_eq_of_key hekey hfkey field hfield)

end SortField

/-- The shelf of the items of a definition whose keys differ. -/
def Shelf.ofRecords (fields : List SortField) (items : List Json)
    (marked : List (Json × Bookmark))
    (hmarked : ItemList.mark (.ofFields fields) items = .ok marked)
    (hdistinct : SortField.Distinct fields items) : Shelf Json where
  bookmarker := .ofFields fields
  items
  marked
  standard := Bookmarker.ofFields_standard fields
  mark_eq := hmarked
  distinct := hdistinct.nodup hmarked
  accepted e he :=
    Bookmarker.ofFields_accepts_of_bookmarkFor (ItemList.bookmarkFor_of_mark hmarked e he)

/-- Sorting keeps all items. -/
theorem ItemList.length_sort {α : Type} {bookmarker : Bookmarker α} {items : List α}
    {marked : List (α × Bookmark)} (h : mark bookmarker items = .ok marked) :
    (sort bookmarker marked).length = items.length := by
  rw [sort, List.length_mergeSort, ← items_of_mark h, List.length_map]

/-- Marked items are sorted as the records they are. -/
theorem ItemList.map_sort_ofFields {fields : List SortField} {items : List Json}
    {marked : List (Json × Bookmark)} (h : mark (.ofFields fields) items = .ok marked) :
    (sort (.ofFields fields) marked).map (·.1)
      = items.mergeSort fun a b => SortField.compareRecords fields a b != .gt := by
  rw [sort, List.map_mergeSort (s := fun a b => SortField.compareRecords fields a b != .gt),
    items_of_mark h]
  intro e he f hf
  rw [SortField.compareRecords_eq_compare (bookmarkFor_of_mark h e he)
    (bookmarkFor_of_mark h f hf)]

end KeysetPaging
