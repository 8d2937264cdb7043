import KeysetPaging.Proofs.Orderly

/-! # Boxes

A box is a concatenation of a single list. It is read as its list is, but every place stands under
its label. Under one label places are compared as the keys are, and under different labels by these
alone.
-/

namespace KeysetPaging

variable {σ α : Type} {direction : Direction} {key : α → Bookmark}

/-- The bookmarks of a shelf are the keys of its items, in the order of a direction. -/
structure Shelf.KeyedBy (direction : Direction) (key : α → Bookmark) (shelf : Shelf α) : Prop where
  along : shelf.Along direction
  mark_eq_key : ∀ e ∈ shelf.marked, e.2 = key e.1

/-- What is read of a shelf that is marked with keys is sorted by them. -/
theorem Shelf.KeyedBy.sortsBy {shelf : Shelf α} (h : shelf.KeyedBy direction key)
    (place : Option Bookmark) : direction.SortsBy key ((shelf.list.after place).map (·.1)) := by
  obtain ⟨before, hbefore⟩ := shelf.list.after_suffix place
  have hsorts := h.along.sorts
  rw [Direction.Sorts, hbefore] at hsorts
  rw [Direction.SortsBy, List.pairwise_map]
  refine (List.pairwise_append.mp hsorts).2.1.imp_of_mem fun {e f} he hf hlt => ?_
  have hmarked : ∀ e ∈ shelf.list.after place, e.2 = key e.1 := fun e he =>
    h.mark_eq_key e (shelf.entries_perm.mem_iff.mp (ItemList.mem_entries_of_mem_after he))
  rw [← hmarked e he, ← hmarked f hf, hlt]
  simp

/-- A list of items as the only source of a concatenation. -/
def Tree.boxed (label : String) (h : label ≠ "") (shelf : Shelf α) : Tree α :=
  .concat (.cons label (.leaf shelf) .nil) (by simp [checkLabels, badLabel?, h])

@[simp] theorem Tree.levels_boxed (label : String) (h : label ≠ "") (shelf : Shelf α) :
    (boxed label h shelf).levels = shelf.levels + 2 := by
  simp [boxed, levels, Branches.levels]

section Boxes

variable {label : String} (hlabel : label ≠ "") {shelf : Shelf α}

/-- What is read of a box is read of its list, and stands under its label. -/
theorem Tree.reads_boxed {place : Option Bookmark} {zs : List (α × Bookmark)}
    (h : ((boxed label hlabel shelf).course place).Reads zs) : ∃ position,
      zs = (shelf.list.after position).map fun e => (e.1, Concat.place label e.2) := by
  have hrow : ∀ (from? : Option String) (position : Option Bookmark),
      from?.any (· ≠ label) = false →
        (Course.row [(label, shelf.course)] from? position).Reads zs →
          zs = (shelf.list.after position).map fun e => (e.1, Concat.place label e.2) := by
    rintro from? position hfrom hreads
    rw [Course.row_here hfrom, shelf.course_eq] at hreads
    obtain ⟨_, _, ⟨_, rfl, rfl⟩, rfl, rfl⟩ := hreads
    exact List.append_nil _
  change (Course.concat [(label, shelf.course)] place).Reads zs at h
  unfold Course.concat at h
  split at h
  next other position =>
    refine ⟨position, hrow _ position ?_ h⟩
    by_cases hother : other = label <;> simp [hother]
  next => exact ⟨none, hrow none none rfl h⟩

variable (hlevels : (Tree.boxed label hlabel shelf).levels ≤ 127)
  (hkeyed : shelf.KeyedBy direction key)

include hlevels hkeyed

/-- A box of a list that is marked with keys is orderly. -/
theorem Tree.boxed_orderly :
    ((Tree.boxed label hlabel shelf).collection σ).Orderly direction key := by
  have hkeeps := (Tree.boxed label hlabel shelf).keeps σ hlevels
  refine Collection.orderly_of_reads (((Tree.boxed label hlabel shelf).follows σ).gives hkeeps)
    hkeeps (fun _ hb => hb) fun place _ zs hzs => ?_
  obtain ⟨position, rfl⟩ := reads_boxed hlabel hzs
  simpa [Function.comp_def] using hkeyed.sortsBy position

/-- A box shows its items with their keys under its label. -/
theorem Tree.boxed_shows {e : α × Bookmark}
    (h : ((Tree.boxed label hlabel shelf).collection σ).Shows e) :
    e.2 = Concat.place label (key e.1) := by
  obtain ⟨place, zs, -, hzs, he⟩ := h.exists_reads ((Tree.boxed label hlabel shelf).follows σ)
    ((Tree.boxed label hlabel shelf).keeps σ hlevels) fun _ hb => hb
  obtain ⟨position, rfl⟩ := reads_boxed hlabel hzs
  obtain ⟨f, hf, rfl⟩ := List.mem_map.mp he
  have hmarked := shelf.entries_perm.mem_iff.mp (ItemList.mem_entries_of_mem_after hf)
  rw [hkeyed.mark_eq_key f hmarked]

end Boxes

/-- Under one label places are compared as they are without it. -/
theorem Direction.order_place (direction : Direction) (label : String) (b c : Bookmark) :
    direction.order (Concat.place label b) (Concat.place label c) = direction.order b c := by
  have hlabel : compareText label label = .eq := Std.ReflCmp.compare_self
  simp [order, Concat.place, Bookmark.compare, Bookmark.comparePosition, hlabel]

theorem Shelf.letters_keyedBy {first second : String} (h : first ≠ second) :
    (Shelf.letters first second h).KeyedBy .ascending .text :=
  ⟨fun _ _ _ _ => rfl, by simp [letters]⟩

theorem Shelf.list_letters {first second : String} (h : first ≠ second)
    (hle : compareText first second ≠ .gt) : (letters first second h).list
      = ⟨(letters first second h).bookmarker, [(first, .text first), (second, .text second)]⟩ := by
  refine congrArg (ItemList.mk _) (List.mergeSort_of_pairwise ?_)
  simpa [letters, Bookmarker.key, Direction.apply, Bookmark.compare] using hle

end KeysetPaging
