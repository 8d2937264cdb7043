import KeysetPaging.Collection.Fill
import KeysetPaging.Proofs.Run
import Mathlib.Data.List.Basic
import Mathlib.Tactic.SplitIfs

/-! # What is read from a place on

A course says, for every place in a collection, what is read from there to the end, and how many
items of leaves are left. A page follows the course when its items, and then whatever is read from
the place where the next page resumes, are read from the place where the page starts. Every item of
the page is such a place too, since a caller that builds on the page may stop after any of them.
-/

namespace KeysetPaging

variable {σ α β : Type}

/-- What is still to be read. -/
structure Remainder (α : Type) where
  /-- These items, with their bookmarks, may be read to the end. A merge leaves the order in which
  its sources take turns open. -/
  Reads : List (α × Bookmark) → Prop
  /-- The number of items of leaves that are left. -/
  left : Nat

namespace Remainder

/-- Just these items are left. -/
def exactly (es : List (α × Bookmark)) : Remainder α :=
  ⟨fun zs => zs = es, es.length⟩

/-- Nothing is left. -/
def done : Remainder α :=
  exactly []

/-- What is left of the items that pass a test. Those that do not are still to be read. -/
def filter (keep : α → Bool) (r : Remainder α) : Remainder α :=
  ⟨fun zs => ∃ es, r.Reads es ∧ zs = es.filter fun e => keep e.1, r.left⟩

/-- What is left of the images of items. -/
def map (g : α × Bookmark → β × Bookmark) (r : Remainder α) : Remainder β :=
  ⟨fun zs => ∃ es, r.Reads es ∧ zs = es.map g, r.left⟩

/-- What is left in one collection and after that in others. -/
def append (r s : Remainder α) : Remainder α :=
  ⟨fun zs => ∃ es fs, r.Reads es ∧ s.Reads fs ∧ zs = es ++ fs, r.left + s.left⟩

/-- Some items, which may be none, come between one remainder and the other. With an item less is
left. -/
structure Reaches (here : Remainder α) (es : List (α × Bookmark)) (there : Remainder α) :
    Prop where
  goes : ∀ zs, there.Reads zs → here.Reads (es ++ zs)
  le : there.left ≤ here.left
  lt : es ≠ [] → there.left < here.left

namespace Reaches

variable {here there far : Remainder α} {es fs : List (α × Bookmark)}

/-- No items come between a remainder and itself. -/
theorem refl (here : Remainder α) : here.Reaches [] here :=
  ⟨fun _ h => h, Nat.le_refl _, fun h => absurd rfl h⟩

/-- Items that lead on from where others led come after them. -/
theorem trans (h : here.Reaches es there) (h' : there.Reaches fs far) :
    here.Reaches (es ++ fs) far where
  goes zs hzs := by
    rw [List.append_assoc]
    exact h.goes _ (h'.goes zs hzs)
  le := Nat.le_trans h'.le h.le
  lt hne := by
    -- Whichever part has an item makes what is left less.
    by_cases hfs : fs = []
    · have hes : es ≠ [] := by simpa [hfs] using hne
      exact Nat.lt_of_le_of_lt h'.le (h.lt hes)
    · exact Nat.lt_of_lt_of_le (h'.lt hfs) h.le

/-- Items lead to any remainder that asks for no more than the one they lead to. -/
theorem weaken (h : here.Reaches es there) (hreads : ∀ zs, far.Reads zs → there.Reads zs)
    (hleft : far.left ≤ there.left) : here.Reaches es far where
  goes zs hzs := h.goes zs (hreads zs hzs)
  le := Nat.le_trans hleft h.le
  lt hne := Nat.lt_of_le_of_lt hleft (h.lt hne)

/-- Just some items are left, and after the first of them the rest. -/
theorem exactly_append (es fs : List (α × Bookmark)) :
    (exactly (es ++ fs)).Reaches es (exactly fs) where
  goes := by
    rintro _ rfl
    rfl
  le := by simp [exactly]
  lt hne := by
    have := List.length_pos_of_ne_nil hne
    simp only [exactly, List.length_append]
    omega

/-- What is passed on of some items leads on, when what is left is made in the same way. -/
theorem filterMap {T : Remainder α → Remainder β} {g : α × Bookmark → Option (β × Bookmark)}
    {n : Nat}
    (hreads : ∀ {here there : Remainder α} {es}, (∀ zs, there.Reads zs → here.Reads (es ++ zs)) →
      ∀ zs, (T there).Reads zs → (T here).Reads (es.filterMap g ++ zs))
    (hleft : ∀ r, (T r).left = r.left + n) (h : here.Reaches es there) :
    (T here).Reaches (es.filterMap g) (T there) where
  goes := hreads h.goes
  le := by
    have := h.le
    rw [hleft, hleft]
    omega
  lt hne := by
    have hes : es ≠ [] := by
      rintro rfl
      exact hne rfl
    have := h.lt hes
    rw [hleft, hleft]
    omega

end Reaches

end Remainder

/-- What is left from every place on. Without a place it is the whole collection. -/
abbrev Course (α : Type) := Option Bookmark → Remainder α

namespace Course

/-- What is left after a page that resumes at a place, or ends the sequence. -/
def ahead (course : Course α) : Option Bookmark → Remainder α
  | none => .done
  | some b => course (some b)

/-- Some items lead from one remainder to another, and the bookmark of every single one is a place
on the way. -/
structure Covers (course : Course α) (here : Remainder α) (es : List (α × Bookmark))
    (there : Remainder α) : Prop extends here.Reaches es there where
  marks : ∀ before e after, es = before ++ e :: after →
    here.Reaches (before ++ [e]) (course (some e.2))

variable {course : Course α} {here there far : Remainder α} {es fs : List (α × Bookmark)}

namespace Covers

theorem refl (course : Course α) (here : Remainder α) : course.Covers here [] here where
  toReaches := .refl here
  marks := by simp

/-- Items that lead on from where others led come after them. -/
theorem trans (h : course.Covers here es there) (h' : course.Covers there fs far) :
    course.Covers here (es ++ fs) far where
  toReaches := h.toReaches.trans h'.toReaches
  marks before e after heq := by
    rcases List.append_eq_append_iff.mp heq with ⟨middle, hbefore, hafter⟩ | ⟨middle, hes, hrest⟩
    · -- The item is one of the second part.
      rw [hbefore, List.append_assoc]
      exact h.toReaches.trans (h'.marks middle e after hafter)
    · cases middle with
      | nil =>
        -- The item is the first of the second part.
        obtain rfl : es = before := by simpa using hes
        exact h.toReaches.trans (h'.marks [] e after (by simpa using hrest.symm))
      | cons f middle =>
        obtain ⟨rfl, -⟩ := List.cons.inj hrest
        exact h.marks before e middle hes

/-- The first of some items lead to the bookmark of the last one among them. -/
theorem front {front rest : List (α × Bookmark)} {e : α × Bookmark}
    (h : course.Covers here (front ++ rest) there) (he : front.getLast? = some e) :
    course.Covers here front (course (some e.2)) := by
  obtain ⟨before, rfl⟩ := List.getLast?_eq_some_iff.mp he
  refine ⟨h.marks before e rest (by simp), fun first f later heq => ?_⟩
  exact h.marks first f (later ++ rest) (by simp [heq])

/-- Items lead to any remainder that asks for no more than the one they lead to. -/
theorem weaken (h : course.Covers here es there) (hreads : ∀ zs, far.Reads zs → there.Reads zs)
    (hleft : far.left ≤ there.left) : course.Covers here es far where
  toReaches := h.toReaches.weaken hreads hleft
  marks := h.marks

/-- A collection that passes on some of the items of another, each with a place of its own, follows
a course that is made of the other one's course in the same way. -/
theorem filterMap {outer : Course β} {T : Remainder α → Remainder β}
    {g : α × Bookmark → Option (β × Bookmark)} {n : Nat}
    (hreads : ∀ {here there : Remainder α} {es}, (∀ zs, there.Reads zs → here.Reads (es ++ zs)) →
      ∀ zs, (T there).Reads zs → (T here).Reads (es.filterMap g ++ zs))
    (hleft : ∀ r, (T r).left = r.left + n)
    (hmark : ∀ e f, g e = some f → outer (some f.2) = T (course (some e.2)))
    (h : course.Covers here es there) : outer.Covers (T here) (es.filterMap g) (T there) where
  toReaches := h.toReaches.filterMap hreads hleft
  marks before f after heq := by
    obtain ⟨first, later, rfl, hfirst, hlater⟩ := List.filterMap_eq_append_iff.mp heq
    -- The items that were left out in front of this one are covered together with it.
    obtain ⟨skipped, e, rest, rfl, hskipped, he, -⟩ := List.filterMap_eq_cons_iff.mp hlater
    have hnone : skipped.filterMap g = [] := List.filterMap_eq_nil_iff.mpr hskipped
    have hmarks := (h.marks (first ++ skipped) e rest (by simp)).filterMap hreads hleft
    rw [hmark e f he]
    simpa [List.filterMap_append, hfirst, he, hnone] using hmarks

end Covers

end Course

end KeysetPaging
