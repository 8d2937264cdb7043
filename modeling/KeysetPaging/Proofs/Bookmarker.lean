import KeysetPaging.Bookmarker
import KeysetPaging.Proofs.Order

/-! # The orders of bookmarkers

A bookmarker compares all bookmarks, also those that are not its own: a caller may send any bookmark
that it accepts. Each kind of bookmarker puts all bookmarks into one order, and tells
those apart that it accepts.
-/

namespace KeysetPaging.Bookmarker

open Std

/-- The kinds of bookmarkers: of one field, of several fields, of a computed key, and any other that
compares bookmarks naturally, in a direction. -/
inductive Standard : {α : Type} → Bookmarker α → Prop where
  | simple (field : SortField) : Standard (simple field)
  | composite (fields : List SortField) : Standard (composite fields)
  | key {α : Type} (f : α → Bookmark) (accepts : Bookmark → Bool) (direction : Direction) :
      Standard (key f accepts direction)
  | natural {α : Type} {bookmarker : Bookmarker α} (direction : Direction)
      (compare_eq : bookmarker.compare = direction.order) : Standard bookmarker

/-! ## Tuples -/

/-- Two tuples are compared by the first field in which they differ. -/
theorem compareFields_cons (field : SortField) (fields : List SortField) (a b : Bookmark)
    (as bs : List Bookmark) : compareFields (field :: fields) (a :: as) (b :: bs)
      = (field.direction.order a b).then (compareFields fields as bs) := by
  rw [compareFields, Direction.order]
  cases field.direction.apply (Bookmark.compare a b) <;> rfl

/-- Two tuples the other way round are in the order the other way round. -/
theorem compareFields_swap : ∀ (fields : List SortField) (as bs : List Bookmark),
    compareFields fields as bs = (compareFields fields bs as).swap
  | [], as, bs => by
    simp only [compareFields]
    exact OrientedCmp.eq_swap
  | _ :: _, [], bs | _ :: _, bs, [] => by
    simp only [compareFields]
    exact OrientedCmp.eq_swap
  | field :: fields, a :: as, b :: bs => by
    have hfirst : field.direction.order a b = (field.direction.order b a).swap :=
      OrientedCmp.eq_swap
    rw [compareFields_cons, compareFields_cons, Ordering.swap_then, ← hfirst,
      ← compareFields_swap fields as bs]

/-- A tuple that does not come after a second one, which does not come after a third, does not come
after the third. -/
theorem compareFields_trans : ∀ {fields : List SortField} {as bs cs : List Bookmark},
    (compareFields fields as bs).isLE → (compareFields fields bs cs).isLE →
      (compareFields fields as cs).isLE
  | [], as, bs, cs, hab, hbc => by
    simp only [compareFields] at hab hbc ⊢
    exact TransCmp.isLE_trans hab hbc
  | _ :: _, [], _, cs, _, _ => by
    -- A tuple that has no parts left comes before any other.
    simp only [compareFields, compareInt]
    split_ifs <;> simp_all
  | _ :: _, _ :: _, [], _, hab, _ => by
    simp only [compareFields, compareInt, List.length_cons, List.length_nil] at hab
    split_ifs at hab <;> first | omega | cases hab
  | _ :: _, _ :: _, _ :: _, [], _, hbc => by
    simp only [compareFields, compareInt, List.length_cons, List.length_nil] at hbc
    split_ifs at hbc <;> first | omega | cases hbc
  | field :: fields, a :: as, b :: bs, c :: cs, hab, hbc => by
    rw [compareFields_cons, Ordering.isLE_then_iff_and] at hab hbc ⊢
    obtain ⟨hab, hab'⟩ := hab
    obtain ⟨hbc, hbc'⟩ := hbc
    -- The first field decides unless it is level in both steps.
    refine ⟨TransCmp.isLE_trans hab hbc, ?_⟩
    rcases hab' with hab' | hab'
    · exact Or.inl (TransCmp.lt_of_lt_of_isLE hab' hbc)
    · rcases hbc' with hbc' | hbc'
      · exact Or.inl (TransCmp.lt_of_isLE_of_lt hab hbc')
      · exact Or.inr (compareFields_trans hab' hbc')

/-- Tuples with a value of every field that are level are equal. -/
theorem eq_of_compareFields : ∀ {fields : List SortField} {as bs : List Bookmark},
    acceptsParts fields as → acceptsParts fields bs → compareFields fields as bs = .eq → as = bs
  | [], [], [], _, _, _ => rfl
  | field :: fields, a :: as, b :: bs, has, hbs, h => by
    rw [compareFields_cons, Ordering.then_eq_eq] at h
    rw [acceptsParts, Bool.and_eq_true] at has hbs
    rw [LawfulEqCmp.eq_of_compare h.1, eq_of_compareFields has.2 hbs.2 h.2]
  | [], _ :: _, _, has, _, _ => by simp [acceptsParts] at has
  | _ :: _, [], _, has, _, _ => by simp [acceptsParts] at has
  | [], [], _ :: _, _, hbs, _ => by simp [acceptsParts] at hbs
  | _ :: _, _ :: _, [], _, hbs, _ => by simp [acceptsParts] at hbs

/-- Bookmarks that are not both tuples are compared naturally. -/
theorem composite_compare {fields : List SortField} {a b : Bookmark}
    (h : a.rank ≠ 5 ∨ b.rank ≠ 5) : (composite fields).compare a b = Bookmark.compare a b := by
  cases a <;> cases b <;> first | rfl | simp [Bookmark.rank] at h

theorem eq_tuple_of_rank {b : Bookmark} (h : b.rank = 5) : ∃ parts, b = .tuple parts := by
  cases b <;> simp [Bookmark.rank] at h
  exact ⟨_, rfl⟩

/-- A bookmark of several fields is a tuple with a value of every field. -/
theorem eq_tuple_of_accepts {fields : List SortField} {b : Bookmark}
    (h : (composite fields).accepts b) : ∃ parts, b = .tuple parts ∧ acceptsParts fields parts := by
  cases b with
  | tuple parts => exact ⟨parts, rfl, h⟩
  | _ => cases h

/-- Two bookmarks the other way round are in the order the other way round. -/
theorem composite_swap (fields : List SortField) (a b : Bookmark) :
    (composite fields).compare a b = ((composite fields).compare b a).swap := by
  by_cases hrank : a.rank = 5 ∧ b.rank = 5
  · obtain ⟨as, rfl⟩ := eq_tuple_of_rank hrank.1
    obtain ⟨bs, rfl⟩ := eq_tuple_of_rank hrank.2
    exact compareFields_swap fields as bs
  · rw [composite_compare (by omega), composite_compare (by omega), Bookmark.compare_swap a b]

/-- A bookmark that does not come after another is of the same shape or of one that ranks lower. -/
theorem rank_le_of_composite {fields : List SortField} {a b : Bookmark}
    (h : ((composite fields).compare a b).isLE) : a.rank ≤ b.rank := by
  by_cases hrank : a.rank = b.rank
  · omega
  · rw [composite_compare (by omega), Bookmark.compare_of_rank_ne hrank, compareInt] at h
    split_ifs at h
    · omega
    · cases h
    · omega

/-- Of two bookmarks of different shapes the one comes first whose shape ranks lower. -/
theorem composite_of_rank_lt {fields : List SortField} {a b : Bookmark} (h : a.rank < b.rank) :
    (composite fields).compare a b = .lt := by
  rw [composite_compare (by omega), Bookmark.compare_of_rank_ne (by omega), compareInt,
    if_pos (by omega)]

/-- A bookmark that does not come after a second one, which does not come after a third, does not
come after the third. -/
theorem composite_trans {fields : List SortField} {a b c : Bookmark}
    (hab : ((composite fields).compare a b).isLE) (hbc : ((composite fields).compare b c).isLE) :
    ((composite fields).compare a c).isLE := by
  have hrankab := rank_le_of_composite hab
  have hrankbc := rank_le_of_composite hbc
  by_cases hlt : a.rank < c.rank
  · rw [composite_of_rank_lt hlt]
    rfl
  · -- All three are of one shape.
    by_cases htuple : b.rank = 5
    · obtain ⟨as, rfl⟩ := eq_tuple_of_rank (b := a) (by omega)
      obtain ⟨bs, rfl⟩ := eq_tuple_of_rank htuple
      obtain ⟨cs, rfl⟩ := eq_tuple_of_rank (b := c) (by omega)
      exact compareFields_trans hab hbc
    · rw [composite_compare (by omega)] at hab hbc ⊢
      exact TransCmp.isLE_trans hab hbc

/-! ## All kinds -/

variable {α : Type} {bookmarker : Bookmarker α}

/-- **A bookmarker puts all bookmarks into one order**, whether they are its own or not. -/
theorem Standard.transCmp (h : bookmarker.Standard) : TransCmp bookmarker.compare := by
  cases h with
  | simple field => exact inferInstanceAs (TransCmp field.direction.order)
  | composite fields =>
    exact { eq_swap := composite_swap fields _ _, isLE_trans := composite_trans }
  | key f accepts direction => exact inferInstanceAs (TransCmp direction.order)
  | natural direction compare_eq =>
    rw [compare_eq]
    infer_instance

/-- **A bookmarker tells apart the bookmarks that it accepts.** -/
theorem Standard.eq_of_compare (h : bookmarker.Standard) {a b : Bookmark}
    (ha : bookmarker.accepts a) (hb : bookmarker.accepts b) (hab : bookmarker.compare a b = .eq) :
    a = b := by
  cases h with
  | simple field =>
    have hab : field.direction.order a b = .eq := hab
    exact LawfulEqCmp.eq_of_compare hab
  | composite fields =>
    obtain ⟨as, rfl, has⟩ := eq_tuple_of_accepts ha
    obtain ⟨bs, rfl, hbs⟩ := eq_tuple_of_accepts hb
    rw [eq_of_compareFields has hbs hab]
  | key f accepts direction =>
    have hab : direction.order a b = .eq := hab
    exact LawfulEqCmp.eq_of_compare hab
  | natural direction compare_eq =>
    rw [compare_eq] at hab
    exact LawfulEqCmp.eq_of_compare hab

end KeysetPaging.Bookmarker
