import KeysetPaging.Proofs.Bookmarker

/-! # What sorting and searching rely on

A list of items is sorted by the comparison of its bookmarker, and the place of a page is searched
for by the same comparison. Both take for granted that it is a total preorder of all bookmarks,
those included that a caller makes up: single values beside tuples, tuples with parts missing or
left over, and places in joints. Each kind of bookmarker compares by such an order. What it takes
for level is one bookmark, or two tuples that differ only in parts without a field.
-/

namespace KeysetPaging

open Std

variable {α : Type}

/-- The laws of a comparison that can be sorted and searched by. Things that are level need not be
equal. -/
structure TotalPreorder (cmp : α → α → Ordering) : Prop where
  refl : ∀ a, cmp a a = .eq
  swap : ∀ a b, cmp b a = (cmp a b).swap
  total : ∀ a b, cmp a b ≠ .gt ∨ cmp b a ≠ .gt
  trans : ∀ {a b c}, cmp a b ≠ .gt → cmp b c ≠ .gt → cmp a c ≠ .gt

theorem TotalPreorder.of_transCmp (cmp : α → α → Ordering) [TransCmp cmp] : TotalPreorder cmp where
  refl _ := ReflCmp.compare_self
  swap _ _ := OrientedCmp.eq_swap
  total a b := by simpa using ne_gt_total cmp a b
  trans {a b c} hab hbc := by
    simpa using ne_gt_trans cmp a b c (by simpa using hab) (by simpa using hbc)

namespace Bookmarker

variable {fields : List SortField}

/-- Tuples are level when they have equally many parts and agree in those that have a field. -/
theorem compareFields_eq_eq_iff : ∀ {fields : List SortField} {as bs : List Bookmark},
    compareFields fields as bs = .eq ↔
      as.length = bs.length ∧ as.take fields.length = bs.take fields.length
  | [], as, bs => by
    simp only [compareFields, LawfulEqCmp.compare_eq_iff_eq, Int.natCast_inj, List.length_nil,
      List.take_zero, and_true]
  | _ :: _, [], bs | _ :: _, bs, [] => by
    -- Without parts on one side, a tuple is level only with the empty one.
    simp only [compareFields, LawfulEqCmp.compare_eq_iff_eq, Int.natCast_inj]
    cases bs <;> simp
  | field :: fields, a :: as, b :: bs => by
    rw [compareFields_cons, Ordering.then_eq_eq, LawfulEqCmp.compare_eq_iff_eq,
      compareFields_eq_eq_iff]
    simp only [List.length_cons, Nat.add_right_cancel_iff, List.take_succ_cons, List.cons.injEq]
    exact and_left_comm

/-- What a bookmarker of several fields takes for level: a bookmark and itself, or two tuples that
differ only in parts without a field. -/
theorem composite_eq_eq_iff {a b : Bookmark} : (composite fields).compare a b = .eq ↔
    a = b ∨ ∃ as bs, a = .tuple as ∧ b = .tuple bs ∧ as.length = bs.length ∧
      as.take fields.length = bs.take fields.length := by
  by_cases htuples : a.rank = 5 ∧ b.rank = 5
  · obtain ⟨as, rfl⟩ := eq_tuple_of_rank htuples.1
    obtain ⟨bs, rfl⟩ := eq_tuple_of_rank htuples.2
    have hlevel : compareFields fields as bs = .eq ↔ _ := compareFields_eq_eq_iff
    refine hlevel.trans ⟨fun h => .inr ⟨as, bs, rfl, rfl, h⟩, ?_⟩
    rintro (⟨⟨⟩⟩ | ⟨_, _, ⟨⟩, ⟨⟩, h⟩)
    · exact ⟨rfl, rfl⟩
    · exact h
  · rw [composite_compare (by omega), LawfulEqCmp.compare_eq_iff_eq]
    refine ⟨.inl, ?_⟩
    rintro (rfl | ⟨as, bs, rfl, rfl, -⟩)
    · rfl
    · exact absurd ⟨rfl, rfl⟩ htuples

/-- **Bookmarkers compare by total preorders**, whatever bookmarks they are given. A bookmarker of
one field or of a computed key takes no two bookmarks for level. One of several fields does so for
tuples that differ only in parts without a field, and so for no two bookmarks that it accepts. -/
theorem compare_totalPreorder (fields : List SortField) (field : SortField) (f : α → Bookmark)
    (accepts : Bookmark → Bool) (direction : Direction) :
    TotalPreorder (composite fields).compare ∧ TotalPreorder (simple field).compare ∧
      TotalPreorder (key f accepts direction).compare ∧
      (∀ a b, (composite fields).accepts a → (composite fields).accepts b →
        ((composite fields).compare a b = .eq ↔ a = b)) ∧
      (∀ a b, (simple field).compare a b = .eq ↔ a = b) ∧
      (∀ a b, (key f accepts direction).compare a b = .eq ↔ a = b) ∧
      ∀ a b, (composite fields).compare a b = .eq ↔
        a = b ∨ ∃ as bs, a = .tuple as ∧ b = .tuple bs ∧ as.length = bs.length ∧
          as.take fields.length = bs.take fields.length := by
  have := (Standard.composite fields).transCmp
  have := (Standard.simple field).transCmp
  have := (Standard.key f accepts direction).transCmp
  have hlevel (direction : Direction) (a b : Bookmark) : direction.order a b = .eq ↔ a = b :=
    LawfulEqCmp.compare_eq_iff_eq
  refine ⟨.of_transCmp _, .of_transCmp _, .of_transCmp _, fun a b ha hb => ⟨?_, ?_⟩,
    hlevel field.direction, hlevel direction, fun a b => composite_eq_eq_iff⟩
  · exact (Standard.composite fields).eq_of_compare ha hb
  · rintro rfl
    exact ReflCmp.compare_self

/-- A rank that ascends and a name that descends. -/
def rankFields : List SortField :=
  [{ name := "rank", kind := .integer },
    { name := "name", kind := .text, direction := .descending }]

/-- A number comes before every tuple, a tuple that lacks its name before those that have one, and
two keys of one rank are told apart by their names. -/
theorem rankFields_compare :
    (composite rankFields).compare (.int 9) (.tuple [.int 1, .text "b", .null]) ≠ .gt ∧
      (composite rankFields).compare (.tuple [.int 1, .text "b"]) (.tuple [.int 1, .text "a"])
        ≠ .eq := by
  obtain ⟨horder, -, -, hlevel, -⟩ := compare_totalPreorder rankFields { name := "rank" }
    (fun b : Bookmark => b) acceptsKey .ascending
  have hscalar : (composite rankFields).compare (.int 9) (.tuple [.int 1]) = .lt :=
    composite_of_rank_lt (by decide)
  have hshort : (composite rankFields).compare (.tuple [.int 1]) (.tuple [.int 1, .text "b", .null])
      = .lt := by
    have hfirst : Direction.order .ascending (.int 1) (.int 1) = .eq := ReflCmp.compare_self
    change compareFields rankFields _ _ = .lt
    rw [rankFields, compareFields_cons, hfirst]
    rfl
  refine ⟨horder.trans (b := .tuple [.int 1]) (by simp [hscalar]) (by simp [hshort]), ?_⟩
  rw [Ne, hlevel _ _ rfl rfl]
  simp

end Bookmarker

end KeysetPaging
