import KeysetPaging.Bookmark.Order
import KeysetPaging.Order
import Mathlib.Data.List.Basic
import Mathlib.Tactic.SplitIfs

/-! # The laws of the orders

Numbers, texts and instants are compared by orders in which things that are level are equal. A
direction turns an order around and keeps its laws.
-/

namespace KeysetPaging

open Std

variable {α β : Type}

/-- Smaller numbers come first, as they do by the order of whole numbers. -/
theorem compareInt_eq_compare : compareInt = Ord.compare (α := Int) := by
  funext a b
  rw [compareInt, show Ord.compare a b = compareOfLessAndEq a b from rfl, compareOfLessAndEq]
  rcases Int.lt_trichotomy a b with h | rfl | h
  · simp [h]
  · simp
  · simp [h, Int.lt_asymm h, (Int.ne_of_lt h).symm]

instance : TransCmp compareInt := by
  rw [compareInt_eq_compare]
  infer_instance

instance : LawfulEqCmp compareInt := by
  rw [compareInt_eq_compare]
  infer_instance

theorem compareInt_eq_lt {a b : Int} : compareInt a b = .lt ↔ a < b := by
  rw [compareInt_eq_compare, Int.compare_eq_lt]

/-- Things that are ordered by a part of them are ordered as the parts are. -/
theorem transCmp_on (cmp : β → β → Ordering) [TransCmp cmp] (f : α → β) :
    TransCmp fun a b => cmp (f a) (f b) where
  eq_swap := OrientedCmp.eq_swap
  isLE_trans := TransCmp.isLE_trans

/-- A part that tells things apart makes things equal that are level. -/
theorem lawfulEqCmp_on (cmp : β → β → Ordering) [LawfulEqCmp cmp] {f : α → β}
    (hf : ∀ a b, f a = f b → a = b) : LawfulEqCmp fun a b => cmp (f a) (f b) where
  compare_self := ReflCmp.compare_self
  eq_of_compare h := hf _ _ (LawfulEqCmp.eq_of_compare h)

/-- Not to come after something is transitive, as a test. -/
theorem ne_gt_trans (cmp : α → α → Ordering) [TransCmp cmp] (a b c : α)
    (hab : cmp a b != .gt) (hbc : cmp b c != .gt) : cmp a c != .gt := by
  simp only [← Ordering.isLE_eq_not_beq_gt, bne] at hab hbc ⊢
  exact TransCmp.isLE_trans hab hbc

/-- Of two things one does not come after the other. -/
theorem ne_gt_total (cmp : α → α → Ordering) [OrientedCmp cmp] (a b : α) :
    cmp a b != .gt || cmp b a != .gt := by
  have hswap : cmp b a = (cmp a b).swap := OrientedCmp.eq_swap
  rw [hswap]
  cases cmp a b <;> rfl

/-- A list that is sorted by an order has nothing behind what comes after it. -/
theorem pairwise_mergeSort (cmp : α → α → Ordering) [TransCmp cmp] (xs : List α) :
    (xs.mergeSort fun a b => cmp a b != .gt).Pairwise fun a b => cmp a b ≠ .gt :=
  (List.pairwise_mergeSort (ne_gt_trans cmp) (ne_gt_total cmp) xs).imp bne_iff_ne.mp

/-- Sorting keeps the order of what is level. -/
theorem filter_mergeSort (cmp : α → α → Ordering) [TransCmp cmp] (x : α) (xs : List α) :
    (xs.mergeSort fun a b => cmp a b != .gt).filter (fun a => cmp a x == .eq)
      = xs.filter fun a => cmp a x == .eq := by
  have hperm := (List.mergeSort_perm xs fun a b => cmp a b != .gt).filter fun a => cmp a x == .eq
  -- What is level is in order already, so it is a part of the sorted list as it stands.
  have hlevel : (xs.filter fun a => cmp a x == .eq).Pairwise fun a b => cmp a b != .gt := by
    refine List.pairwise_of_forall_mem_list fun a ha b hb => ?_
    have ha := by simpa using (List.mem_filter.mp ha).2
    have hb := by simpa using (List.mem_filter.mp hb).2
    rw [TransCmp.eq_trans ha (OrientedCmp.eq_symm hb)]
    rfl
  have hsublist := (List.sublist_mergeSort (ne_gt_trans cmp) (ne_gt_total cmp) hlevel
    List.filter_sublist).filter fun a => cmp a x == .eq
  rw [List.filter_filter] at hsublist
  simp only [Bool.and_self] at hsublist
  exact (hsublist.eq_of_length hperm.length_eq.symm).symm

/-- Characters are compared by their numbers, and texts character by character. -/
theorem compareChars_eq_compareLex :
    compareChars = List.compareLex fun a b => compareInt a.toNat b.toNat := by
  funext as bs
  induction as generalizing bs with
  | nil => cases bs <;> rfl
  | cons a as ih =>
    cases bs with
    | nil => rfl
    | cons b bs => rw [compareChars, List.compareLex_cons_cons, ih]

instance : TransCmp compareChars := by
  rw [compareChars_eq_compareLex]
  have := transCmp_on compareInt fun c : Char => (c.toNat : Int)
  infer_instance

instance : LawfulEqCmp compareChars := by
  rw [compareChars_eq_compareLex]
  have := lawfulEqCmp_on compareInt (f := fun c : Char => (c.toNat : Int)) fun a b h =>
    Char.toNat_inj.mp (Int.ofNat.inj h)
  infer_instance

/-- A text comes before another in the order of characters that texts have by themselves. -/
theorem compareChars_eq_lt : ∀ {as bs : List Char}, compareChars as bs = .lt ↔ as < bs
  | [], [] | [], _ :: _ | _ :: _, [] => by simp [compareChars]
  | a :: as, b :: bs => by
    have hlt : compareInt a.toNat b.toNat = .lt ↔ a < b := by
      rw [compareInt_eq_lt, Int.ofNat_lt]
      rfl
    have heq : compareInt a.toNat b.toNat = .eq ↔ a = b := by
      rw [LawfulEqCmp.compare_eq_iff_eq, Int.natCast_inj, Char.toNat_inj]
    rw [compareChars, Ordering.then_eq_lt, hlt, heq, compareChars_eq_lt, List.cons_lt_cons_iff]

theorem compareText_eq_lt {s t : String} : compareText s t = .lt ↔ s < t :=
  compareChars_eq_lt

instance : TransCmp compareText :=
  transCmp_on compareChars String.toList

instance : LawfulEqCmp compareText :=
  lawfulEqCmp_on compareChars fun _ _ h => String.toList_inj.mp h

theorem compareText_swap (s t : String) : compareText s t = (compareText t s).swap :=
  OrientedCmp.eq_swap

/-- Instants are compared by their seconds, and then by their nanoseconds. -/
theorem Instant.compare_eq_compareLex : Instant.compare =
    compareLex (fun a b => compareInt a.seconds b.seconds) fun a b => compareInt a.nanos b.nanos :=
  rfl

/-- Of two instants the one with fewer seconds comes first, and in one second the one with fewer
nanoseconds. -/
theorem Instant.compare_eq_lt {s t : Instant} : s.compare t = .lt ↔
    s.seconds < t.seconds ∨ s.seconds = t.seconds ∧ s.nanos < t.nanos := by
  rw [compare, Ordering.then_eq_lt, compareInt_eq_lt, compareInt_eq_lt,
    LawfulEqCmp.compare_eq_iff_eq, Int.ofNat_lt]

instance : TransCmp Instant.compare := by
  have := transCmp_on compareInt Instant.seconds
  have := transCmp_on compareInt fun t : Instant => (t.nanos : Int)
  rw [Instant.compare_eq_compareLex]
  infer_instance

instance : LawfulEqCmp Instant.compare where
  compare_self := by
    rw [Instant.compare_eq_compareLex]
    simp [ReflCmp.compare_self]
  eq_of_compare {a b} h := by
    rw [Instant.compare, Ordering.then_eq_eq] at h
    obtain ⟨hseconds, hnanos⟩ := h
    replace hseconds := LawfulEqCmp.eq_of_compare hseconds
    replace hnanos := Int.ofNat.inj (LawfulEqCmp.eq_of_compare hnanos)
    cases a
    cases b
    simp_all

/-- Two steps of a lexicographic order make one, when two steps of its first order make one and two
steps of what decides a tie do. -/
theorem then_trans (cmp : α → α → Ordering) (heq : ∀ {x y}, cmp x y = .eq → x = y) {a b c : α}
    (hfirst : cmp a b = .lt → cmp b c = .lt → cmp a c = .lt) {ab bc ac : Ordering}
    (hthen : ab = .lt → bc = .lt → ac = .lt) (hab : (cmp a b).then ab = .lt)
    (hbc : (cmp b c).then bc = .lt) : (cmp a c).then ac = .lt := by
  rw [Ordering.then_eq_lt] at hab hbc ⊢
  rcases hab with hab | ⟨hab, hab'⟩
  · rcases hbc with hbc | ⟨hbc, -⟩
    · exact Or.inl (hfirst hab hbc)
    · exact Or.inl (heq hbc ▸ hab)
  · rcases hbc with hbc | ⟨hbc, hbc'⟩
    · exact Or.inl (heq hab ▸ hbc)
    · exact Or.inr ⟨heq hab ▸ hbc, hthen hab' hbc'⟩

/-! ## The natural order of bookmarks -/

namespace Bookmark

/-- Bookmarks of different shapes are ordered by shape. -/
theorem compare_of_rank_ne {a b : Bookmark} (h : a.rank ≠ b.rank) :
    compare a b = compareInt a.rank b.rank := by
  cases a <;> cases b <;> first | exact absurd rfl h | simp only [compare]

/-- Null comes before everything else. -/
theorem null_compare {b : Bookmark} (h : b ≠ .null) : compare .null b = .lt := by
  cases b <;> first | exact absurd rfl h | simp [compare, rank, compareInt]

/-- Everything else comes after null. -/
theorem compare_null {b : Bookmark} (h : b ≠ .null) : compare b .null = .gt := by
  cases b <;> first | exact absurd rfl h | simp [compare, rank, compareInt]

/-- A bookmark that comes before another is of the same shape or of one that ranks lower. -/
theorem rank_le_of_compare {a b : Bookmark} (h : compare a b = .lt) : a.rank ≤ b.rank := by
  by_cases hrank : a.rank = b.rank
  · exact Nat.le_of_eq hrank
  · rw [compare_of_rank_ne hrank, compareInt] at h
    split_ifs at h
    omega

/-- Bookmarks in order are in order across shapes. -/
theorem compare_trans_of_rank_ne {a b c : Bookmark} (hab : compare a b = .lt)
    (hbc : compare b c = .lt) (hrank : a.rank ≠ c.rank) : compare a c = .lt := by
  have := rank_le_of_compare hab
  have := rank_le_of_compare hbc
  rw [compare_of_rank_ne hrank, compareInt, if_pos (by omega)]

mutual

/-- Bookmarks that are level are equal. -/
theorem eq_of_compare : ∀ {a b : Bookmark}, compare a b = .eq → a = b
  -- Two bookmarks of different shapes are never level, since their ranks differ.
  | .null, b, h => by
    cases b with
    | null => rfl
    | _ => simp [compare, rank, compareInt] at h
  | .bool a, b, h => by
    cases b with
    | bool b => revert h; cases a <;> cases b <;> simp [compare, compareInt]
    | _ => simp [compare, rank, compareInt] at h
  | .int a, b, h => by
    cases b with
    | int b =>
      rw [compare] at h
      rw [Int64.toInt_inj.mp (LawfulEqCmp.eq_of_compare h)]
    | _ => simp [compare, rank, compareInt] at h
  | .text s, b, h => by
    cases b with
    | text t =>
      rw [compare] at h
      rw [LawfulEqCmp.eq_of_compare h]
    | _ => simp [compare, rank, compareInt] at h
  | .time s, b, h => by
    cases b with
    | time t =>
      rw [compare] at h
      rw [LawfulEqCmp.eq_of_compare h]
    | _ => simp [compare, rank, compareInt] at h
  | .tuple as, b, h => by
    cases b with
    | tuple bs =>
      rw [compare] at h
      rw [eq_of_compareParts h]
    | _ => simp [compare, rank, compareInt] at h
  | .concat s p, b, h => by
    cases b with
    | concat t q =>
      rw [compare, Ordering.then_eq_eq] at h
      rw [LawfulEqCmp.eq_of_compare h.1, eq_of_comparePosition h.2]
    | _ => simp [compare, rank, compareInt] at h
  | .merge ps, b, h => by
    cases b with
    | merge qs =>
      rw [compare] at h
      rw [eq_of_comparePositions h]
    | _ => simp [compare, rank, compareInt] at h

theorem eq_of_compareParts : ∀ {as bs : List Bookmark}, compareParts as bs = .eq → as = bs
  | [], bs, h => by
    cases bs with
    | nil => rfl
    | cons => simp [compareParts] at h
  | a :: as, bs, h => by
    cases bs with
    | nil => simp [compareParts] at h
    | cons b bs =>
      rw [compareParts, Ordering.then_eq_eq] at h
      rw [eq_of_compare h.1, eq_of_compareParts h.2]

theorem eq_of_comparePosition : ∀ {p q : Option Bookmark}, comparePosition p q = .eq → p = q
  | none, q, h => by
    cases q with
    | none => rfl
    | some => simp [comparePosition] at h
  | some a, q, h => by
    cases q with
    | none => simp [comparePosition] at h
    | some b =>
      rw [comparePosition] at h
      rw [eq_of_compare h]

theorem eq_of_comparePositions : ∀ {ps qs : List (String × Option Bookmark)},
    comparePositions ps qs = .eq → ps = qs
  | [], qs, h => by
    cases qs with
    | nil => rfl
    | cons => simp [comparePositions] at h
  | (s, p) :: ps, qs, h => by
    cases qs with
    | nil => simp [comparePositions] at h
    | cons entry qs =>
      obtain ⟨t, q⟩ := entry
      rw [comparePositions, Ordering.then_eq_eq, Ordering.then_eq_eq] at h
      rw [LawfulEqCmp.eq_of_compare h.1, eq_of_comparePosition h.2.1, eq_of_comparePositions h.2.2]

end

mutual

/-- Two bookmarks the other way round are in the order the other way round. -/
theorem compare_swap : ∀ a b : Bookmark, compare a b = (compare b a).swap
  | .null, b | .bool _, b | .int _, b | .text _, b | .time _, b => by
    cases b with
    | _ =>
      simp only [compare]
      first | rfl | exact OrientedCmp.eq_swap
  | .tuple as, b => by
    cases b with
    | tuple bs => rw [compare, compare, compareParts_swap as bs]
    | _ => simp [compare, rank, compareInt]
  | .concat s p, b => by
    cases b with
    | concat t q =>
      rw [compare, compare, Ordering.swap_then, ← compareText_swap,
        comparePosition_swap p q]
    | _ => simp [compare, rank, compareInt]
  | .merge ps, b => by
    cases b with
    | merge qs => rw [compare, compare, comparePositions_swap ps qs]
    | _ => simp [compare, rank, compareInt]

theorem compareParts_swap : ∀ as bs : List Bookmark, compareParts as bs = (compareParts bs as).swap
  | [], [] | [], _ :: _ | _ :: _, [] => by simp [compareParts]
  | a :: as, b :: bs => by
    rw [compareParts, compareParts, Ordering.swap_then, ← compare_swap a b,
      ← compareParts_swap as bs]

theorem comparePosition_swap : ∀ p q : Option Bookmark,
    comparePosition p q = (comparePosition q p).swap
  | none, none | none, some _ | some _, none => by simp [comparePosition]
  | some a, some b => by rw [comparePosition, comparePosition, compare_swap a b]

theorem comparePositions_swap : ∀ ps qs : List (String × Option Bookmark),
    comparePositions ps qs = (comparePositions qs ps).swap
  | [], [] | [], _ :: _ | _ :: _, [] => by simp [comparePositions]
  | (s, p) :: ps, (t, q) :: qs => by
    rw [comparePositions, comparePositions, Ordering.swap_then, Ordering.swap_then,
      ← compareText_swap, ← comparePosition_swap p q,
      ← comparePositions_swap ps qs]

end

mutual

/-- A bookmark before a second that is before a third is before the third. -/
theorem compare_trans : ∀ {a b c : Bookmark}, compare a b = .lt → compare b c = .lt →
    compare a c = .lt
  -- When the outer two are of one shape, so is the one between them. Otherwise the ranks decide.
  | .null, b, c, hab, hbc => by
    cases c with
    | null => cases b <;> simp [compare, rank, compareInt] at hab hbc
    | _ => exact compare_trans_of_rank_ne hab hbc (by simp [rank])
  | .bool x, b, c, hab, hbc => by
    cases c with
    | bool z =>
      cases b with
      | bool y =>
        rw [compare] at hab hbc ⊢
        exact TransCmp.lt_trans hab hbc
      | _ => simp [compare, rank, compareInt] at hab hbc
    | _ => exact compare_trans_of_rank_ne hab hbc (by simp [rank])
  | .int x, b, c, hab, hbc => by
    cases c with
    | int z =>
      cases b with
      | int y =>
        rw [compare] at hab hbc ⊢
        exact TransCmp.lt_trans hab hbc
      | _ => simp [compare, rank, compareInt] at hab hbc
    | _ => exact compare_trans_of_rank_ne hab hbc (by simp [rank])
  | .text x, b, c, hab, hbc => by
    cases c with
    | text z =>
      cases b with
      | text y =>
        rw [compare] at hab hbc ⊢
        exact TransCmp.lt_trans hab hbc
      | _ => simp [compare, rank, compareInt] at hab hbc
    | _ => exact compare_trans_of_rank_ne hab hbc (by simp [rank])
  | .time x, b, c, hab, hbc => by
    cases c with
    | time z =>
      cases b with
      | time y =>
        rw [compare] at hab hbc ⊢
        exact TransCmp.lt_trans hab hbc
      | _ => simp [compare, rank, compareInt] at hab hbc
    | _ => exact compare_trans_of_rank_ne hab hbc (by simp [rank])
  | .tuple as, b, c, hab, hbc => by
    cases c with
    | tuple cs =>
      cases b with
      | tuple bs =>
        rw [compare] at hab hbc ⊢
        exact compareParts_trans hab hbc
      | _ => simp [compare, rank, compareInt] at hab hbc
    | _ => exact compare_trans_of_rank_ne hab hbc (by simp [rank])
  | .concat s p, b, c, hab, hbc => by
    cases c with
    | concat u r =>
      cases b with
      | concat t q =>
        rw [compare] at hab hbc ⊢
        exact then_trans compareText LawfulEqCmp.eq_of_compare TransCmp.lt_trans
          comparePosition_trans hab hbc
      | _ => simp [compare, rank, compareInt] at hab hbc
    | _ => exact compare_trans_of_rank_ne hab hbc (by simp [rank])
  | .merge ps, b, c, hab, hbc => by
    cases c with
    | merge rs =>
      cases b with
      | merge qs =>
        rw [compare] at hab hbc ⊢
        exact comparePositions_trans hab hbc
      | _ => simp [compare, rank, compareInt] at hab hbc
    | _ => exact compare_trans_of_rank_ne hab hbc (by simp [rank])

theorem compareParts_trans : ∀ {as bs cs : List Bookmark}, compareParts as bs = .lt →
    compareParts bs cs = .lt → compareParts as cs = .lt
  | [], bs, [], hab, hbc => by cases bs <;> simp [compareParts] at hab hbc
  | [], _, _ :: _, _, _ => by rw [compareParts]
  | _ :: _, [], _, hab, _ => by simp [compareParts] at hab
  | _ :: _, _ :: _, [], _, hbc => by simp [compareParts] at hbc
  | a :: as, b :: bs, c :: cs, hab, hbc => by
    rw [compareParts] at hab hbc ⊢
    exact then_trans compare eq_of_compare compare_trans compareParts_trans hab hbc

theorem comparePosition_trans : ∀ {p q r : Option Bookmark}, comparePosition p q = .lt →
    comparePosition q r = .lt → comparePosition p r = .lt
  | none, q, none, hab, hbc => by cases q <;> simp [comparePosition] at hab hbc
  | none, _, some _, _, _ => by rw [comparePosition]
  | some _, none, _, hab, _ => by simp [comparePosition] at hab
  | some _, some _, none, _, hbc => by simp [comparePosition] at hbc
  | some a, some b, some c, hab, hbc => by
    rw [comparePosition] at hab hbc ⊢
    exact compare_trans hab hbc

theorem comparePositions_trans : ∀ {ps qs rs : List (String × Option Bookmark)},
    comparePositions ps qs = .lt → comparePositions qs rs = .lt → comparePositions ps rs = .lt
  | [], qs, [], hab, hbc => by cases qs <;> simp [comparePositions] at hab hbc
  | [], _, _ :: _, _, _ => by rw [comparePositions]
  | _ :: _, [], _, hab, _ => by simp [comparePositions] at hab
  | _ :: _, _ :: _, [], _, hbc => by simp [comparePositions] at hbc
  | (s, p) :: ps, (t, q) :: qs, (u, r) :: rs, hab, hbc => by
    rw [comparePositions] at hab hbc ⊢
    exact then_trans compareText LawfulEqCmp.eq_of_compare TransCmp.lt_trans
      (then_trans comparePosition eq_of_comparePosition comparePosition_trans
        comparePositions_trans) hab hbc

end

/-- **The natural order of bookmarks is a total order**: any two bookmarks are in one order or the
other, and only equal bookmarks are level. -/
instance : TransCmp compare where
  eq_swap := compare_swap _ _
  isLE_trans {a b c} hab hbc := by
    rw [Ordering.isLE_iff_eq_lt_or_eq_eq] at hab hbc
    rcases hab with hab | hab
    · rcases hbc with hbc | hbc
      · simp [compare_trans hab hbc]
      · simp [← eq_of_compare hbc, hab]
    · simpa [eq_of_compare hab, Ordering.isLE_iff_eq_lt_or_eq_eq] using hbc

instance : LawfulEqCmp compare where
  compare_self := ReflCmp.compare_self
  eq_of_compare := eq_of_compare

end Bookmark

/-! ## Directions -/

/-- The order of bookmarks in a sequence that runs in a direction. -/
def Direction.order (direction : Direction) (a b : Bookmark) : Ordering :=
  direction.apply (Bookmark.compare a b)

/-- An order turned around is an order. -/
theorem Direction.transCmp_apply (direction : Direction) (cmp : α → α → Ordering) [TransCmp cmp] :
    TransCmp fun a b => direction.apply (cmp a b) := by
  cases direction with
  | ascending => exact inferInstanceAs (TransCmp cmp)
  | descending =>
    have hswap : (fun a b => Direction.descending.apply (cmp a b)) = fun a b => cmp b a := by
      funext a b
      exact OrientedCmp.eq_swap.symm
    rw [hswap]
    infer_instance

/-- **Bookmarks are in total order in either direction.** -/
instance (direction : Direction) : TransCmp direction.order :=
  direction.transCmp_apply Bookmark.compare

instance (direction : Direction) : LawfulEqCmp direction.order where
  compare_self := ReflCmp.compare_self
  eq_of_compare {a b} h := by
    refine Bookmark.eq_of_compare ?_
    cases direction with
    | ascending => exact h
    | descending => exact Ordering.swap_eq_eq.mp h

end KeysetPaging
