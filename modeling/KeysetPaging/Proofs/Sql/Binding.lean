import KeysetPaging.Proofs.SortKeys
import KeysetPaging.Proofs.Sql.Database
import Mathlib.Tactic.SplitIfs

/-! # Values that are bound

A part of a key is bound to a query as the value of its kind. Truth values, whole numbers and texts
are bound as they are, and their values are in the order of the parts. An instant is bound as its
whole microseconds, which blur it: instants within one microsecond are bound alike, and a leap
second, which counts on from the second before it, runs into the microseconds of the second after
it. Instants that do not blur into each other are bound in their order.
-/

namespace KeysetPaging

open Std

/-- An instant that microseconds can tell: it has no finer part, and is in no leap second. -/
def Instant.WholeMicros (t : Instant) : Prop :=
  t.nanos < 1000000000 ∧ t.nanos % 1000 = 0

/-- The instants in a key can be told by microseconds. -/
def Bookmark.WholeMicros (b : Bookmark) : Prop :=
  ∀ t, .time t ∈ b.keyParts → t.WholeMicros

theorem Bookmark.isScalar_iff_rank {b : Bookmark} : b.isScalar ↔ b.rank ≤ 4 := by
  cases b <;> simp [isScalar, rank]

theorem Bookmark.eq_null_iff_rank {b : Bookmark} : b = .null ↔ b.rank = 0 := by
  cases b <;> simp [rank]

/-- The first of two instants comes before the second, and microseconds do not tell: both lie within
one microsecond, or the first lies in a leap second and the second one in the second after it, no
further into that second. -/
def Instant.Blurs (s t : Instant) : Prop :=
  s.seconds = t.seconds ∧ s.nanos < t.nanos ∧ s.nanos / 1000 = t.nanos / 1000 ∨
    1000000000 ≤ s.nanos ∧ t.seconds = s.seconds + 1 ∧
      t.nanos / 1000 ≤ (s.nanos - 1000000000) / 1000

instance (s t : Instant) : Decidable (s.Blurs t) := by
  unfold Instant.Blurs; infer_instance

/-- Instants blur when the first one comes before the second, but its microseconds do not. -/
theorem Instant.blurs_iff {s t : Instant} :
    s.Blurs t ↔ s.compare t = .lt ∧ t.micros ≤ s.micros := by
  have hs := s.nanos_lt
  have ht := t.nanos_lt
  have hleap := s.leap_at
  have hleap' := t.leap_at
  rw [Instant.compare_eq_lt, Instant.Blurs, Instant.micros, Instant.micros]
  omega

/-- Instants that do not blur are in the order of their microseconds. -/
theorem Instant.compare_eq_lt_iff_micros {s t : Instant} (hst : ¬ s.Blurs t) (hts : ¬ t.Blurs s) :
    s.compare t = .lt ↔ s.micros < t.micros := by
  have hswap : t.compare s = (s.compare t).swap := OrientedCmp.eq_swap
  rw [Instant.blurs_iff] at hst hts
  cases hcompare : s.compare t with
  | lt => simpa [hcompare] using hst
  | eq => simp [LawfulEqCmp.eq_of_compare hcompare]
  | gt =>
    have hle : t.micros < s.micros := by simpa [hswap, hcompare] using hts
    simp [Int.le_of_lt hle]

/-- Two bookmarks are instants that blur. -/
def Bookmark.Blurs (a b : Bookmark) : Prop :=
  ∃ s t, a = .time s ∧ b = .time t ∧ s.Blurs t

namespace Sql

/-! ## Values that are bound -/

/-- A value means a bookmark. Microseconds mean the instant that they are exactly. -/
def Value.Means : Value → Bookmark → Prop
  | .null, .null => True
  | .boolean a, .bool b => a = b
  | .bigint i, .int j => i = j
  | .text s, .text t => s = t
  | .timestamp micros, .time t =>
      t.nanos < 1000000000 ∧ 1000 * micros = 1000000000 * t.seconds + t.nanos
  | _, _ => False

/-- A value of the kind that keys are made of is the bookmark that it means. -/
theorem Value.Means.ofValue_eq {value : Value} {b : Bookmark} (h : value.Means b) :
    Domain.ofKeys.ofValue value = cellOf b := by
  cases value <;> cases b
  case timestamp.time micros t =>
    obtain ⟨hlt, hmicros⟩ := h
    have hinstant : instantOfMicros? micros = some t := by
      have hseconds : micros / 1000000 = t.seconds := by omega
      have hnanos : (micros % 1000000 * 1000).toNat = t.nanos := by omega
      rw [instantOfMicros?, hseconds, hnanos, Instant.ofParts?,
        dif_pos ⟨t.first_le, t.lt_last, t.nanos_lt, t.leap_at⟩]
    change some (((instantOfMicros? micros).map Bookmark.time).getD .null) = some (.time t)
    rw [hinstant]
    rfl
  all_goals cases h <;> rfl

/-- Only null means null. -/
theorem Value.Means.null_iff {value : Value} {b : Bookmark} (h : value.Means b) :
    value = .null ↔ b = .null := by
  cases value <;> cases b <;> simp_all [Means]

/-- The value that is bound for a bookmark means it. -/
theorem Value.means_of_ofBookmark {field : SortField} {b : Bookmark} {value : Value}
    (h : ofBookmark field b = .ok value) (hmicros : ∀ t, b = .time t → t.WholeMicros) :
    value.Means b := by
  cases b with
  | null | bool | int | text =>
    obtain rfl := Except.ok.inj h
    simp [Means]
  | time t =>
    obtain rfl := Except.ok.inj h
    obtain ⟨hlt, hwhole⟩ := hmicros t rfl
    refine ⟨hlt, ?_⟩
    rw [Instant.micros]
    omega
  | tuple | concat | merge => cases h

/-- A single value can be bound. -/
theorem Value.ofBookmark_of_isScalar (field : SortField) {b : Bookmark} (h : b.isScalar) :
    ∃ value, ofBookmark field b = .ok value := by
  cases b <;> first | exact ⟨_, rfl⟩ | cases h

/-- Single values are bound one by one, each for its field. -/
theorem exists_bounds : ∀ {fields : List SortField} {parts : List Bookmark},
    List.Forall₂ (fun _ part => part.isScalar) fields parts →
      ∃ bounds : List Bound,
        (fields.zip parts).mapM (fun p => (Value.ofBookmark p.1 p.2).map fun value => ⟨p.1, value⟩)
          = .ok bounds ∧ bounds.map (·.field) = fields ∧
        List.Forall₂ (fun bound part => Value.ofBookmark bound.field part = .ok bound.value) bounds
          parts
  | _, _, .nil => ⟨[], rfl, rfl, .nil⟩
  | _, _, .cons (a := field) (b := part) hpart hrest => by
    obtain ⟨bounds, hbounds, hfields, hvalues⟩ := exists_bounds hrest
    obtain ⟨value, hvalue⟩ := Value.ofBookmark_of_isScalar field hpart
    refine ⟨⟨field, value⟩ :: bounds, ?_, by simp [hfields], .cons hvalue hvalues⟩
    rw [mapM_eq_ok_iff] at hbounds ⊢
    rw [List.zip_cons_cons]
    refine .cons ?_ hbounds
    rw [hvalue]
    rfl

/-- A key is bound part by part when it has a part for each field. -/
theorem bind_eq (fields : List SortField) (b : Bookmark) :
    bind fields b = if b.keyParts.length = fields.length then
      (fields.zip b.keyParts).mapM fun p =>
        (Value.ofBookmark p.1 p.2).map fun value => ⟨p.1, value⟩
      else .error (.config (.partsMismatch b.keyParts.length fields.length)) := by
  cases b <;> rfl

/-- A key with a single value for every field can be bound, part by part. -/
theorem bind_of_isScalar {fields : List SortField} {b : Bookmark}
    (h : List.Forall₂ (fun _ part => part.isScalar) fields b.keyParts) :
    ∃ bounds, bind fields b = .ok bounds ∧ bounds.map (·.field) = fields ∧
      List.Forall₂ (fun bound part => Value.ofBookmark bound.field part = .ok bound.value) bounds
        b.keyParts := by
  obtain ⟨bounds, hbounds, hfields, hvalues⟩ := exists_bounds h
  refine ⟨bounds, ?_, hfields, hvalues⟩
  rw [bind_eq, if_pos h.length_eq.symm, hbounds]

/-- A key that is accepted can be bound, part by part. -/
theorem bind_of_accepts {fields : List SortField} {b : Bookmark}
    (h : (Bookmarker.ofFields fields).accepts b) :
    ∃ bounds, bind fields b = .ok bounds ∧ bounds.map (·.field) = fields ∧
      List.Forall₂ (fun bound part => Value.ofBookmark bound.field part = .ok bound.value) bounds
        b.keyParts :=
  bind_of_isScalar ((Bookmarker.ofFields_accepts h).imp fun _ _ => SortField.isScalar_of_accepts)

/-! ## The order of values -/

/-- The order of two values of one kind: false before true, whole numbers as numbers, texts
character by character, and instants by their microseconds. -/
inductive Value.Less : Value → Value → Prop
  | boolean : Less (.boolean false) (.boolean true)
  | bigint {i j : Int64} (h : i < j) : Less (.bigint i) (.bigint j)
  | text {s t : String} (h : s < t) : Less (.text s) (.text t)
  | timestamp {m n : Int} (h : m < n) : Less (.timestamp m) (.timestamp n)

namespace Value

theorem less_boolean {a b : Bool} : Less (.boolean a) (.boolean b) ↔ a = false ∧ b = true := by
  constructor
  · rintro ⟨⟩
    exact ⟨rfl, rfl⟩
  · rintro ⟨rfl, rfl⟩
    exact .boolean

theorem less_bigint {i j : Int64} : Less (.bigint i) (.bigint j) ↔ i < j :=
  ⟨fun | .bigint h => h, .bigint⟩

theorem less_text {s t : String} : Less (.text s) (.text t) ↔ s < t :=
  ⟨fun | .text h => h, .text⟩

theorem less_timestamp {m n : Int} : Less (.timestamp m) (.timestamp n) ↔ m < n :=
  ⟨fun | .timestamp h => h, .timestamp⟩

/-- No value comes before itself. -/
theorem not_less_self (value : Value) : ¬ value.Less value := by
  cases value with
  | null => rintro ⟨⟩
  | boolean b => simp [less_boolean]
  | bigint i => simp [less_bigint]
  | text s => exact fun h => String.lt_irrefl s (less_text.mp h)
  | timestamp m => simp [less_timestamp]

end Value

/-- Bookmarks of one kind that do not blur are in the order of the values that are bound for
them. -/
theorem Value.less_iff_of_ofBookmark {f g : SortField} {a b : Bookmark} {v w : Value}
    (hnull : a ≠ .null) (hrank : a.rank = b.rank) (ha : ofBookmark f a = .ok v)
    (hb : ofBookmark g b = .ok w) (hab : ¬ a.Blurs b) (hba : ¬ b.Blurs a) :
    v.Less w ↔ Bookmark.compare a b = .lt := by
  cases a <;> cases b <;> cases hrank
  case null.null => exact absurd rfl hnull
  case tuple.tuple | concat.concat | merge.merge => cases ha
  case bool.bool x y =>
    obtain rfl := Except.ok.inj ha
    obtain rfl := Except.ok.inj hb
    cases x <;> cases y <;> simp [less_boolean, Bookmark.compare, compareInt]
  case int.int i j =>
    obtain rfl := Except.ok.inj ha
    obtain rfl := Except.ok.inj hb
    rw [less_bigint, Bookmark.compare, compareInt_eq_lt, Int64.lt_iff_toInt_lt]
  case text.text s t =>
    obtain rfl := Except.ok.inj ha
    obtain rfl := Except.ok.inj hb
    rw [less_text, Bookmark.compare, compareText_eq_lt]
  case time.time s t =>
    obtain rfl := Except.ok.inj ha
    obtain rfl := Except.ok.inj hb
    rw [less_timestamp, Bookmark.compare]
    exact (Instant.compare_eq_lt_iff_micros (fun h => hab ⟨s, t, rfl, rfl, h⟩) fun h =>
      hba ⟨t, s, rfl, rfl, h⟩).symm

/-- The value of a single part does not depend on its field. -/
theorem Value.ofBookmark_congr {f g : SortField} {b : Bookmark} {v w : Value}
    (hv : ofBookmark f b = .ok v) (hw : ofBookmark g b = .ok w) : v = w := by
  cases b with
  | null | bool | int | text | time => exact (Except.ok.inj hv).symm.trans (Except.ok.inj hw)
  | tuple | concat | merge => cases hv

/-- **Bound values keep the order of keys, as far as microseconds tell.** Any two bookmarks of one
kind that are not null are bound to values in the order of the bookmarks, and distinct ones to
distinct values, unless they are instants of which one blurs into the other. If so, the first one
comes before the second, and its value does not. A bookmark that is bound twice is never before
itself. -/
theorem Value.less_iff_compare (f g : SortField) {a b : Bookmark} (hscalar : a.isScalar)
    (hnull : a ≠ .null) (hrank : a.rank = b.rank) :
    ∃ v w, ofBookmark f a = .ok v ∧ ofBookmark g b = .ok w ∧
      (¬ a.Blurs b → ¬ b.Blurs a → (Bookmark.compare a b = .lt ↔ v.Less w) ∧ (a = b ↔ v = w)) ∧
      (a.Blurs b → Bookmark.compare a b = .lt ∧ ¬ v.Less w) ∧ (a = b → ¬ v.Less w) := by
  have hscalar' : b.isScalar := by rwa [Bookmark.isScalar_iff_rank, ← hrank,
    ← Bookmark.isScalar_iff_rank]
  have hnull' : b ≠ .null := by rwa [Ne, Bookmark.eq_null_iff_rank, ← hrank,
    ← Bookmark.eq_null_iff_rank]
  obtain ⟨v, hv⟩ := ofBookmark_of_isScalar f hscalar
  obtain ⟨w, hw⟩ := ofBookmark_of_isScalar g hscalar'
  refine ⟨v, w, hv, hw, fun hab hba => ⟨?_, ?_, ?_⟩, ?_, ?_⟩
  · exact (less_iff_of_ofBookmark hnull hrank hv hw hab hba).symm
  · rintro rfl
    exact ofBookmark_congr hv hw
  · rintro rfl
    -- Values of bookmarks that are not level would be in one order or the other.
    have hlt := mt (less_iff_of_ofBookmark hnull hrank hv hw hab hba).mpr (not_less_self v)
    have hgt := mt (less_iff_of_ofBookmark hnull' hrank.symm hw hv hba hab).mpr (not_less_self v)
    rw [Bookmark.compare_swap, Ordering.swap_eq_lt] at hgt
    refine Bookmark.eq_of_compare ?_
    cases hcompare : Bookmark.compare a b <;> simp_all
  · rintro ⟨s, t, rfl, rfl, hblurs⟩
    obtain ⟨hlt, hle⟩ := Instant.blurs_iff.mp hblurs
    obtain rfl := Except.ok.inj hv
    obtain rfl := Except.ok.inj hw
    rw [Bookmark.compare, less_timestamp]
    exact ⟨hlt, Int.not_lt.mpr hle⟩
  · rintro rfl
    rw [ofBookmark_congr hv hw]
    exact not_less_self w

/-- Half into the leap second at the end of the year 2016. -/
def leapHalf : Bookmark :=
  .time ⟨1483228799, 1500000000, by decide, by decide, by decide, by decide⟩

/-- A number of milliseconds, less than a second, into the year 2017. -/
def newYear (millis : Fin 1000) : Bookmark :=
  .time ⟨1483228800, millis * 1000000, by decide, by decide, by omega, by omega⟩

/-- What comes late enough in the second after a leap second is bound after it, and what comes
earlier is not. -/
theorem Value.leapHalf_less :
    (∃ v w, ofBookmark { name := "at" } leapHalf = .ok v ∧
      ofBookmark { name := "at" } (newYear 501) = .ok w ∧ v.Less w) ∧
    ∃ v w, ofBookmark { name := "at" } leapHalf = .ok v ∧
      ofBookmark { name := "at" } (newYear 250) = .ok w ∧
        Bookmark.compare leapHalf (newYear 250) = .lt ∧ ¬ v.Less w := by
  obtain ⟨v, w, hv, hw, hkept, -⟩ := less_iff_compare { name := "at" } { name := "at" }
    (a := leapHalf) (b := newYear 501) rfl (by simp [leapHalf]) rfl
  obtain ⟨v', w', hv', hw', -, hblurs, -⟩ := less_iff_compare { name := "at" } { name := "at" }
    (a := leapHalf) (b := newYear 250) rfl (by simp [leapHalf]) rfl
  have hlt : Bookmark.compare leapHalf (newYear 501) = .lt := by
    rw [leapHalf, newYear, Bookmark.compare, Instant.compare_eq_lt]
    decide
  refine ⟨⟨v, w, hv, hw, (hkept ?_ ?_).1.mp hlt⟩, v', w', hv', hw', hblurs ?_⟩
  · rintro ⟨_, _, ⟨⟩, ⟨⟩, hblurs⟩
    revert hblurs
    decide
  · rintro ⟨_, _, ⟨⟩, ⟨⟩, hblurs⟩
    revert hblurs
    decide
  · exact ⟨_, _, rfl, rfl, by decide⟩

/-- A number of nanoseconds, less than a second, after the start of 1970. -/
def epochNanos (nanos : Fin 1000000000) : Bookmark :=
  .time ⟨0, nanos, by decide, by decide, by omega, by omega⟩

/-- Not all keys are bound to values in their order. -/
theorem Value.less_fails :
    ¬ ∀ (f g : SortField) (a b : Bookmark) (v w : Value), a.isScalar → a ≠ .null →
      a.rank = b.rank → ofBookmark f a = .ok v → ofBookmark g b = .ok w →
        (Bookmark.compare a b = .lt ↔ v.Less w) := by
  intro h
  have hlt : Bookmark.compare (epochNanos 100) (epochNanos 200) = .lt := by
    rw [epochNanos, epochNanos, Bookmark.compare, Instant.compare_eq_lt]
    decide
  have hless := (h { name := "at" } { name := "at" } (epochNanos 100) (epochNanos 200) _ _ rfl
    (by simp [epochNanos]) rfl rfl rfl).mp hlt
  exact not_less_self _ hless

end Sql

end KeysetPaging
