import KeysetPaging.Instant.Calendar
import Mathlib.Algebra.Group.Int.Defs
import Mathlib.Tactic.ByContra
import Mathlib.Tactic.SplitIfs

/-! # The calendar counts every day once

The day with a given number is a day of the calendar, and that number is its own.
-/

namespace KeysetPaging.Date

/-- A March year starts within two days of the average, which is `146097 / 400` days a year. -/
theorem startOfYear_bounds (y : Int) :
    146097 * y - 700 ≤ 400 * startOfYear y ∧ 400 * startOfYear y ≤ 146097 * y + 400 := by
  simp only [startOfYear]
  omega

/-- A day lies in the March year that is found for it. -/
theorem yearOf_spec (n : Int) : startOfYear (yearOf n) ≤ n ∧ n < startOfYear (yearOf n + 1) := by
  have hdiv := Int.mul_ediv_add_emod (400 * n) 146097
  have hmod := Int.emod_nonneg (400 * n) (b := 146097) (by decide)
  have hlt := Int.emod_lt_of_pos (400 * n) (b := 146097) (by decide)
  simp only [yearOf]
  generalize 400 * n / 146097 = y at *
  have h₀ := startOfYear_bounds (y - 1)
  have h₁ := startOfYear_bounds (y + 1 + 1)
  split_ifs with hbefore hafter
  · rw [show y - 1 + 1 = y by omega]
    omega
  · omega
  · omega

/-- A March year is a day longer when the next year has a leap day. -/
theorem startOfYear_succ (y : Int) :
    startOfYear (y + 1) = startOfYear y + (if isLeapYear (y + 1) then 366 else 365) := by
  have hleap : isLeapYear (y + 1) = true ↔
      (y + 1) % 4 = 0 ∧ ((y + 1) % 100 ≠ 0 ∨ (y + 1) % 400 = 0) := by
    simp [isLeapYear]
  simp only [startOfYear]
  split_ifs with h
  · have := hleap.mp h
    omega
  · have := mt hleap.mpr h
    omega

/-- Later March years start later. -/
theorem startOfYear_mono {y z : Int} (h : y ≤ z) : startOfYear y ≤ startOfYear z := by
  have h₄ : y / 4 ≤ z / 4 := by omega
  have h₁₀₀ : z / 100 - y / 100 ≤ z - y := by omega
  have h₄₀₀ : y / 400 ≤ z / 400 := by omega
  simp only [startOfYear]
  omega

/-- The parts of a day of a March year: its month and its day of the month. -/
theorem month_spec {d : Nat} (hd : d ≤ 365) :
    (5 * d + 2) / 153 ≤ 11 ∧ startOfMonth ((5 * d + 2) / 153) ≤ d ∧
      d < startOfMonth ((5 * d + 2) / 153 + 1) := by
  simp only [startOfMonth]
  omega

/-- How a date is found: a March year `y`, a day `d` of it and a month `m` of it. The months from
January on are the last two of a March year. -/
theorem ofDays_spec (days : Int) : ∃ (y : Int) (d m : Nat),
    startOfYear y + d = days + epochDay ∧ d < (if isLeapYear (y + 1) then 366 else 365) ∧
      m ≤ 11 ∧ startOfMonth m ≤ d ∧ d < startOfMonth (m + 1) ∧
      ofDays days = if m < 10 then ⟨y, m + 3, d - startOfMonth m + 1⟩
        else ⟨y + 1, m - 9, d - startOfMonth m + 1⟩ := by
  obtain ⟨hfrom, huntil⟩ := yearOf_spec (days + epochDay)
  have hyear := startOfYear_succ (yearOf (days + epochDay))
  obtain ⟨d, hd⟩ : ∃ d : Nat,
      (d : Int) = days + epochDay - startOfYear (yearOf (days + epochDay)) :=
    ⟨(days + epochDay - startOfYear (yearOf (days + epochDay))).toNat, by omega⟩
  have hlt : d < (if isLeapYear (yearOf (days + epochDay) + 1) then 366 else 365) := by
    split_ifs at hyear ⊢ <;> omega
  obtain ⟨hm, hstart, hnext⟩ := month_spec (d := d) (by split_ifs at hlt <;> omega)
  refine ⟨yearOf (days + epochDay), d, (5 * d + 2) / 153, by omega, hlt, hm, hstart, hnext, ?_⟩
  simp only [ofDays, ← hd, Int.toNat_natCast]
  split_ifs <;> first | rfl | omega

/-- **The count of the days of a date is the number that the date was found for.** -/
theorem toDays_ofDays (days : Int) : (ofDays days).toDays = days := by
  obtain ⟨y, d, m, hd, -, hm, hstart, -, hdate⟩ := ofDays_spec days
  rw [hdate]
  split_ifs with hlate
  · have hmonth : (m + 3 + 9) % 12 = m := by omega
    simp only [toDays, hmonth]
    split_ifs <;> omega
  · have hmonth : (m - 9 + 9) % 12 = m := by omega
    simp only [toDays, hmonth, add_sub_cancel_right]
    split_ifs <;> omega

/-- No month of a March year is longer than the calendar says. -/
theorem day_le_daysInMonth {y : Int} {d m : Nat}
    (hd : d < (if isLeapYear (y + 1) then 366 else 365)) (hm : m ≤ 11)
    (hnext : d < startOfMonth (m + 1)) :
    d - startOfMonth m + 1 ≤
      if m < 10 then daysInMonth y (m + 3) else daysInMonth (y + 1) (m - 9) := by
  simp only [startOfMonth] at hnext ⊢
  -- The lengths of months follow no formula, so each of the twelve is looked up.
  have hcases : m = 0 ∨ m = 1 ∨ m = 2 ∨ m = 3 ∨ m = 4 ∨ m = 5 ∨ m = 6 ∨ m = 7 ∨ m = 8 ∨ m = 9 ∨
      m = 10 ∨ m = 11 := by omega
  rcases hcases with rfl | rfl | rfl | rfl | rfl | rfl | rfl | rfl | rfl | rfl | rfl | rfl <;>
    simp [daysInMonth] at * <;> split_ifs at * <;> omega

/-- The years of a day of the calendar are those that the library takes. The first and the last
day of the calendar lie ten months into their March years. -/
theorem year_bounds {days y : Int} {d m : Nat} (hfirst : firstDay ≤ days) (hlast : days ≤ lastDay)
    (hd : startOfYear y + d = days + epochDay)
    (hleap : d < (if isLeapYear (y + 1) then 366 else 365))
    (hstart : startOfMonth m ≤ d) (hnext : d < startOfMonth (m + 1)) :
    firstYear ≤ (if m < 10 then y else y + 1) ∧ (if m < 10 then y else y + 1) ≤ lastYear := by
  -- A year outside the library's would start or end outside the calendar.
  have hlow : startOfYear (-262144) = -95746130 := by decide
  have hhigh : startOfYear 262142 = 95745399 ∧ startOfYear 262143 = 95745764 := by decide
  have hsucc : startOfYear y + d < startOfYear (y + 1) := by
    rw [startOfYear_succ]
    split_ifs at hleap ⊢ <;> omega
  simp only [firstDay, lastDay, epochDay] at hfirst hlast hd
  simp only [startOfMonth] at hstart hnext
  simp only [firstYear, lastYear]
  split_ifs with hlate
  · constructor
    · by_contra hy
      have := startOfYear_mono (y := y) (z := -262144) (by omega)
      omega
    · by_contra hy
      have := startOfYear_mono (y := 262143) (z := y) (by omega)
      omega
  · constructor
    · by_contra hy
      have := startOfYear_mono (y := y + 1) (z := -262144) (by omega)
      omega
    · by_contra hy
      have := startOfYear_mono (y := 262142) (z := y) (by omega)
      omega

/-- **Every day of the calendar has a date.** -/
theorem valid_ofDays {days : Int} (hfirst : firstDay ≤ days) (hlast : days ≤ lastDay) :
    (ofDays days).Valid := by
  obtain ⟨y, d, m, hd, hleap, hm, hstart, hnext, hdate⟩ := ofDays_spec days
  have hday := day_le_daysInMonth hleap hm hnext
  have hyear := year_bounds hfirst hlast hd hleap hstart hnext
  rw [hdate]
  split_ifs at hday hyear ⊢ with hlate
  · exact ⟨hyear.1, hyear.2, Nat.le_add_left 1 _, by show m + 3 ≤ 12; omega, Nat.le_add_left 1 _,
      hday⟩
  · exact ⟨hyear.1, hyear.2, by show 1 ≤ m - 9; omega, by show m - 9 ≤ 12; omega,
      Nat.le_add_left 1 _, hday⟩

/-- A day lies in the years 0 to 9999, from the first of January 0 to the last of December 9999. -/
theorem year_ofDays_bounds {days : Int} :
    (0 ≤ (ofDays days).year ∧ (ofDays days).year ≤ 9999) ↔ -719528 ≤ days ∧ days < 2932897 := by
  obtain ⟨y, d, m, hd, hleap, -, hstart, hnext, hdate⟩ := ofDays_spec days
  have hsucc : startOfYear y + d < startOfYear (y + 1) := by
    rw [startOfYear_succ]
    split_ifs at hleap ⊢ <;> omega
  -- January and February belong to the March year before, so each bound lies ten months into one.
  have hfirst : startOfYear (-1) = -366 ∧ startOfYear 0 = 0 := by decide
  have hlast : startOfYear 9999 = 3652059 ∧ startOfYear 10000 = 3652425 := by decide
  have hmono (z : Int) : (y ≤ z → startOfYear y ≤ startOfYear z) ∧
      (z ≤ y → startOfYear z ≤ startOfYear y) ∧ (y + 1 ≤ z → startOfYear (y + 1) ≤ startOfYear z) :=
    ⟨startOfYear_mono, startOfYear_mono, startOfYear_mono⟩
  have h₁ := hmono (-1)
  have h₂ := hmono 0
  have h₃ := hmono 9999
  have h₄ := hmono 10000
  simp only [epochDay] at hd
  simp only [startOfMonth] at hstart hnext
  rw [hdate]
  split_ifs with hlate
  · dsimp only
    omega
  · dsimp only
    omega

end KeysetPaging.Date
