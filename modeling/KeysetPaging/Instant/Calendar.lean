/-! # The calendar

Days are counted from the first of January 1970. Years are counted from March, so that the leap
day ends its year, and a year starts `365 * y + y / 4 - y / 100 + y / 400` days after year zero.
The library takes dates from the year -262143 up to the year 262142.
-/

namespace KeysetPaging

/-- A day of the calendar. -/
structure Date where
  year : Int
  month : Nat
  day : Nat
  deriving DecidableEq, Repr

namespace Date

/-- The earliest year of a date. -/
def firstYear : Int := -262143

/-- The latest year of a date. -/
def lastYear : Int := 262142

/-- The year has a twenty-ninth of February. -/
def isLeapYear (year : Int) : Bool :=
  year % 4 = 0 && (year % 100 ≠ 0 || year % 400 = 0)

/-- The number of days of a month. -/
def daysInMonth (year : Int) (month : Nat) : Nat :=
  if month = 2 then (if isLeapYear year then 29 else 28)
  else if month = 4 || month = 6 || month = 9 || month = 11 then 30
  else 31

/-- The date exists and its year is one of those the library takes. -/
def Valid (d : Date) : Prop :=
  firstYear ≤ d.year ∧ d.year ≤ lastYear ∧ 1 ≤ d.month ∧ d.month ≤ 12 ∧ 1 ≤ d.day ∧
    d.day ≤ daysInMonth d.year d.month

instance (d : Date) : Decidable d.Valid := by
  unfold Valid; infer_instance

/-- The days from the first of March of year zero to the first of March of the given year. -/
def startOfYear (y : Int) : Int :=
  365 * y + y / 4 - y / 100 + y / 400

/-- The days from the start of a March year to the start of its month number `m`. -/
def startOfMonth (m : Nat) : Nat :=
  (153 * m + 2) / 5

/-- The days from the first of March of year zero to the first of January 1970. -/
def epochDay : Int := 719468

/-- The days from the first of January 1970 to a date. -/
def toDays (d : Date) : Int :=
  let y := if d.month ≤ 2 then d.year - 1 else d.year
  startOfYear y + startOfMonth ((d.month + 9) % 12) + d.day - 1 - epochDay

/-- The March year that a day lies in, counted from the first of March of year zero. -/
def yearOf (n : Int) : Int :=
  let y := 400 * n / 146097
  if n < startOfYear y then y - 1 else if startOfYear (y + 1) ≤ n then y + 1 else y

/-- The date that lies the given number of days after the first of January 1970. -/
def ofDays (days : Int) : Date :=
  let n := days + epochDay
  let y := yearOf n
  let dayOfYear := (n - startOfYear y).toNat
  let m := (5 * dayOfYear + 2) / 153
  let month := if m < 10 then m + 3 else m - 9
  { year := if month ≤ 2 then y + 1 else y
    month
    day := dayOfYear - startOfMonth m + 1 }

/-- The first day of the calendar. -/
def firstDay : Int := -96465292

/-- The last day of the calendar. -/
def lastDay : Int := 95026236

end Date

end KeysetPaging
