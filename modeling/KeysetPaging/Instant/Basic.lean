import KeysetPaging.Instant.Calendar
import KeysetPaging.Order

/-! # Instants

An instant is a number of whole seconds since the start of 1970 in universal time and a number of
nanoseconds. During a leap second the nanoseconds run past the billion while the seconds stay on
the fifty-ninth of the minute.
-/

namespace KeysetPaging

/-- A point in time within the calendar, to the nanosecond. -/
structure Instant where
  seconds : Int
  nanos : Nat
  first_le : Date.firstDay * 86400 ≤ seconds
  lt_last : seconds < (Date.lastDay + 1) * 86400
  nanos_lt : nanos < 2000000000
  /-- Only the last second of a minute can be followed by a leap second. -/
  leap_at : 1000000000 ≤ nanos → seconds % 60 = 59
  deriving DecidableEq

namespace Instant

/-- The instant with the given parts, if it lies in the calendar. -/
def ofParts? (seconds : Int) (nanos : Nat) : Option Instant :=
  if h : Date.firstDay * 86400 ≤ seconds ∧ seconds < (Date.lastDay + 1) * 86400 ∧
      nanos < 2000000000 ∧ (1000000000 ≤ nanos → seconds % 60 = 59) then
    some ⟨seconds, nanos, h.1, h.2.1, h.2.2.1, h.2.2.2⟩
  else none

/-- The instant a whole number of seconds after the start of 1970, if it lies in the calendar. -/
def ofSeconds? (seconds : Int) : Option Instant :=
  ofParts? seconds 0

/-- The whole microseconds since the start of 1970. A leap second counts on from the second
before it. -/
def micros (t : Instant) : Int :=
  t.seconds * 1000000 + (t.nanos / 1000 : Nat)

/-- A reading of a clock and a calendar at some place. -/
structure WallTime where
  date : Date
  hour : Nat
  minute : Nat
  /-- Sixty during a leap second. -/
  second : Nat
  nanos : Nat
  deriving DecidableEq, Repr

/-- The reading exists on the clock and in the calendar. -/
def WallTime.Valid (w : WallTime) : Prop :=
  w.date.Valid ∧ w.hour < 24 ∧ w.minute < 60 ∧ w.second ≤ 60 ∧ w.nanos < 1000000000

instance (w : WallTime) : Decidable w.Valid := by
  unfold WallTime.Valid; infer_instance

/-- The instant at which a place that is `offset` minutes ahead of universal time reads `w`. -/
def ofWallTime? (w : WallTime) (offset : Int) : Option Instant :=
  if w.Valid ∧ -1440 < offset ∧ offset < 1440 then
    let minutes := (w.date.toDays * 24 + w.hour) * 60 + w.minute - offset
    if w.second = 60 then ofParts? (minutes * 60 + 59) (w.nanos + 1000000000)
    else ofParts? (minutes * 60 + w.second) w.nanos
  else none

/-- The reading of a clock in universal time. -/
def toWallTime (t : Instant) : WallTime :=
  let ofDay := (t.seconds % 86400).toNat
  let leap := if t.nanos < 1000000000 then 0 else 1
  { date := Date.ofDays (t.seconds / 86400)
    hour := ofDay / 3600
    minute := ofDay / 60 % 60
    second := ofDay % 60 + leap
    nanos := t.nanos - leap * 1000000000 }

/-- Earlier instants come first. -/
def compare (a b : Instant) : Ordering :=
  (compareInt a.seconds b.seconds).then (compareInt a.nanos b.nanos)

end Instant

end KeysetPaging
