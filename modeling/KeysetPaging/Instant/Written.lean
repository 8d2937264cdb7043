import KeysetPaging.Decimal.Natural
import KeysetPaging.Instant.Basic

/-! # Instants as text

An instant is written as a date and a time of day in universal time, with as many groups of three
fraction digits as it needs. A year outside 0 to 9999 carries its sign.
-/

namespace KeysetPaging.Instant

open Decimal (padded)

/-- A year in four digits, with its sign and at least four digits when it does not fit. -/
def yearText (year : Int) : List Char :=
  if 0 ≤ year ∧ year ≤ 9999 then padded 4 year.natAbs
  else (if year < 0 then '-' else '+') :: padded 4 year.natAbs

/-- The fraction of a second: nothing, or three, six or nine digits. -/
def fractionText (nanos : Nat) : List Char :=
  if nanos = 0 then []
  else if nanos % 1000000 = 0 then '.' :: padded 3 (nanos / 1000000)
  else if nanos % 1000 = 0 then '.' :: padded 6 (nanos / 1000)
  else '.' :: padded 9 nanos

/-- A reading of a clock and a calendar, with `T` between the date and the time of day. -/
def WallTime.text (w : WallTime) : List Char :=
  yearText w.date.year ++ '-' :: padded 2 w.date.month ++ '-' :: padded 2 w.date.day ++
    'T' :: padded 2 w.hour ++ ':' :: padded 2 w.minute ++ ':' :: padded 2 w.second ++
    fractionText w.nanos

/-- The text of an instant that ends in `Z`. -/
def toText (t : Instant) : String :=
  String.ofList (t.toWallTime.text ++ ['Z'])

/-- The text of an instant that ends in the offset of universal time. -/
def display (t : Instant) : String :=
  String.ofList (t.toWallTime.text ++ "+00:00".toList)

end KeysetPaging.Instant
