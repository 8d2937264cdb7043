import KeysetPaging.Decimal.Natural
import KeysetPaging.Instant.Basic
import KeysetPaging.Text.Blank

/-! # Reading instants

Four forms are read. The strict form has a fixed number of digits in each place. The relaxed
form, in which bookmarks are read, lets places have fewer digits and blanks stand between them.
The two database forms put the time of day after the date, with an offset or without one.
-/

namespace KeysetPaging.Instant

open Decimal (splitDigits upTo ofDigits digitValue)
open Text (trimStart isBlank)

/-- Takes one given character from the front. -/
def expect (c : Char) : List Char → Option (List Char)
  | [] => none
  | a :: rest => if a = c then some rest else none

/-- Reads exactly `width` digits. -/
def fixed (width : Nat) (cs : List Char) : Option (Nat × List Char) :=
  let (ds, rest) := splitDigits width cs
  if ds.length = width then some (ofDigits ds, rest) else none

/-- Reads at most `width` digits after any blanks. -/
def loose (width : Nat) (cs : List Char) : Option (Nat × List Char) :=
  upTo width (trimStart cs)

/-- Reads a year after any blanks: at most four digits, or any number of them after a sign. -/
def looseYear (cs : List Char) : Option (Int × List Char) :=
  match trimStart cs with
  | '-' :: rest => (upTo rest.length rest).map fun (n, rest) => (-(n : Int), rest)
  | '+' :: rest => (upTo rest.length rest).map fun (n, rest) => ((n : Int), rest)
  | rest => (upTo 4 rest).map fun (n, rest) => ((n : Int), rest)

/-- Reads the fraction of a second, in nanoseconds. Digits past the ninth are passed over. -/
def fraction (cs : List Char) : Option (Nat × List Char) :=
  match cs with
  | '.' :: rest =>
      let (ds, rest) := splitDigits 9 rest
      if ds.isEmpty then none
      else some (ofDigits ds * Decimal.tenTo (9 - ds.length), rest.dropWhile Char.isDigit)
  | _ => some (0, cs)

/-- The sign of an offset. -/
def offsetSign? (c : Char) : Option Int :=
  if c = '+' then some 1
  else if c = '-' || c = Char.ofNat 0x2212 then some (-1)
  else none

/-- Reads an offset from universal time, in minutes: `Z`, or a sign, two digits of hours, what
`between` takes, and two digits of minutes. -/
def offset (between : List Char → Option (List Char)) (minutesOptional : Bool) :
    List Char → Option (Int × List Char)
  | [] => none
  | c :: cs =>
      if c = 'Z' || c = 'z' then some (0, cs)
      else do
        let sign ← offsetSign? c
        let (hours, cs) ← fixed 2 cs
        let cs ← between cs
        if cs.isEmpty then
          if minutesOptional then some (sign * (hours * 60 : Nat), []) else none
        else
          let (minutes, cs) ← fixed 2 cs
          if minutes < 60 then some (sign * (hours * 60 + minutes : Nat), cs) else none

/-- Any colons and blanks may stand between the hours and the minutes of an offset. -/
def passColons (cs : List Char) : Option (List Char) :=
  some (cs.dropWhile fun c => c = ':' || isBlank c)

/-- Reads the offset of a relaxed form, which may also be the name of universal time. -/
def namedOffset (cs : List Char) : Option (Int × List Char) :=
  match cs with
  | a :: b :: c :: rest =>
      if (a = 'U' || a = 'u') && (b = 'T' || b = 't') && (c = 'C' || c = 'c') then some (0, rest)
      else offset passColons false cs
  | _ => offset passColons false cs

/-- Takes the character between a date and a time of day from the front. -/
def dateEnd : List Char → Option (List Char)
  | [] => none
  | c :: rest => if c = 'T' || c = 't' || c = ' ' then some rest else none

/-- Reads the strict form: `YYYY-MM-DDThh:mm:ss`, a fraction and an offset. -/
def readStrict (s : String) : Option Instant := do
  let (year, cs) ← fixed 4 s.toList
  let (month, cs) ← fixed 2 (← expect '-' cs)
  let (day, cs) ← fixed 2 (← expect '-' cs)
  let (hour, cs) ← fixed 2 (← dateEnd cs)
  let (minute, cs) ← fixed 2 (← expect ':' cs)
  let (second, cs) ← fixed 2 (← expect ':' cs)
  let (nanos, cs) ← fraction cs
  let (shift, cs) ← offset (expect ':') false cs
  if cs.isEmpty then ofWallTime? ⟨⟨year, month, day⟩, hour, minute, second, nanos⟩ shift else none

/-- Reads a date and a time of day. `gap` is what may stand in front of a separator and `next`
what stands between the date and the time of day. -/
def looseWallTime (gap : List Char → List Char) (next : List Char → Option (List Char))
    (cs : List Char) : Option (WallTime × List Char) := do
  let (year, cs) ← looseYear cs
  let (month, cs) ← loose 2 (← expect '-' (gap cs))
  let (day, cs) ← loose 2 (← expect '-' (gap cs))
  let (hour, cs) ← loose 2 (← next cs)
  let (minute, cs) ← loose 2 (← expect ':' (gap cs))
  let (second, cs) ← loose 2 (← expect ':' (gap cs))
  let (nanos, cs) ← fraction cs
  some (⟨⟨year, month, day⟩, hour, minute, second, nanos⟩, cs)

/-- Reads the relaxed form, in which bookmarks are read. -/
def readRelaxed (s : String) : Option Instant := do
  let (wall, cs) ← looseWallTime trimStart dateEnd s.toList
  let (shift, cs) ← namedOffset (trimStart cs)
  if (trimStart cs).isEmpty then ofWallTime? wall shift else none

/-- Reads the database form `YYYY-MM-DD hh:mm:ss` with a fraction, and the rest. -/
def databaseWallTime (s : String) : Option (WallTime × List Char) :=
  looseWallTime id some s.toList

/-- Reads the database form with an offset after it. -/
def readDatabase (s : String) : Option Instant := do
  let (wall, cs) ← databaseWallTime s
  let (shift, cs) ← offset passColons true (trimStart cs)
  if cs.isEmpty then ofWallTime? wall shift else none

/-- Reads the database form in universal time. -/
def readNaive (s : String) : Option Instant := do
  let (wall, cs) ← databaseWallTime s
  if cs.isEmpty then ofWallTime? wall 0 else none

/-- Reads the timestamp of a record: the strict form, else a database form. -/
def ofTimestamp? (s : String) : Option Instant :=
  (readStrict s).orElse fun _ => (readDatabase s).orElse fun _ => readNaive s

end KeysetPaging.Instant
