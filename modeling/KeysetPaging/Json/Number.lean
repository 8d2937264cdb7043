import KeysetPaging.Document
import KeysetPaging.Decimal.Natural

/-! # Numbers in JSON text

A number without a fraction and an exponent that fits 64 bits is a whole number. Any other is a
float: the leading digits that fit an unsigned number of 64 bits are multiplied or divided by a
power of ten, in one rounding step up to `10^308`. A float that would be infinite is unreadable.
-/

namespace KeysetPaging.Json

open Decimal (digitValue ofDigits maxCount)

/-- Goes on with a number for as long as the next digit keeps it within `maxCount`. -/
def takeFitting (n : Nat) : List Char → Nat × List Char
  | [] => (n, [])
  | c :: cs =>
      let next := 10 * n + digitValue c
      if next ≤ maxCount then takeFitting next cs else (n, c :: cs)

/-- The float nearest to a power of ten up to `10^308`. -/
def powerOfTen (n : Nat) : Float :=
  Float.ofScientific 1 false n

/-- Scales a float by a power of ten, dividing by `10^308` while the power is below that. -/
def scale : (fuel : Nat) → Float → Int → Float
  | 0, x, _ => x
  | fuel + 1, x, exponent =>
      if 308 < exponent then
        if x == 0 then x else 1 / 0
      else if 0 ≤ exponent then x * powerOfTen exponent.toNat
      else if -308 ≤ exponent then x / powerOfTen (-exponent).toNat
      else if x == 0 then x
      else scale fuel (x / powerOfTen 308) (exponent + 308)

/-- The float with the given sign, digits and power of ten. Three divisions by `10^308` bring any
number of 64 bits to zero. -/
def floatOf (negative : Bool) (number : Nat) (exponent : Int) : Scalar :=
  let x := scale 4 number.toUInt64.toFloat exponent
  if x.isInf then .unreadable else .float (if negative then -x else x)

/-- The largest exponent that is added up; a larger one gives zero or is unreadable. -/
def maxExponent : Nat := 2147483647

/-- The number with the given sign, digits before and after the point, and exponent. -/
def numberOf (negative : Bool) (whole : List Char) (fraction : Option (List Char))
    (exponent : Option (Bool × List Char)) : Scalar :=
  let n := ofDigits whole
  let fits := n ≤ maxCount
  match fraction, exponent with
  | none, none =>
      if !negative && fits then .int n
      else if negative && n ≠ 0 && n ≤ Decimal.twoTo 63 then .int (-n)
      else
        let (number, rest) := takeFitting 0 whole
        floatOf negative number rest.length
  | _, _ =>
      let (number, past) := takeFitting 0 whole
      let after := fraction.getD []
      let (number, unused) := takeFitting number after
      let shift : Int := past.length - (after.length - unused.length : Nat)
      match exponent with
      | none => floatOf negative number shift
      | some (down, digits) =>
          let e := ofDigits digits
          if maxExponent < e then
            if number ≠ 0 && !down then .unreadable
            else .float (if negative then -0.0 else 0.0)
          else floatOf negative number (if down then shift - e else shift + e)

/-- Splits the digits off the front. -/
def spanDigits (cs : List Char) : List Char × List Char :=
  (cs.takeWhile Char.isDigit, cs.dropWhile Char.isDigit)

/-- Reads the digits before the point: no zero may stand in front of another digit. -/
def wholePart (cs : List Char) : Option (List Char × List Char) :=
  match spanDigits cs with
  | ([], _) => none
  | ('0' :: _ :: _, _) => none
  | r => some r

/-- Reads a point and the digits after it, if there is a point. -/
def fractionPart (cs : List Char) : Option (Option (List Char) × List Char) :=
  match cs with
  | '.' :: cs =>
      match spanDigits cs with
      | ([], _) => none
      | (ds, rest) => some (some ds, rest)
  | _ => some (none, cs)

/-- Reads an exponent, if there is one: whether it is negative, and its digits. -/
def exponentPart (cs : List Char) : Option (Option (Bool × List Char) × List Char) :=
  let digits (down : Bool) (cs : List Char) :=
    match spanDigits cs with
    | ([], _) => none
    | (ds, rest) => some (some (down, ds), rest)
  match cs with
  | c :: cs' =>
      if c = 'e' || c = 'E' then
        match cs' with
        | '+' :: cs => digits false cs
        | '-' :: cs => digits true cs
        | cs => digits false cs
      else some (none, cs)
  | [] => some (none, [])

/-- Reads a number. -/
def readNumber (cs : List Char) : Option (Scalar × List Char) := do
  let (negative, cs) := match cs with
    | '-' :: cs => (true, cs)
    | cs => (false, cs)
  let (whole, cs) ← wholePart cs
  let (fraction, cs) ← fractionPart cs
  let (exponent, cs) ← exponentPart cs
  some (numberOf negative whole fraction exponent, cs)

end KeysetPaging.Json
