/-! # Natural numbers in decimal

Writing a number gives its digits without leading zeros, or padded to a width. Reading adds up
the digits of a list. `upTo` is the reader that takes a bounded run of digits from the front.
-/

namespace KeysetPaging.Decimal

/-- The largest unsigned number of 64 bits. Every count of a request or an option is at most this. -/
def maxCount : Nat := 18446744073709551615

/-- A power of ten. -/
def tenTo (n : Nat) : Nat :=
  Nat.pow 10 n

/-- A power of two. -/
def twoTo (n : Nat) : Nat :=
  Nat.pow 2 n

/-- The digit of a number below ten. -/
def digit (n : Nat) : Char :=
  Char.ofNat (48 + n)

/-- The value of a digit. -/
def digitValue (c : Char) : Nat :=
  c.toNat - 48

/-- The digits of a number, without leading zeros. -/
def digits (n : Nat) : List Char :=
  if n < 10 then [digit n] else digits (n / 10) ++ [digit (n % 10)]

/-- The digits of a number, with zeros in front up to the given width. -/
def padded (width n : Nat) : List Char :=
  let ds := digits n
  List.replicate (width - ds.length) '0' ++ ds

/-- The number that a list of digits writes. -/
def ofDigits (ds : List Char) : Nat :=
  ds.foldl (fun n c => 10 * n + digitValue c) 0

/-- The longest run of digits at the front that is no longer than `max`, and the rest. -/
def splitDigits : (max : Nat) → List Char → List Char × List Char
  | 0, cs => ([], cs)
  | _ + 1, [] => ([], [])
  | max + 1, c :: cs =>
      if c.isDigit then
        let (ds, rest) := splitDigits max cs
        (c :: ds, rest)
      else ([], c :: cs)

/-- Reads at least one and at most `max` digits. -/
def upTo (max : Nat) (cs : List Char) : Option (Nat × List Char) :=
  let (ds, rest) := splitDigits max cs
  if ds.isEmpty then none else some (ofDigits ds, rest)

/-- Reads a number that fills a whole text of digits, with or without a plus sign in front,
and that is no larger than `maxCount`. -/
def count? (s : String) : Option Nat :=
  let ds := match s.toList with
    | '+' :: cs => cs
    | cs => cs
  if ds.isEmpty || !ds.all Char.isDigit then none
  else if ofDigits ds ≤ maxCount then some (ofDigits ds) else none

/-- An integer in decimal, with a minus sign when it is negative. -/
def ofInt (i : Int) : List Char :=
  if i < 0 then '-' :: digits i.natAbs else digits i.natAbs

end KeysetPaging.Decimal
