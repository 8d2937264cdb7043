/-! # Orders

A three-way comparison answers whether the first of two things comes before the second, is level
with it or comes after it. A direction says whether a sequence runs from the smallest to the
largest or the other way.
-/

namespace KeysetPaging

/-- Smaller numbers come first. -/
def compareInt (a b : Int) : Ordering :=
  if a < b then .lt else if b < a then .gt else .eq

/-- Texts are compared character by character, by the numbers of the characters. A text comes
after those it starts with. -/
def compareChars : List Char → List Char → Ordering
  | [], [] => .eq
  | [], _ :: _ => .lt
  | _ :: _, [] => .gt
  | a :: as, b :: bs => (compareInt a.toNat b.toNat).then (compareChars as bs)

/-- Texts are compared character by character. -/
def compareText (a b : String) : Ordering :=
  compareChars a.toList b.toList

/-- The direction of a sequence. -/
inductive Direction where
  | ascending
  | descending
  deriving DecidableEq, Repr, Inhabited

namespace Direction

/-- Turns the order of two keys into the order of their places in the sequence. -/
def apply (direction : Direction) (order : Ordering) : Ordering :=
  match direction with
  | .ascending => order
  | .descending => order.swap

/-- The sequence runs from the largest to the smallest. -/
def isDescending : Direction → Bool
  | .ascending => false
  | .descending => true

/-- The name of a direction. -/
def name : Direction → String
  | .ascending => "ascending"
  | .descending => "descending"

/-- The name of a direction as a constructor of a shape. -/
def label : Direction → String
  | .ascending => "Ascending"
  | .descending => "Descending"

/-- The direction with the given name or short name. -/
def ofName? (name : String) : Option Direction :=
  if name = "ascending" ∨ name = "asc" then some .ascending
  else if name = "descending" ∨ name = "desc" then some .descending
  else none

end Direction

end KeysetPaging
