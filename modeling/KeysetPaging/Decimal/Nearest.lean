import KeysetPaging.Decimal.Natural

/-! # The float nearest to a decimal

A decimal is a natural number times a power of ten. The nearest float is found by one exact
division, rounded to the even neighbour when it falls halfway. A decimal beyond the largest float
has none.
-/

namespace KeysetPaging.Decimal

/-- A quotient rounded to the nearest natural number, and to the even one when it falls halfway. -/
def roundedQuotient (num den : Nat) : Nat :=
  let quotient := num / den
  let twice := 2 * (num % den)
  if twice < den then quotient
  else if den < twice then quotient + 1
  else quotient + quotient % 2

/-- The power of two that a fraction is counted in, so that its count has 53 binary digits or the
power is the smallest there is. It is returned with 1074 added. -/
def binaryPlace (num den : Nat) : Nat :=
  let guess := (num.log2 : Int) - den.log2 + 1021
  let place := guess.toNat
  if twoTo (53 + place) * den ≤ num * twoTo 1074 then place + 1 else place

/-- The float nearest to a positive fraction, unless it is beyond the largest. -/
def nearestFraction? (num den : Nat) : Option Float :=
  let place := binaryPlace num den
  let count := roundedQuotient (num * twoTo 1074) (den * twoTo place)
  let bits := place * twoTo 52 + count
  if bits < 0x7FF0000000000000 then some (Float.ofBits (UInt64.ofNat bits)) else none

/-- The float nearest to `number * 10 ^ exponent`, unless it is beyond the largest. Below
`10 ^ -400` that is zero. -/
def nearest? (number : Nat) (exponent : Int) : Option Float :=
  if number = 0 then some 0
  else
    let size : Int := (digits number).length + exponent
    if 400 < size then none
    else if size < -400 then some 0
    else nearestFraction? (number * tenTo exponent.toNat) (tenTo (-exponent).toNat)

end KeysetPaging.Decimal
