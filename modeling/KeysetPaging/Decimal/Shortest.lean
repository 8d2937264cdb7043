import KeysetPaging.Decimal.Natural

/-! # The shortest decimal of a binary fraction

A finite 64-bit float stands for every real that rounds to it. Among the decimals in that
interval the library writes one with the fewest digits, and of those the nearest. All tests are
exact comparisons of natural numbers.
-/

namespace KeysetPaging.Decimal

/-- The absolute value of a finite float as a fraction, with the interval that rounds to it:
`mid / den` is the value, and the interval reaches from `low / den` to `high / den`. -/
structure Rounding where
  low : Nat
  mid : Nat
  high : Nat
  den : Nat
  /-- The two ends belong to the interval. -/
  closed : Bool

/-- The interval of the float with the given bits, its sign left aside. -/
def Rounding.ofBits (bits : UInt64) : Rounding :=
  let exponent := ((bits >>> 52) &&& 0x7FF).toNat
  let fraction := (bits &&& 0xFFFFFFFFFFFFF).toNat
  let mantissa := if exponent = 0 then fraction else twoTo 52 + fraction
  -- the value is `4 * mantissa * 2 ^ (scale - 1077)`
  let scale := if exponent = 0 then 1 else exponent
  let up := twoTo (scale - 1077)
  let below := if fraction = 0 && 1 < exponent then 1 else 2
  { low := (4 * mantissa - below) * up
    mid := 4 * mantissa * up
    high := (4 * mantissa + 2) * up
    den := twoTo (1077 - scale)
    closed := mantissa % 2 == 0 }

/-- A decimal: the value `number * 10 ^ exponent`. -/
structure Scaled where
  number : Nat
  exponent : Int

/-- The decimal lies in the interval. -/
def Rounding.holds (r : Rounding) (d : Scaled) : Bool :=
  let value := d.number * tenTo d.exponent.toNat * r.den
  let shift := tenTo (-d.exponent).toNat
  if r.closed then r.low * shift ≤ value && value ≤ r.high * shift
  else r.low * shift < value && value < r.high * shift

/-- The point halfway between a decimal and its upper neighbour, doubled, stands on this side of
the doubled value: below it, at it or above it. -/
def Rounding.halfway (r : Rounding) (lower : Scaled) : Ordering :=
  let twice := (2 * lower.number + 1) * tenTo lower.exponent.toNat * r.den
  let value := 2 * r.mid * tenTo (-lower.exponent).toNat
  if twice < value then .lt else if twice = value then .eq else .gt

/-- The decimal with the given last place that lies in the interval, if there is one: of two the
nearer, and of two equally near the one with an even last digit. -/
def Rounding.onGrid (r : Rounding) (exponent : Int) : Option Scaled :=
  let floor := r.mid * tenTo (-exponent).toNat / (tenTo exponent.toNat * r.den)
  let below : Scaled := ⟨floor, exponent⟩
  let above : Scaled := ⟨floor + 1, exponent⟩
  match r.holds below, r.holds above with
  | false, false => none
  | true, false => some below
  | false, true => some above
  | true, true =>
      match r.halfway below with
      | .gt => some below
      | .lt => some above
      | .eq => some (if floor % 2 = 0 then below else above)

/-- The number of digits in front of the point; zero or negative for a value below one tenth. -/
def Rounding.places (r : Rounding) : Int :=
  ((digits (r.mid * tenTo 400 / r.den)).length : Int) - 400

/-- Drops the zeros at the end of the digits. -/
def Scaled.strip : (fuel : Nat) → Scaled → Scaled
  | 0, d => d
  | fuel + 1, d =>
      if d.number % 10 = 0 && d.number ≠ 0 then strip fuel ⟨d.number / 10, d.exponent + 1⟩ else d

/-- The shortest decimal in the interval. Seventeen digits always reach it. -/
def Rounding.shortest (r : Rounding) : Scaled :=
  let places := r.places
  let found := (List.range 17).findSome? fun n => r.onGrid (places - (n + 1 : Nat))
  (found.getD ⟨r.mid, 0⟩).strip 800

/-- How a decimal is laid out: positionally while its leading digit stands between the fifth
place after the point and the sixteenth before it, and else with an exponent. -/
def Scaled.layout (d : Scaled) : List Char :=
  let ds := digits d.number
  let point := (ds.length : Int) + d.exponent
  if 0 ≤ d.exponent && point ≤ 16 then
    ds ++ List.replicate d.exponent.toNat '0' ++ ['.', '0']
  else if 0 < point && point ≤ 16 then
    ds.take point.toNat ++ '.' :: ds.drop point.toNat
  else if -5 < point && point ≤ 0 then
    ['0', '.'] ++ List.replicate (-point).toNat '0' ++ ds
  else
    let lead := ds.take 1
    let rest := ds.drop 1
    lead ++ (if rest.isEmpty then [] else '.' :: rest) ++ 'e' :: ofInt (point - 1)

/-- The shortest text of a finite float. It always has a point or an exponent. -/
def ofFloat (x : Float) : List Char :=
  let bits := x.toBits
  let sign := if bits >>> 63 = 1 then ['-'] else []
  let r := Rounding.ofBits bits
  if r.mid = 0 then sign ++ ['0', '.', '0'] else sign ++ r.shortest.layout

end KeysetPaging.Decimal
