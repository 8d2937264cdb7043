/-! # Base64

Bytes are written six bits at a time. There are four spellings: the last two letters of the
alphabet are `-` and `_` or else `+` and `/`, and the last group is filled up with `=` or is
left short. Reading is strict: nothing may stand outside the alphabet, the padding is exactly
what the spelling asks for, and the bits beyond the last byte are zero.
-/

namespace KeysetPaging.Base64

/-- One of the four spellings. -/
structure Spelling where
  /-- The last two letters are `-` and `_`, which need no escaping in an address. -/
  addressSafe : Bool
  /-- The last group is filled up with `=`. -/
  padded : Bool

/-- The letter of a number below 64. -/
def letter (addressSafe : Bool) (n : Nat) : Char :=
  if n < 26 then Char.ofNat (65 + n)
  else if n < 52 then Char.ofNat (71 + n)
  else if n < 62 then Char.ofNat (n - 4)
  else if n = 62 then (if addressSafe then '-' else '+')
  else (if addressSafe then '_' else '/')

/-- The number of a letter. -/
def value? (addressSafe : Bool) (c : Char) : Option Nat :=
  let n := c.toNat
  if 65 ≤ n ∧ n ≤ 90 then some (n - 65)
  else if 97 ≤ n ∧ n ≤ 122 then some (n - 71)
  else if 48 ≤ n ∧ n ≤ 57 then some (n + 4)
  else if c = (if addressSafe then '-' else '+') then some 62
  else if c = (if addressSafe then '_' else '/') then some 63
  else none

/-- The numbers of six bits that write a list of bytes. -/
def split : List UInt8 → List Nat
  | [] => []
  | [a] => [a.toNat / 4, a.toNat % 4 * 16]
  | [a, b] => [a.toNat / 4, a.toNat % 4 * 16 + b.toNat / 16, b.toNat % 16 * 4]
  | a :: b :: c :: rest =>
      a.toNat / 4 :: (a.toNat % 4 * 16 + b.toNat / 16)
        :: (b.toNat % 16 * 4 + c.toNat / 64) :: c.toNat % 64 :: split rest

/-- The bytes that a list of numbers of six bits writes. -/
def join? : List Nat → Option (List UInt8)
  | [] => some []
  | [_] => none
  | [p, q] => if q % 16 = 0 then some [UInt8.ofNat (p * 4 + q / 16)] else none
  | [p, q, r] =>
      if r % 4 = 0 then
        some [UInt8.ofNat (p * 4 + q / 16), UInt8.ofNat (q % 16 * 16 + r / 4)]
      else none
  | p :: q :: r :: s :: rest =>
      (join? rest).map fun bytes =>
        UInt8.ofNat (p * 4 + q / 16) :: UInt8.ofNat (q % 16 * 16 + r / 4)
          :: UInt8.ofNat (r % 4 * 64 + s) :: bytes

/-- The padding after the given number of letters. -/
def padding (letters : Nat) : List Char :=
  List.replicate ((4 - letters % 4) % 4) '='

/-- Writes bytes in a spelling. -/
def encode (spelling : Spelling) (bytes : List UInt8) : List Char :=
  let letters := (split bytes).map (letter spelling.addressSafe)
  if spelling.padded then letters ++ padding letters.length else letters

/-- Takes the padding off, when it is exactly what the letters before it need. -/
def unpadded? (cs : List Char) : Option (List Char) :=
  let letters := cs.takeWhile (· ≠ '=')
  if cs = letters ++ padding letters.length then some letters else none

/-- Reads bytes in a spelling. -/
def decode? (spelling : Spelling) (cs : List Char) : Option (List UInt8) := do
  let letters ← if spelling.padded then unpadded? cs else some cs
  let numbers ← letters.mapM (value? spelling.addressSafe)
  join? numbers

/-- The four spellings, in the order in which a reader tries them. -/
def spellings : List Spelling :=
  [⟨true, false⟩, ⟨true, true⟩, ⟨false, true⟩, ⟨false, false⟩]

/-- Reads bytes in whichever spelling fits. -/
def decodeAny? (cs : List Char) : Option (List UInt8) :=
  spellings.findSome? fun spelling => decode? spelling cs

end KeysetPaging.Base64
