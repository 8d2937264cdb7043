/-! # Text as bytes

A text is written as its UTF-8 bytes. Reading keeps every well-formed character; a byte that
belongs to none becomes `damage`, which no reader of a format accepts where text is kept.
-/

namespace KeysetPaging.Text

/-- The bytes of a text. -/
def toBytes (s : String) : List UInt8 :=
  s.toUTF8.toList

/-- The byte continues a character. -/
def isContinuation (b : UInt8) : Bool :=
  0x80 ≤ b && b < 0xC0

/-- The character at the front of a list of bytes, when it is well formed and written with the
fewest bytes, and the bytes after it. -/
def firstChar? : List UInt8 → Option (Char × List UInt8)
  | [] => none
  | a :: rest =>
      if a < 0x80 then some (Char.ofNat a.toNat, rest)
      else match rest with
        | [] => none
        | b :: rest =>
          if !isContinuation b then none
          else
            let two := (a.toNat % 32) * 64 + b.toNat % 64
            if 0xC2 ≤ a && a < 0xE0 then some (Char.ofNat two, rest)
            else match rest with
              | [] => none
              | c :: rest =>
                if !isContinuation c then none
                else
                  let three := ((a.toNat % 16) * 64 + b.toNat % 64) * 64 + c.toNat % 64
                  if 0xE0 ≤ a && a < 0xF0 then
                    if 0x800 ≤ three && !(0xD800 ≤ three && three < 0xE000) then
                      some (Char.ofNat three, rest)
                    else none
                  else match rest with
                    | [] => none
                    | d :: rest =>
                      let four := (((a.toNat % 8) * 64 + b.toNat % 64) * 64 + c.toNat % 64) * 64
                        + d.toNat % 64
                      if isContinuation d && 0xF0 ≤ a && a < 0xF8
                          && 0x10000 ≤ four && four < 0x110000 then
                        some (Char.ofNat four, rest)
                      else none

/-- What stands for a byte that belongs to no character: a letter, and the escape of half a
surrogate pair. Between quotes it names no text, and anywhere else it is out of place. -/
def damage : List Char :=
  ['x', '\\', 'u', 'd', '8', '0', '0']

/-- Reads bytes that are not well formed as a whole, marking the bytes that belong nowhere. -/
def mended : (fuel : Nat) → List UInt8 → List Char
  | 0, _ => []
  | _ + 1, [] => []
  | fuel + 1, b :: bs =>
      match firstChar? (b :: bs) with
      | some (c, rest) => c :: mended fuel rest
      | none => damage ++ mended fuel bs

/-- The characters of a list of bytes. -/
def ofBytes (bytes : List UInt8) : List Char :=
  match String.fromUTF8? ⟨bytes.toArray⟩ with
  | some s => s.toList
  | none => mended bytes.length bytes

end KeysetPaging.Text
