/-! # Blank characters and trimming

A character is blank when it has the Unicode property `White_Space`. There are twenty-five of
them, and every trimming in the library goes by this one class.
-/

namespace KeysetPaging.Text

/-- The characters with the property `White_Space`. -/
def isBlank (c : Char) : Bool :=
  let n := c.toNat
  (9 ≤ n && n ≤ 13) || n == 0x20 || n == 0x85 || n == 0xA0 || n == 0x1680 ||
    (0x2000 ≤ n && n ≤ 0x200A) || n == 0x2028 || n == 0x2029 || n == 0x202F ||
    n == 0x205F || n == 0x3000

/-- The characters that are left once the blank ones in front are dropped. -/
def trimStart (cs : List Char) : List Char :=
  cs.dropWhile isBlank

/-- The characters that are left once the blank ones at the end are dropped. -/
def trimEnd (cs : List Char) : List Char :=
  (cs.reverse.dropWhile isBlank).reverse

/-- A text without the blank characters at its two ends. -/
def trim (s : String) : String :=
  String.ofList (trimEnd (trimStart s.toList))

/-- What follows `lead` in `cs`, when `cs` starts with it. -/
def dropLead? (lead cs : List Char) : Option (List Char) :=
  match lead, cs with
  | [], rest => some rest
  | _ :: _, [] => none
  | a :: lead, c :: cs => if a = c then dropLead? lead cs else none

end KeysetPaging.Text
