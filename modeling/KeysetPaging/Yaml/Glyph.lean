/-! # Glyphs

Indentation gives a text its structure, so every character of it is kept together with the place
where it stands. Line ends are brought to one form first.
-/

namespace KeysetPaging.Yaml

/-- A character and where it stands. Lines and columns are counted from zero. -/
structure Glyph where
  char : Char
  line : Nat
  column : Nat
  /-- The number of characters before it. -/
  index : Nat

/-- The character may stand in a text. -/
def isPrintable (c : Char) : Bool :=
  let n := c.toNat
  n == 0x09 || n == 0x0A || n == 0x0D || (0x20 ≤ n && n ≤ 0x7E) || n == 0x85 ||
    (0xA0 ≤ n && n ≤ 0xFFFD) || 0x10000 ≤ n

/-- The character ends a line. -/
def isBreak (c : Char) : Bool :=
  c == '\n' || c.toNat == 0x2028 || c.toNat == 0x2029

/-- The character separates words on one line. -/
def isSpace (c : Char) : Bool :=
  c == ' ' || c == '\t'

/-- The character can be part of a name. -/
def isNameChar (c : Char) : Bool :=
  ('a' ≤ c && c ≤ 'z') || ('A' ≤ c && c ≤ 'Z') || ('0' ≤ c && c ≤ '9') || c == '_' || c == '-'

/-- The mark that a text may start with to tell the order of its bytes. -/
def isByteOrderMark (c : Char) : Bool :=
  c.toNat == 0xFEFF

namespace Glyph

/-- The character is a blank or ends a line. -/
def isGap (g : Glyph) : Bool :=
  isSpace g.char || isBreak g.char

/-- Gives every character its place, from the given one on. The two characters of a line end are
one glyph, and so is every line end of one character; the line and paragraph separators are kept
as they are. -/
def placed (line column index : Nat) : List Char → List Glyph
  | [] => []
  | '\r' :: '\n' :: rest => ⟨'\n', line, column, index⟩ :: placed (line + 1) 0 (index + 2) rest
  | c :: rest =>
      if c = '\r' || c.toNat = 0x85 then
        ⟨'\n', line, column, index⟩ :: placed (line + 1) 0 (index + 1) rest
      else if isBreak c then ⟨c, line, column, index⟩ :: placed (line + 1) 0 (index + 1) rest
      else ⟨c, line, column, index⟩ :: placed line (column + 1) (index + 1) rest

/-- The glyphs of a text, unless a character of it is not allowed. A byte order mark in front is
dropped. -/
def ofText? (text : String) : Option (List Glyph) :=
  let cs := match text.toList with
    | c :: rest => if isByteOrderMark c then rest else c :: rest
    | [] => []
  if cs.all isPrintable then some (placed 0 0 0 cs) else none

/-- What follows is a gap or the end. -/
def gapNext : List Glyph → Bool
  | [] => true
  | g :: _ => g.isGap

/-- What follows starts with the given character. -/
def startsWith (c : Char) : List Glyph → Bool
  | [] => false
  | g :: _ => g.char == c

/-- What follows is a line of its own that starts with three of the given character. -/
def atMark (c : Char) : List Glyph → Bool
  | a :: b :: d :: rest =>
      a.column == 0 && a.char == c && b.char == c && d.char == c && gapNext rest
  | _ => false

/-- A document starts or ends here. -/
def atDocumentMark (gs : List Glyph) : Bool :=
  atMark '-' gs || atMark '.' gs

/-- Splits off the characters of a name. -/
def spanName (gs : List Glyph) : List Char × List Glyph :=
  ((gs.takeWhile fun g => isNameChar g.char).map Glyph.char,
    gs.dropWhile fun g => isNameChar g.char)

/-- Drops the blanks in front. -/
def dropSpaces (gs : List Glyph) : List Glyph :=
  gs.dropWhile fun g => isSpace g.char

/-- Drops what is left of a line when it is blank but for a comment, and the end of the line. -/
def endLine? (gs : List Glyph) : Option (List Glyph) :=
  let rest := dropSpaces gs
  let rest := if startsWith '#' rest then rest.dropWhile fun g => !isBreak g.char else rest
  match rest with
  | [] => some []
  | g :: rest => if isBreak g.char then some rest else none

end Glyph

end KeysetPaging.Yaml
