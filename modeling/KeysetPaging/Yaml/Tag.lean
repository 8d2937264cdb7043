import KeysetPaging.Decimal.Natural
import KeysetPaging.Json.Reader
import KeysetPaging.Text.Utf8
import KeysetPaging.Yaml.Glyph

/-! # Names, tags and directives

A node can be given a name, so that it can be repeated, and a tag, which says what it means. A tag
is written with a handle, and a directive can say what a handle stands for.
-/

namespace KeysetPaging.Yaml

/-- The name after an ampersand or an asterisk. It ends at a gap or at one of a few marks. -/
def readName (gs : List Glyph) : Option (String × List Glyph) :=
  let (name, rest) := Glyph.spanName gs
  let ended := match rest with
    | [] => true
    | g :: _ => g.isGap || "?:,]\x7d%@`".toList.contains g.char
  if name.isEmpty || !ended then none else some (String.ofList name, rest)

/-- The character can be part of a tag. Some only can where the tag cannot be part of a
collection. -/
def isTagChar (anywhere : Bool) (c : Char) : Bool :=
  isNameChar c || ";/?:@&=+$.%!~*'()".toList.contains c || (anywhere && ",[]".toList.contains c)

/-- The bytes that a run of characters names, each by a percent sign and two digits, and what
follows. -/
def readPercents : List Char → Option (List UInt8 × List Char)
  | '%' :: a :: b :: rest => do
      let a ← Json.hexValue? a
      let b ← Json.hexValue? b
      let (bytes, rest) ← readPercents rest
      some (UInt8.ofNat (16 * a + b) :: bytes, rest)
  | '%' :: _ => none
  | rest => some ([], rest)

/-- The characters of bytes that are well formed throughout. -/
def charsOfBytes? (bytes : List UInt8) : Option (List Char) :=
  (String.fromUTF8? ⟨bytes.toArray⟩).map String.toList

/-- The text of a tag, whose bytes may be written in hexadecimal. -/
def tagText? : (fuel : Nat) → List Char → Option (List Char)
  | 0, _ => none
  | _ + 1, [] => some []
  | fuel + 1, '%' :: rest => do
      let (bytes, rest) ← readPercents ('%' :: rest)
      let cs ← charsOfBytes? bytes
      let text ← tagText? fuel rest
      some (cs ++ text)
  | fuel + 1, c :: rest => (tagText? fuel rest).map (c :: ·)

/-- Reads the text of a tag after what has been read of it. It must not be empty as a whole, and a
lone exclamation mark in front counts as no part of the text. -/
def readTagText (anywhere : Bool) (before : List Char) (gs : List Glyph) :
    Option (List Char × List Glyph) := do
  let cs := (gs.takeWhile fun g => isTagChar anywhere g.char).map Glyph.char
  let text ← tagText? (cs.length + 1) cs
  if before.isEmpty && cs.isEmpty then none
  else some (before.drop 1 ++ text, gs.dropWhile fun g => isTagChar anywhere g.char)

/-- Reads an exclamation mark and the name up to a second one, if there is one. -/
def readHandle (gs : List Glyph) : Option (List Char × List Glyph) :=
  if !Glyph.startsWith '!' gs then none
  else
    let (name, rest) := Glyph.spanName (gs.drop 1)
    if Glyph.startsWith '!' rest then some ('!' :: name ++ ['!'], rest.drop 1)
    else some ('!' :: name, rest)

/-- A handle is closed by a second exclamation mark. -/
def isClosedHandle (handle : List Char) : Bool :=
  2 ≤ handle.length && handle.getLast? = some '!'

/-- A tag: its handle and its text. A tag in angle brackets has no handle, and neither has the
exclamation mark alone. -/
def readTag (flow : Bool) (gs : List Glyph) : Option ((String × String) × List Glyph) := do
  let (handle, text, rest) ←
    if Glyph.startsWith '<' (gs.drop 1) then do
      let (text, rest) ← readTagText true [] (gs.drop 2)
      if Glyph.startsWith '>' rest then some ([], text, rest.drop 1) else none
    else do
      let (handle, rest) ← readHandle gs
      if isClosedHandle handle then
        let (text, rest) ← readTagText false [] rest
        some (handle, text, rest)
      else
        let (text, rest) ← readTagText false handle rest
        if text.isEmpty then some ([], ['!'], rest) else some (['!'], text, rest)
  if Glyph.gapNext rest || (flow && Glyph.startsWith ',' rest) then
    some ((String.ofList handle, String.ofList text), rest)
  else none

/-- What a line that starts with a percent sign says. -/
inductive Directive where
  | version (major minor : Nat)
  /-- A handle stands for the start of a tag. -/
  | handle (name replacement : String)

/-- Reads a part of a version, of at most nine digits. -/
def readVersionPart (gs : List Glyph) : Option (Nat × List Glyph) :=
  let ds := (gs.takeWhile fun g => g.char.isDigit).map Glyph.char
  if ds.isEmpty || 9 < ds.length then none
  else some (Decimal.ofDigits ds, gs.dropWhile fun g => g.char.isDigit)

/-- Reads a directive after its percent sign, and the rest of its line. -/
def readDirective (gs : List Glyph) : Option (Directive × List Glyph) := do
  let (name, rest) := Glyph.spanName gs
  let (directive, rest) ←
    if name = "YAML".toList && Glyph.gapNext rest then do
      let (major, rest) ← readVersionPart (Glyph.dropSpaces rest)
      let (minor, rest) ← if Glyph.startsWith '.' rest then readVersionPart (rest.drop 1) else none
      some (Directive.version major minor, rest)
    else if name = "TAG".toList && Glyph.gapNext rest then do
      let (handle, rest) ← readHandle (Glyph.dropSpaces rest)
      if !(isClosedHandle handle || handle = ['!']) then none
      else match rest with
        | [] => none
        | g :: _ =>
            if !isSpace g.char then none
            else
              let (text, rest) ← readTagText true [] (Glyph.dropSpaces rest)
              if Glyph.gapNext rest then
                some (.handle (String.ofList handle) (String.ofList text), rest)
              else none
    else none
  let rest ← Glyph.endLine? rest
  some (directive, rest)

end KeysetPaging.Yaml
