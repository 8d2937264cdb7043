import KeysetPaging.Yaml.Glyph

/-! # Block texts

A block text is the lines that are indented below its header. Literal lines keep their ends; folded
lines are joined, unless they start with a blank. The header may fix the indentation, and says
what becomes of the line ends after the last line.
-/

namespace KeysetPaging.Yaml

/-- What becomes of the line ends after the last line. -/
inductive Tail where
  | drop
  | one
  | all
  deriving DecidableEq

/-- The sign for what becomes of the tail. -/
def Tail.ofSign? (c : Char) : Option Tail :=
  if c = '-' then some .drop else if c = '+' then some .all else none

/-- The digit that fixes the indentation. -/
def indentOfDigit? (c : Char) : Option Nat :=
  if '1' ≤ c && c ≤ '9' then some (c.toNat - 48) else none

/-- The header of a block text: what becomes of the tail, the indentation when it is fixed, and
the line after it. The sign and the digit may stand in either order. -/
def readHeader (gs : List Glyph) : Option (Tail × Option Nat × List Glyph) :=
  let sign (gs : List Glyph) : Option Tail × List Glyph := match gs with
    | [] => (none, [])
    | g :: rest => match Tail.ofSign? g.char with
      | some tail => (some tail, rest)
      | none => (none, g :: rest)
  let digit (gs : List Glyph) : Option Nat × List Glyph := match gs with
    | [] => (none, [])
    | g :: rest => match indentOfDigit? g.char with
      | some n => (some n, rest)
      | none => (none, g :: rest)
  let (before, gs) := sign gs
  let (indent, gs) := digit gs
  let (after, gs) := if before.isNone && indent.isSome then sign gs else (none, gs)
  (Glyph.endLine? gs).map fun rest => ((before.or after).getD .one, indent, rest)

/-- Skips the indentation of a line and empty lines before it: the line ends that were skipped,
the widest indentation, and the line. Without an indentation to keep to, all spaces are skipped. A
tab is no indentation. -/
def skipIndent (indent : Option Nat) (widest : Nat) :
    List Glyph → Option (List Char × Nat × List Glyph)
  | [] => some ([], widest, [])
  | g :: rest =>
      let inside := match indent with
        | none => true
        | some indent => g.column < indent
      if inside && g.char == ' ' then skipIndent indent (max widest (g.column + 1)) rest
      else if inside && g.char == '\t' then none
      else if isBreak g.char then
        (skipIndent indent widest rest).map fun (ends, widest, rest) =>
          (g.char :: ends, widest, rest)
      else some ([], widest, g :: rest)

/-- The end of a block text. -/
def Tail.text (tail : Tail) (lineEnd ends : List Char) : List Char :=
  match tail with
  | .drop => []
  | .one => lineEnd
  | .all => lineEnd ++ ends

/-- What stands between two lines. `spaced` says that one of them starts with a blank. -/
def lineJoint (folded spaced : Bool) (lineEnd ends : List Char) : List Char :=
  if folded && !spaced && lineEnd = ['\n'] then (if ends.isEmpty then [' '] else ends)
  else lineEnd ++ ends

/-- The lines of a block text from one line on. The line before it ended with `lineEnd`, then
came the `ends` of empty lines, and `spaced` says that it started with a blank. -/
def readLines (folded : Bool) (tail : Tail) (indent : Nat) :
    (fuel : Nat) → (spaced : Bool) → (lineEnd ends : List Char) → List Glyph →
    Option (List Char × List Glyph)
  | 0, _, _, _, _ => none
  | _ + 1, _, lineEnd, ends, [] => some (tail.text lineEnd ends, [])
  | fuel + 1, spaced, lineEnd, ends, g :: rest =>
      if g.column = indent then do
        let blank := isSpace g.char
        let line := (g :: rest).takeWhile fun g => !isBreak g.char
        let (next, after) := match (g :: rest).dropWhile fun g => !isBreak g.char with
          | [] => ([], [])
          | b :: after => ([b.char], after)
        let (skipped, _, after) ← skipIndent (some indent) 0 after
        let (text, after) ← readLines folded tail indent fuel blank next skipped after
        some (lineJoint folded (spaced || blank) lineEnd ends ++ line.map Glyph.char ++ text, after)
      else some (tail.text lineEnd ends, g :: rest)

/-- Reads a block text after its mark. `edge` is the first column inside the block around it. -/
def readBlock (folded : Bool) (edge : Nat) (gs : List Glyph) :
    Option (List Char × List Glyph) := do
  let (tail, fixed, rest) ← readHeader gs
  let indent? := fixed.map fun n => (edge - 1) + n
  let (ends, widest, rest) ← skipIndent indent? 0 rest
  let indent := indent?.getD (max 1 (max widest edge))
  readLines folded tail indent (rest.length + 1) false [] ends rest

end KeysetPaging.Yaml
