import KeysetPaging.Json.Reader
import KeysetPaging.Yaml.Glyph

/-! # Words and quoted texts

A text may run over several lines. The gap between two of its words is folded: blanks on one line
stay, one line end becomes a space, and of several line ends the first is dropped.
-/

namespace KeysetPaging.Yaml

/-- The blanks and line ends between two words. -/
structure Gap where
  /-- The blanks, for as long as there is no line end. -/
  blanks : List Char := []
  broken : Bool := false
  /-- The first line end, unless it is escaped. -/
  first : List Char := []
  /-- The line ends after it. -/
  more : List Char := []

namespace Gap

/-- The gap after an escaped line end. -/
def escaped : Gap :=
  { broken := true }

/-- The gap with one more character. Blanks after a line end do not count. -/
def add (gap : Gap) (c : Char) : Gap :=
  if isBreak c then
    if gap.broken then { gap with more := gap.more ++ [c] }
    else { broken := true, first := [c] }
  else if gap.broken then gap
  else { gap with blanks := gap.blanks ++ [c] }

/-- There is nothing in the gap. -/
def isEmpty (gap : Gap) : Bool :=
  !gap.broken && gap.blanks.isEmpty

/-- What a gap is folded to. -/
def text (gap : Gap) : List Char :=
  if !gap.broken then gap.blanks
  else if gap.first = ['\n'] then (if gap.more.isEmpty then [' '] else gap.more)
  else gap.first ++ gap.more

end Gap

/-! ## Plain words -/

/-- The character ends a word in a flow collection. -/
def isFlowMark (c : Char) : Bool :=
  c == ',' || c == '[' || c == ']' || c == '{' || c == '}'

/-- A colon must not stand in front of this in a flow collection. -/
def isColonTrap : List Glyph → Bool
  | [] => false
  | g :: _ => isFlowMark g.char || g.char == '?'

/-- The words of a plain text: the text, whether it ends with a line end, and what follows. In a
block, `edge` is the first column in which a line may go on. -/
def readPlain (flow : Bool) (edge : Nat) (gap : Gap) :
    List Glyph → Option (List Char × Bool × List Glyph)
  | [] => some ([], gap.broken, [])
  | g :: rest =>
      if g.isGap then
        if gap.broken && g.char == '\t' && g.column < edge then none
        else readPlain flow edge (gap.add g.char) rest
      else if !gap.isEmpty && (g.char == '#' || (!flow && g.column < edge)
          || Glyph.atDocumentMark (g :: rest)) then
        some ([], gap.broken, g :: rest)
      else if flow && g.char == ':' && isColonTrap rest then none
      else if (g.char == ':' && Glyph.gapNext rest) || (flow && isFlowMark g.char) then
        some ([], gap.broken, g :: rest)
      else
        (readPlain flow edge {} rest).map fun (cs, broken, rest) =>
          (gap.text ++ g.char :: cs, broken, rest)

/-! ## Quoted texts -/

/-- Reads a text up to its closing single quote. Two of them stand for one. -/
def readSingle (gap : Gap) : List Glyph → Option (List Char × List Glyph)
  | [] => none
  | g :: rest =>
      if g.isGap then readSingle (gap.add g.char) rest
      else if Glyph.atDocumentMark (g :: rest) then none
      else if g.char == '\'' then
        match rest with
        | [] => some (gap.text, [])
        | next :: rest =>
            if next.char == '\'' then
              (readSingle {} rest).map fun (cs, rest) => (gap.text ++ '\'' :: cs, rest)
            else some (gap.text, next :: rest)
      else (readSingle {} rest).map fun (cs, rest) => (gap.text ++ g.char :: cs, rest)

/-- The character that a backslash and a character stand for. -/
def shortEscape? (c : Char) : Option Char :=
  if c = '0' then some (Char.ofNat 0)
  else if c = 'a' then some (Char.ofNat 7)
  else if c = 'b' then some (Char.ofNat 8)
  else if c = 't' || c = '\t' then some '\t'
  else if c = 'n' then some '\n'
  else if c = 'v' then some (Char.ofNat 11)
  else if c = 'f' then some (Char.ofNat 12)
  else if c = 'r' then some '\r'
  else if c = 'e' then some (Char.ofNat 27)
  else if c = ' ' || c = '"' || c = '/' || c = '\\' || c = '\'' then some c
  else if c = 'N' then some (Char.ofNat 0x85)
  else if c = '_' then some (Char.ofNat 0xA0)
  else if c = 'L' then some (Char.ofNat 0x2028)
  else if c = 'P' then some (Char.ofNat 0x2029)
  else none

/-- The number of hexadecimal digits after a backslash and a letter. -/
def escapeWidth? (c : Char) : Option Nat :=
  if c = 'x' then some 2 else if c = 'u' then some 4 else if c = 'U' then some 8 else none

/-- The character that hexadecimal digits name. -/
def hexChar? (ds : List Char) : Option Char := do
  let n ← ds.foldlM (fun n c => (Json.hexValue? c).map fun d => 16 * n + d) 0
  if (0xD800 ≤ n && n ≤ 0xDFFF) || 0x10FFFF < n then none else some (Char.ofNat n)

/-- The character that the glyphs after a backslash stand for, and how many of them do. -/
def escape? : List Glyph → Option (Char × Nat)
  | [] => none
  | g :: rest =>
      match escapeWidth? g.char with
      | none => (shortEscape? g.char).map fun c => (c, 1)
      | some width =>
          if rest.length < width then none
          else (hexChar? ((rest.take width).map Glyph.char)).map fun c => (c, width + 1)

/-- Reads a text up to its closing double quote. -/
def readDouble (gap : Gap) (gs : List Glyph) : Option (List Char × List Glyph) :=
  match gs with
  | [] => none
  | g :: rest =>
      if g.isGap then readDouble (gap.add g.char) rest
      else if Glyph.atDocumentMark (g :: rest) then none
      else if g.char == '"' then some (gap.text, rest)
      else if g.char == '\\' then
        match rest with
        | [] => none
        | next :: after =>
            if isBreak next.char then
              (readDouble .escaped after).map fun (cs, rest) => (gap.text ++ cs, rest)
            else
              match escape? (next :: after) with
              | none => none
              | some (c, width) =>
                  (readDouble {} ((next :: after).drop width)).map fun (cs, rest) =>
                    (gap.text ++ c :: cs, rest)
      else (readDouble {} rest).map fun (cs, rest) => (gap.text ++ g.char :: cs, rest)
termination_by gs.length
decreasing_by
  all_goals simp only [List.length_cons, List.length_drop]
  all_goals omega

end KeysetPaging.Yaml
