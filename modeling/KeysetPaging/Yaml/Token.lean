import KeysetPaging.Yaml.Block
import KeysetPaging.Yaml.Flow
import KeysetPaging.Yaml.Tag

/-! # Tokens

The tokens of a text make its indentation explicit: a block starts where a line goes further in
than the blocks around it, and ends where a later line does not. That a token is the key of a
field shows only at the colon after it. So a token that could start a key is kept as a candidate,
and the colon that comes in time on its line notes the key for the token in front of which it
belongs.
-/

namespace KeysetPaging.Yaml

/-- A token of a text. -/
inductive Token where
  | directive (directive : Directive)
  | documentStart
  | documentEnd
  | sequenceStart
  | mappingStart
  | blockEnd
  | flowSequenceStart
  | flowSequenceEnd
  | flowMappingStart
  | flowMappingEnd
  | blockEntry
  | flowEntry
  | key
  | value
  | alias (name : String)
  | anchor (name : String)
  | tag (handle text : String)
  /-- A text. A plain one is a word, whose meaning depends on how it is written. -/
  | text (plain : Bool) (text : String)

/-- A token that may turn out to start a key. -/
structure Candidate where
  /-- The number of the token. -/
  number : Nat
  /-- Where its block starts, something has to follow as the content of the block, which can only
  be the value of this key. -/
  required : Bool
  line : Nat
  column : Nat
  index : Nat

/-- The tokens so far, and what the layout of the text says about those to come. -/
structure Layout where
  /-- The tokens, the latest first. -/
  tokens : List Token := []
  count : Nat := 0
  /-- The numbers of the tokens in front of which a key starts, and whether a block does. -/
  keys : List (Nat × Bool) := []
  /-- The first column inside the innermost block, which is one more than its own column. -/
  edge : Nat := 0
  /-- The edges of the blocks around it, the innermost first. -/
  outer : List Nat := []
  /-- The candidate of the innermost collection. -/
  candidate : Option Candidate := none
  /-- The candidates outside of each flow collection, the innermost first. -/
  suspended : List (Option Candidate) := []
  /-- A key may start here. -/
  fresh : Bool := true

namespace Layout

/-- The text is inside a flow collection, where indentation means nothing. -/
def inFlow (l : Layout) : Bool :=
  !l.suspended.isEmpty

/-- Adds a token. -/
def emit (l : Layout) (t : Token) : Layout :=
  { l with tokens := t :: l.tokens, count := l.count + 1 }

/-- Ends every block whose edge is beyond the given one. -/
def endBlocks (limit : Nat) : (edge : Nat) → (outer : List Nat) → (tokens : List Token) →
    Nat × List Nat × List Token
  | edge, [], tokens =>
      if limit < edge then (0, [], .blockEnd :: tokens) else (edge, [], tokens)
  | edge, next :: outer, tokens =>
      if limit < edge then endBlocks limit next outer (.blockEnd :: tokens)
      else (edge, next :: outer, tokens)

/-- Ends the blocks that do not reach beyond the given edge. -/
def unindent (l : Layout) (limit : Nat) : Layout :=
  if l.inFlow then l
  else
    let (edge, outer, tokens) := endBlocks limit l.edge l.outer l.tokens
    { l with edge, outer, tokens, count := l.count + (tokens.length - l.tokens.length) }

/-- Starts a block at a column, unless the innermost block is already there. -/
def indent (l : Layout) (column : Nat) (start : Token) : Layout :=
  if l.inFlow || column < l.edge then l
  else { l with edge := column + 1, outer := l.edge :: l.outer }.emit start

/-- Gives up the candidate of the innermost collection. -/
def dropCandidate (l : Layout) : Option Layout :=
  match l.candidate with
  | some c => if c.required then none else some { l with candidate := none }
  | none => some l

/-- A candidate that is still in time: on its own line, and no more than 1024 characters back. -/
def inTime (g : Glyph) (candidate : Option Candidate) : Option (Option Candidate) :=
  match candidate with
  | some c =>
      if c.line < g.line || c.index + 1024 < g.index then
        if c.required then none else some none
      else some (some c)
  | none => some none

/-- Gives up the candidates that are out of time. -/
def dropLate (l : Layout) (g : Glyph) : Option Layout := do
  let candidate ← inTime g l.candidate
  let suspended ← l.suspended.mapM (inTime g)
  some { l with candidate, suspended }

/-- Makes the next token the candidate, where a key may start. -/
def offer (l : Layout) (g : Glyph) : Option Layout :=
  if l.fresh then do
    let required := !l.inFlow && l.edge == g.column + 1
    let l ← l.dropCandidate
    some { l with
      candidate := some
        { number := l.count, required, line := g.line, column := g.column, index := g.index } }
  else some l

/-- Adds a token that can start a key and is followed by none. -/
def offerToken (l : Layout) (g : Glyph) (t : Token) : Option Layout :=
  (l.offer g).map fun l => { l with fresh := false }.emit t

/-- The text goes into a flow collection. -/
def enter (l : Layout) (g : Glyph) (t : Token) : Option Layout :=
  (l.offer g).map fun l =>
    { l with suspended := l.candidate :: l.suspended, candidate := none, fresh := true }.emit t

/-- The text leaves a flow collection. -/
def leave (l : Layout) (t : Token) : Option Layout :=
  l.dropCandidate.map fun l =>
    let l := match l.suspended with
      | [] => l
      | candidate :: suspended => { l with candidate, suspended }
    { l with fresh := false }.emit t

/-- Adds a token that starts no key and ends no block. -/
def separate (l : Layout) (fresh : Bool) (t : Token) : Option Layout :=
  l.dropCandidate.map fun l => { l with fresh }.emit t

/-- Adds the mark in front of an entry of a block, or of a key. -/
def mark (l : Layout) (g : Glyph) (start t : Token) (fresh : Bool) : Option Layout :=
  if l.inFlow then l.separate fresh t
  else if l.fresh then (l.indent g.column start).separate fresh t
  else none

/-- Adds the colon after a key. -/
def colon (l : Layout) (g : Glyph) : Option Layout :=
  match l.candidate with
  | some c =>
      let starts := !l.inFlow && l.edge ≤ c.column
      let l := { l with candidate := none, fresh := false, keys := (c.number, starts) :: l.keys }
      let l := if starts then { l with edge := c.column + 1, outer := l.edge :: l.outer } else l
      some (l.emit .value)
  | none =>
      if l.inFlow then some ({ l with fresh := false }.emit .value)
      else if l.fresh then some ((l.indent g.column .mappingStart).emit .value)
      else none

/-- Adds a line that belongs to no block. -/
def outside (l : Layout) (t : Token) : Option Layout :=
  (l.unindent 0).separate false t

/-- Skips blanks, comments and line ends in front of the next token. In a block, a key may start
on a new line. Where a key may start, a tab is no blank. -/
def skipGap (inFlow : Bool) : (fresh comment : Bool) → List Glyph → Bool × List Glyph
  | fresh, _, [] => (fresh, [])
  | fresh, comment, g :: rest =>
      if isBreak g.char then skipGap inFlow (fresh || !inFlow) false rest
      else if comment then skipGap inFlow fresh true rest
      else if g.char == '#' then skipGap inFlow fresh true rest
      else if g.char == ' ' || (g.char == '\t' && (inFlow || !fresh)) then
        skipGap inFlow fresh false rest
      else if isByteOrderMark g.char && g.index == 0 then skipGap inFlow fresh false rest
      else (fresh, g :: rest)

/-- The character has a meaning of its own at the start of a token. -/
def isIndicator (c : Char) : Bool :=
  "-?:,[]\x7b\x7d#&*!|>'\"%@`".toList.contains c

/-- Adds a text that was read. -/
def addText (plain : Bool) (l : Layout) (read : List Char × List Glyph) : Layout × List Glyph :=
  (l.emit (.text plain (String.ofList read.1)), read.2)

/-- Adds a word that starts here. -/
def addWord (l : Layout) (g : Glyph) (rest : List Glyph) : Option (Layout × List Glyph) := do
  let l ← l.offer g
  let (text, broken, after) ← readPlain l.inFlow l.edge {} (g :: rest)
  some (addText true { l with fresh := broken } (text, after))

/-- Adds the token that starts with a glyph. -/
def step (l : Layout) (g : Glyph) (rest : List Glyph) : Option (Layout × List Glyph) :=
  let plain (l : Option Layout) := l.map fun l => (l, rest)
  if g.column == 0 && g.char == '%' then do
    let (directive, rest) ← readDirective rest
    (l.outside (.directive directive)).map fun l => (l, rest)
  else if Glyph.atMark '-' (g :: rest) then
    (l.outside .documentStart).map fun l => (l, rest.drop 2)
  else if Glyph.atMark '.' (g :: rest) then
    (l.outside .documentEnd).map fun l => (l, rest.drop 2)
  else
    let ending := l.inFlow || Glyph.gapNext rest
    match g.char with
    | '[' => plain (l.enter g .flowSequenceStart)
    | '{' => plain (l.enter g .flowMappingStart)
    | ']' => plain (l.leave .flowSequenceEnd)
    | '}' => plain (l.leave .flowMappingEnd)
    | ',' => plain (l.separate true .flowEntry)
    | '-' =>
        if Glyph.gapNext rest then plain (l.mark g .sequenceStart .blockEntry true)
        else l.addWord g rest
    | '?' =>
        if ending then plain (l.mark g .mappingStart .key (!l.inFlow)) else l.addWord g rest
    | ':' => if ending then plain (l.colon g) else l.addWord g rest
    | '*' => do
        let (name, rest) ← readName rest
        (l.offerToken g (.alias name)).map fun l => (l, rest)
    | '&' => do
        let (name, rest) ← readName rest
        (l.offerToken g (.anchor name)).map fun l => (l, rest)
    | '!' => do
        let (tag, rest) ← readTag l.inFlow (g :: rest)
        (l.offerToken g (.tag tag.1 tag.2)).map fun l => (l, rest)
    | '\'' => do
        let l ← l.offer g
        (readSingle {} rest).map (addText false { l with fresh := false })
    | '"' => do
        let l ← l.offer g
        (readDouble {} rest).map (addText false { l with fresh := false })
    | c =>
        if (c == '|' || c == '>') && !l.inFlow then do
          let l ← l.dropCandidate
          (readBlock (c == '>') l.edge rest).map (addText false { l with fresh := true })
        else if isIndicator c || c == '\t' then none
        else l.addWord g rest

/-- Adds the tokens of a text. -/
def run : (fuel : Nat) → Layout → List Glyph → Option Layout
  | 0, _, _ => none
  | fuel + 1, l, gs =>
      match skipGap l.inFlow l.fresh false gs with
      | (fresh, []) => ({ l with fresh }.unindent 0).dropCandidate
      | (fresh, g :: rest) => do
          let l ← { l with fresh }.dropLate g
          let (l, rest) ← (l.unindent (g.column + 1)).step g rest
          run fuel l rest

/-- The tokens, each key in front of the token that it starts with. -/
def withKeys (keys : List (Nat × Bool)) (number : Nat) : List Token → List Token
  | [] => []
  | t :: rest =>
      let before := match keys.lookup number with
        | none => []
        | some true => [.mappingStart, .key]
        | some false => [.key]
      before ++ t :: withKeys keys (number + 1) rest

end Layout

/-- The tokens of a text. -/
def Token.ofText? (text : String) : Option (List Token) := do
  let gs ← Glyph.ofText? text
  let l ← Layout.run (gs.length + 1) {} gs
  some (Layout.withKeys l.keys 0 l.tokens.reverse)

end KeysetPaging.Yaml
