import KeysetPaging.Json.Number

/-! # Reading JSON text

Reading gives a document. A text that cannot be kept, because it holds half a surrogate pair, and
a number that cannot be kept are unreadable parts of it and no reason to refuse the whole.
-/

namespace KeysetPaging.Json

/-- Drops the blanks in front: spaces, tabs and line ends. -/
def skipBlanks (cs : List Char) : List Char :=
  cs.dropWhile fun c => c = ' ' || c = '\n' || c = '\t' || c = '\r'

/-- The value of a hexadecimal digit. -/
def hexValue? (c : Char) : Option Nat :=
  let n := c.toNat
  if 48 ≤ n ∧ n ≤ 57 then some (n - 48)
  else if 97 ≤ n ∧ n ≤ 102 then some (n - 87)
  else if 65 ≤ n ∧ n ≤ 70 then some (n - 55)
  else none

/-- The value of four hexadecimal digits. -/
def hexUnit? (a b c d : Char) : Option Nat := do
  let a ← hexValue? a
  let b ← hexValue? b
  let c ← hexValue? c
  let d ← hexValue? d
  some (((a * 16 + b) * 16 + c) * 16 + d)

/-- The character that a backslash and a letter stand for. -/
def shortEscape? (c : Char) : Option Char :=
  if c = '"' || c = '\\' || c = '/' then some c
  else if c = 'b' then some (Char.ofNat 8)
  else if c = 'f' then some (Char.ofNat 12)
  else if c = 'n' then some '\n'
  else if c = 'r' then some '\r'
  else if c = 't' then some '\t'
  else none

/-- Reads a text up to its closing quote, as the numbers that its characters and escapes name. -/
def readUnits : List Char → Option (List Nat × List Char)
  | [] => none
  | '"' :: rest => some ([], rest)
  | '\\' :: 'u' :: a :: b :: c :: d :: rest => do
      let n ← hexUnit? a b c d
      let (units, rest) ← readUnits rest
      some (n :: units, rest)
  | '\\' :: c :: rest => do
      let c ← shortEscape? c
      let (units, rest) ← readUnits rest
      some (c.toNat :: units, rest)
  | c :: rest =>
      if c.toNat < 0x20 || c = '\\' then none
      else (readUnits rest).map fun (units, rest) => (c.toNat :: units, rest)

/-- The characters that numbers name. Two halves of a surrogate pair name one character, and a
half on its own names none. -/
def unitsToChars? : List Nat → Option (List Char)
  | [] => some []
  | n :: rest =>
      if n < 0xD800 || 0xDFFF < n then (unitsToChars? rest).map (Char.ofNat n :: ·)
      else match rest with
        | [] => none
        | low :: rest =>
            if n < 0xDC00 && 0xDC00 ≤ low && low ≤ 0xDFFF then
              let whole := (n - 0xD800) * 1024 + (low - 0xDC00) + 0x10000
              (unitsToChars? rest).map (Char.ofNat whole :: ·)
            else none

/-- Reads a text up to its closing quote. The text is missing when it holds half a surrogate
pair. -/
def readText (cs : List Char) : Option (Option (List Char) × List Char) :=
  (readUnits cs).map fun (units, rest) => (unitsToChars? units, rest)

/-- The document of a text that was read. -/
def textDocument : Option (List Char) → Document
  | some cs => .scalar (.text (String.ofList cs)) none
  | none => .scalar .unreadable none

mutual

/-- Reads a value after any blanks. -/
def readValue : (fuel : Nat) → List Char → Option (Document × List Char)
  | 0, _ => none
  | fuel + 1, cs =>
      match skipBlanks cs with
      | '{' :: rest =>
          match skipBlanks rest with
          | '}' :: rest => some (.record [], rest)
          | rest => (readFields fuel rest).map fun (fields, rest) => (.record fields, rest)
      | '[' :: rest =>
          match skipBlanks rest with
          | ']' :: rest => some (.list [], rest)
          | rest => (readItems fuel rest).map fun (items, rest) => (.list items, rest)
      | '"' :: rest => (readText rest).map fun (s, rest) => (textDocument s, rest)
      | 't' :: 'r' :: 'u' :: 'e' :: rest => some (.scalar (.bool true) none, rest)
      | 'f' :: 'a' :: 'l' :: 's' :: 'e' :: rest => some (.scalar (.bool false) none, rest)
      | 'n' :: 'u' :: 'l' :: 'l' :: rest => some (.scalar .null none, rest)
      | rest => (readNumber rest).map fun (n, rest) => (.scalar n none, rest)

/-- Reads one or more items up to the closing bracket. -/
def readItems : (fuel : Nat) → List Char → Option (List Document × List Char)
  | 0, _ => none
  | fuel + 1, cs =>
      match readValue fuel cs with
      | none => none
      | some (item, rest) =>
          match skipBlanks rest with
          | ',' :: rest => (readItems fuel rest).map fun (items, rest) => (item :: items, rest)
          | ']' :: rest => some ([item], rest)
          | _ => none

/-- Reads one or more fields up to the closing brace. -/
def readFields : (fuel : Nat) → List Char → Option (List (Document × Document) × List Char)
  | 0, _ => none
  | fuel + 1, cs =>
      match skipBlanks cs with
      | '"' :: rest =>
          match readText rest with
          | none => none
          | some (name, rest) =>
              match skipBlanks rest with
              | ':' :: rest =>
                  match readValue fuel rest with
                  | none => none
                  | some (value, rest) =>
                      let field := (textDocument name, value)
                      match skipBlanks rest with
                      | ',' :: rest =>
                          (readFields fuel rest).map fun (fields, rest) => (field :: fields, rest)
                      | '}' :: rest => some ([field], rest)
                      | _ => none
              | _ => none
      | _ => none

end

/-- Reads characters that hold one value and blanks around it. -/
def readDocument (cs : List Char) : Option Document :=
  match readValue (2 * cs.length + 2) cs with
  | some (d, rest) => if (skipBlanks rest).isEmpty then some d else none
  | none => none

/-- Reads a text that holds one value, nested no deeper than `Document.maxLevels`. -/
def read? (s : String) : Option Json :=
  (readDocument s.toList).bind (Document.toJson? Document.maxLevels)

end KeysetPaging.Json
