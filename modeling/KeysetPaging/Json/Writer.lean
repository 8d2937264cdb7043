import KeysetPaging.Decimal.Shortest
import KeysetPaging.Json.Basic
import KeysetPaging.Text.Quoted

/-! # Writing JSON text

The compact form has no blanks. The pretty form puts every item and every field on a line of its
own, two spaces further in than its brackets.
-/

namespace KeysetPaging.Json

/-- How one character stands in a text: the quote, the backslash and the controls are escaped. -/
def escaped (c : Char) : List Char :=
  if c = '"' then ['\\', '"']
  else if c = '\\' then ['\\', '\\']
  else if c = '\n' then ['\\', 'n']
  else if c = '\r' then ['\\', 'r']
  else if c = '\t' then ['\\', 't']
  else if c = Char.ofNat 8 then ['\\', 'b']
  else if c = Char.ofNat 12 then ['\\', 'f']
  else if c.toNat < 0x20 then
    ['\\', 'u', '0', '0', Text.hexDigit (c.toNat / 16), Text.hexDigit (c.toNat % 16)]
  else [c]

/-- A text between its quotes. -/
def textChars (s : String) : List Char :=
  '"' :: s.toList.flatMap escaped ++ ['"']

mutual

/-- The compact form of a value. -/
def chars : Json → List Char
  | .null => ['n', 'u', 'l', 'l']
  | .bool true => ['t', 'r', 'u', 'e']
  | .bool false => ['f', 'a', 'l', 's', 'e']
  | .int i => Decimal.ofInt i
  | .float x => Decimal.ofFloat x
  | .str s => textChars s
  | .arr [] => ['[', ']']
  | .arr (v :: rest) => '[' :: v.chars ++ itemChars rest ++ [']']
  | .obj [] => ['{', '}']
  | .obj ((k, v) :: rest) => '{' :: textChars k ++ ':' :: v.chars ++ fieldChars rest ++ ['}']

/-- The compact form of the items after the first. -/
def itemChars : List Json → List Char
  | [] => []
  | v :: rest => ',' :: v.chars ++ itemChars rest

/-- The compact form of the fields after the first. -/
def fieldChars : List (String × Json) → List Char
  | [] => []
  | (k, v) :: rest => ',' :: textChars k ++ ':' :: v.chars ++ fieldChars rest

end

/-- The compact text of a value. -/
def compact (v : Json) : String :=
  String.ofList v.chars

/-- The start of a line that is `depth` brackets in. -/
def newLine (depth : Nat) : List Char :=
  '\n' :: List.replicate (2 * depth) ' '

mutual

/-- The pretty form of a value that stands `depth` brackets in. -/
def prettyChars (depth : Nat) : Json → List Char
  | .arr (v :: rest) =>
      '[' :: newLine (depth + 1) ++ prettyChars (depth + 1) v ++ prettyItems (depth + 1) rest ++
        newLine depth ++ [']']
  | .obj ((k, v) :: rest) =>
      '{' :: newLine (depth + 1) ++ textChars k ++ ':' :: ' ' :: prettyChars (depth + 1) v ++
        prettyFields (depth + 1) rest ++ newLine depth ++ ['}']
  | v => v.chars

/-- The pretty form of the items after the first. -/
def prettyItems (depth : Nat) : List Json → List Char
  | [] => []
  | v :: rest => ',' :: newLine depth ++ prettyChars depth v ++ prettyItems depth rest

/-- The pretty form of the fields after the first. -/
def prettyFields (depth : Nat) : List (String × Json) → List Char
  | [] => []
  | (k, v) :: rest =>
      ',' :: newLine depth ++ textChars k ++ ':' :: ' ' :: prettyChars depth v ++
        prettyFields depth rest

end

/-- The pretty text of a value. -/
def pretty (v : Json) : String :=
  String.ofList (v.prettyChars 0)

end KeysetPaging.Json
