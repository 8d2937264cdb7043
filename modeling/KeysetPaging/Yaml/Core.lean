import KeysetPaging.Decimal.Nearest
import KeysetPaging.Document
import KeysetPaging.Json.Reader

/-! # What words mean

A plain word means null, a truth value or a number when it is written like one, and is a text
otherwise. A tag fixes what a text means, and one that is not written accordingly is unreadable.
-/

namespace KeysetPaging.Yaml

/-- The word means null. -/
def isNullWord (s : String) : Bool :=
  s == "null" || s == "Null" || s == "NULL" || s == "~"

/-- The truth value that a word means. -/
def truth? (s : String) : Option Bool :=
  if s = "true" ∨ s = "True" ∨ s = "TRUE" then some true
  else if s = "false" ∨ s = "False" ∨ s = "FALSE" then some false
  else none

/-- The value of digits to a base. -/
def digitsTo? (base : Nat) (ds : List Char) : Option Nat :=
  if ds.isEmpty then none
  else ds.foldlM (fun n c => do
    let d ← Json.hexValue? c
    if d < base then some (base * n + d) else none) 0

/-- The base that a letter after a zero names. -/
def base? (c : Char) : Option Nat :=
  if c = 'x' then some 16 else if c = 'o' then some 8 else if c = 'b' then some 2 else none

/-- A run of digits with a zero in front of others, which is no number. -/
def isPadded (cs : List Char) : Bool :=
  let ds := match cs with
    | '+' :: ds | '-' :: ds => ds
    | ds => ds
  match ds with
  | '0' :: d :: ds => (d :: ds).all Char.isDigit
  | _ => false

/-- The natural number that characters without a sign write, to the base that they name. -/
def natural? (cs : List Char) : Option Nat :=
  match cs with
  | '0' :: c :: ds =>
      match base? c with
      | some base => digitsTo? base ds
      | none => none
  | ds => digitsTo? 10 ds

/-- The whole number that characters write. -/
def whole? (cs : List Char) : Option Int :=
  if isPadded cs then none
  else match cs with
    | '-' :: ds => (natural? ds).map fun n => -(n : Int)
    | '+' :: ds => (natural? ds).map fun n => (n : Int)
    | ds => (natural? ds).map fun n => (n : Int)

/-- The number that digits with a point and an exponent write: the digits without the point, and
the power of ten. -/
def scaled? (cs : List Char) : Option (Nat × Int) := do
  let (whole, rest) := Json.spanDigits cs
  let (fraction, rest) := match rest with
    | '.' :: rest => Json.spanDigits rest
    | rest => ([], rest)
  if whole.isEmpty && fraction.isEmpty then none
  else
    let (exponent, rest) ← Json.exponentPart rest
    if !rest.isEmpty then none
    else
      let shift : Int := match exponent with
        | none => 0
        | some (true, ds) => -(Decimal.ofDigits ds : Int)
        | some (false, ds) => Decimal.ofDigits ds
      some (Decimal.ofDigits (whole ++ fraction), shift - fraction.length)

/-- The float that characters write. The float of a number that is too large is infinite and is
written in no other way than as such. -/
def float? (cs : List Char) : Option Float :=
  let positive := match cs with
    | '+' :: '+' :: _ | '+' :: '-' :: _ => none
    | '+' :: rest => some rest
    | rest => some rest
  let infinite (s : String) := s = ".inf" || s = ".Inf" || s = ".INF"
  match positive with
  | none => none
  | some positive =>
      if infinite (String.ofList positive) then some (1 / 0)
      else match positive with
        | '-' :: rest =>
            if infinite (String.ofList rest) then some (-1 / 0)
            else do
              let (n, e) ← scaled? rest
              (Decimal.nearest? n e).map fun x => -x
        | rest =>
            if cs = ".nan".toList || cs = ".NaN".toList || cs = ".NAN".toList then some (0 / 0)
            else do
              let (n, e) ← scaled? rest
              Decimal.nearest? n e

/-- The value of a float: null when it is not finite. -/
def floatValue (x : Float) : Scalar :=
  if x.isFinite then .float x else .null

/-- The value of a whole number. One of up to 128 bits that does not fit 64 is unreadable, and one
beyond that is none. -/
def wholeValue? (i : Int) : Option Scalar :=
  if Json.minInt ≤ i ∧ i ≤ (Decimal.maxCount : Int) then some (.int i)
  else if -(Decimal.twoTo 127 : Int) ≤ i ∧ i < Decimal.twoTo 128 then some .unreadable
  else none

/-- What a plain word means. -/
def meaning (s : String) : Scalar :=
  if s.isEmpty || isNullWord s then .null
  else match truth? s with
    | some b => .bool b
    | none =>
        match (whole? s.toList).bind wholeValue? with
        | some value => value
        | none =>
            if isPadded s.toList then .text s
            else match float? s.toList with
              | some x => floatValue x
              | none => .text s

/-- What a text with a tag means. A tag of the document's own names no value. -/
def taggedMeaning (tag : String) (s : String) : Scalar :=
  let core := "tag:yaml.org,2002:"
  if tag = core ++ "bool" then
    match truth? s with
    | some b => .bool b
    | none => .unreadable
  else if tag = core ++ "int" then ((whole? s.toList).bind wholeValue?).getD .unreadable
  else if tag = core ++ "float" then
    match float? s.toList with
    | some x => floatValue x
    | none => .unreadable
  else if tag = core ++ "null" then if isNullWord s then .null else .unreadable
  else if tag.toList.head? = some '!' then .unreadable
  else .text s

end KeysetPaging.Yaml
