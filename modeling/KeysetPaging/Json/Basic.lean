import KeysetPaging.Text.Parts

/-! # JSON values

A value keeps whole numbers apart from fractions, so that `1` and `1.0` are two values. The
fields of an object are a list; `Json.ofFields` and `Json.sorted` put them in the order of their
names, each name once.
-/

namespace KeysetPaging

/-- A JSON value. -/
inductive Json where
  | null
  | bool (b : Bool)
  /-- A whole number from `-2^63` to `2^64 - 1`. -/
  | int (i : Int)
  /-- A number written with a fraction or an exponent, or too large for a whole number. -/
  | float (x : Float)
  | str (s : String)
  | arr (items : List Json)
  | obj (fields : List (String × Json))
  deriving Inhabited

namespace Json

mutual

/-- Two values are equal when they have the same shape and equal parts. Floats are compared as
numbers, so the two zeros are equal. -/
def beq : Json → Json → Bool
  | .null, .null => true
  | .bool a, .bool b => a == b
  | .int a, .int b => decide (a = b)
  | .float a, .float b => a == b
  | .str a, .str b => decide (a = b)
  | .arr as, .arr bs => beqItems as bs
  | .obj as, .obj bs => beqFields as bs
  | _, _ => false

/-- Two lists of values are equal item by item. -/
def beqItems : List Json → List Json → Bool
  | [], [] => true
  | a :: as, b :: bs => a.beq b && beqItems as bs
  | _, _ => false

/-- Two lists of fields are equal field by field. -/
def beqFields : List (String × Json) → List (String × Json) → Bool
  | [], [] => true
  | (k, a) :: as, (l, b) :: bs => decide (k = l) && a.beq b && beqFields as bs
  | _, _ => false

end

instance : BEq Json := ⟨beq⟩

/-- Puts a field into a list of fields in the order of their names. A field of the same name is
replaced. -/
def insertField (name : String) (value : Json) : List (String × Json) → List (String × Json)
  | [] => [(name, value)]
  | (k, v) :: rest =>
      if name = k then (name, value) :: rest
      else if name < k then (name, value) :: (k, v) :: rest
      else (k, v) :: insertField name value rest

/-- The fields in the order of their names. Of several fields with one name the last is kept. -/
def sortFields (fields : List (String × Json)) : List (String × Json) :=
  fields.foldl (fun sorted field => insertField field.1 field.2 sorted) []

/-- The object with the given fields. -/
def ofFields (fields : List (String × Json)) : Json :=
  .obj (sortFields fields)

mutual

/-- The value with the fields of every object in the order of their names. -/
def sorted : Json → Json
  | .arr items => .arr (sortedItems items)
  | .obj fields => ofFields (sortedValues fields)
  | v => v

/-- The items with the fields of every object in the order of their names. -/
def sortedItems : List Json → List Json
  | [] => []
  | v :: rest => v.sorted :: sortedItems rest

/-- The fields with the fields of every object below them in the order of their names. -/
def sortedValues : List (String × Json) → List (String × Json)
  | [] => []
  | (k, v) :: rest => (k, v.sorted) :: sortedValues rest

end

/-- The value is null. -/
def isNull : Json → Bool
  | .null => true
  | _ => false

/-- The smallest signed number of 64 bits. -/
def minInt : Int := -9223372036854775808

/-- The largest signed number of 64 bits. -/
def maxInt : Int := 9223372036854775807

/-- A whole number that fits a signed number of 64 bits. -/
def int64? : Json → Option Int64
  | .int i => if minInt ≤ i ∧ i ≤ maxInt then some (Int64.ofInt i) else none
  | _ => none

/-- The field of an object with the given name. -/
def field? (name : String) : Json → Option Json
  | .obj fields => fields.lookup name
  | _ => none

/-- The text of a value, when it is a text. -/
def text? : Json → Option String
  | .str s => some s
  | _ => none

/-- The truth value, when it is one. -/
def bool? : Json → Option Bool
  | .bool b => some b
  | _ => none

/-- A text or null. -/
def ofText? : Option String → Json
  | some s => .str s
  | none => .null

/-- Follows the names of a path from object to object. -/
def follow : Json → List String → Option Json
  | v, [] => some v
  | v, name :: rest => (v.field? name).bind fun inner => follow inner rest

/-- The names of a dotted path. A `$.` in front stands for the record itself. -/
def pathNames (path : String) : List String :=
  let parts := match path.toList with
    | '$' :: '.' :: rest => Text.cutAt '.' rest
    | cs => Text.cutAt '.' cs
  parts.map String.ofList

/-- The value of a record at a dotted path. -/
def atPath? (record : Json) (path : String) : Option Json :=
  record.follow (pathNames path)

end Json

end KeysetPaging
