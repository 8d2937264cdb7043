import KeysetPaging.Bookmarker

/-! # Tests and changes of items

A rehearsal works on JSON records. A test looks at one field of a record, and a change makes
another value of it.
-/

namespace KeysetPaging.Rehearsal

/-- What the value of a field is compared with. -/
inductive Comparison where
  | equal (value : Json)
  | unequal (value : Json)
  | below (limit : Int)
  | above (limit : Int)
  /-- The remainder of a division, which is never negative. -/
  | remainder (divisor rest : Int)

/-- A test of an item. -/
inductive ItemTest where
  | always (answer : Bool)
  | field (path : String) (comparison : Comparison)

/-- The signed number of 64 bits of a field. -/
def intAt? (path : String) (item : Json) : Option Int :=
  ((item.atPath? path).bind Json.int64?).map Int64.toInt

/-- An item passes a test. A field that is missing equals nothing and has no number. -/
def ItemTest.passes (test : ItemTest) (item : Json) : Bool :=
  match test with
  | .always answer => answer
  | .field path comparison =>
      match comparison with
      | .equal value => (item.atPath? path).any (· == value)
      | .unequal value => !(item.atPath? path).any (· == value)
      | .below limit => (intAt? path item).any (· < limit)
      | .above limit => (intAt? path item).any (limit < ·)
      | .remainder divisor rest => (intAt? path item).any fun i => i.emod divisor = rest

/-- A change of an item. -/
inductive ItemChange where
  /-- Puts the item into an object. -/
  | wrap (name : String)
  /-- Takes a field, or null. -/
  | pick (path : String)
  /-- Puts the item after a value. -/
  | tag (value : Json)

/-- An item after a change. -/
def ItemChange.apply (change : ItemChange) (item : Json) : Json :=
  match change with
  | .wrap name => .ofFields [(name, item)]
  | .pick path => (item.atPath? path).getD .null
  | .tag value => .arr [value, item]

mutual

/-- The bookmark that any value can be: itself when it is a truth value, a signed number of 64 bits
or a text, the tuple of its items when it is a list, and else null. -/
def bookmarkOf : Json → Bookmark
  | .bool b => .bool b
  | .int i =>
      match (Json.int i).int64? with
      | some i => .int i
      | none => .null
  | .str s => .text s
  | .arr items => .tuple (bookmarksOf items)
  | _ => .null

/-- The bookmarks of a list of values. -/
def bookmarksOf : List Json → List Bookmark
  | [] => []
  | v :: rest => bookmarkOf v :: bookmarksOf rest

end

/-- The bookmark of the value at a path. A missing one counts as null. -/
def keyAt (path : String) (item : Json) : Bookmark :=
  bookmarkOf ((item.atPath? path).getD .null)

end KeysetPaging.Rehearsal
