import KeysetPaging.Sql.Identifier
import KeysetPaging.Sql.Value

/-! # The keyset condition

A page of a query starts strictly after a key. A row is after the key when it agrees with it in
some leading fields and is after it in the next one. Null comes first in an ascending field and
last in a descending one, so what is after null, and whether null is after a value, depends on
the direction.
-/

namespace KeysetPaging.Sql

/-- A sort field with the value that it is compared with. -/
structure Bound where
  field : SortField
  value : Value

/-- A condition on one column of a row. -/
inductive Condition where
  /-- The column has the value, or both are null. -/
  | same (column : String) (value : Value)
  | present (column : String)
  | never
  | above (column : String) (value : Value)
  | belowOrNull (column : String) (value : Value)

namespace Condition

/-- A column of the rows of the inner query. -/
def columnText (column : String) : List Char :=
  'q' :: '.' :: identifier column.toList

/-- The text of a condition, with a question mark for each value. -/
def text : Condition → List Char
  | .same column _ => columnText column ++ " IS NOT DISTINCT FROM ?".toList
  | .present column => columnText column ++ " IS NOT NULL".toList
  | .never => "FALSE".toList
  | .above column _ => columnText column ++ " > ?".toList
  | .belowOrNull column _ =>
      '(' :: columnText column ++ " < ? OR ".toList ++ columnText column ++ " IS NULL)".toList

/-- The values of a condition, in the order of their question marks. -/
def values : Condition → List Value
  | .same _ value | .above _ value | .belowOrNull _ value => [value]
  | .present _ | .never => []

end Condition

namespace Bound

/-- A row agrees with the key in this field. -/
def same (bound : Bound) : Condition :=
  .same bound.field.name bound.value

/-- A row is after the key in this field. -/
def after (bound : Bound) : Condition :=
  match bound.field.direction, bound.value with
  | .ascending, .null => .present bound.field.name
  | .descending, .null => .never
  | .ascending, value => .above bound.field.name value
  | .descending, value => .belowOrNull bound.field.name value

end Bound

/-- The cases in which a row is after a key: one for every field, in which the row agrees with the
key in the fields before it. -/
def cases (before : List Condition) : List Bound → List (List Condition)
  | [] => []
  | bound :: rest => (before ++ [bound.after]) :: cases (before ++ [bound.same]) rest

/-- Conditions that hold together. -/
def caseText (conditions : List Condition) : List Char :=
  '(' :: " AND ".toList.intercalate (conditions.map Condition.text) ++ [')']

/-- Cases of which one holds. -/
def casesText (cases : List (List Condition)) : List Char :=
  '(' :: " OR ".toList.intercalate (cases.map caseText) ++ [')']

/-- The key of a bookmark: its parts, each with its sort field. -/
def bind (fields : List SortField) (b : Bookmark) : Except Error (List Bound) :=
  let parts := match b with
    | .tuple parts => parts
    | b => [b]
  if parts.length = fields.length then
    (fields.zip parts).mapM fun (field, part) =>
      (Value.ofBookmark field part).map fun value => ⟨field, value⟩
  else .error (.config (.partsMismatch parts.length fields.length))

end KeysetPaging.Sql
