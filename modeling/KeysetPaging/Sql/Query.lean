import KeysetPaging.Sql.Keyset
import KeysetPaging.Text.Blank

/-! # The query of a page

The rows of a table or of a query are taken from the key on, in the order of the sort fields, and
no more than a limit. Each row comes back as one JSON object.
-/

namespace KeysetPaging.Sql

/-- What rows are taken from. -/
inductive Base where
  /-- A table, whose name may have a schema in front. -/
  | table (name : String)
  | query (text : String)
  deriving DecidableEq, Repr

/-- The query of all rows. Blanks around a given query and semicolons at its end are dropped. -/
def Base.text : Base → List Char
  | .table name => "SELECT * FROM ".toList ++ tableName name
  | .query text =>
      ((Text.trim text).toList.reverse.dropWhile (· = ';')).reverse

/-- The largest limit of a query, which is the largest signed number of 64 bits. -/
def maxLimit : Nat := 9223372036854775807

/-- The query of one page. -/
structure Query where
  base : Base
  fields : List SortField
  /-- The key that the page starts after. -/
  after : Option (List Bound)
  limit : Nat

namespace Query

/-- The place of a field in the order of the rows. -/
def orderText (field : SortField) : List Char :=
  Condition.columnText field.name ++
    (match field.direction with
      | .ascending => " ASC NULLS FIRST"
      | .descending => " DESC NULLS LAST").toList

/-- The condition on the rows, if there is a key. -/
def whereText (query : Query) : List Char :=
  match query.after with
  | none => []
  | some bounds => " WHERE ".toList ++ casesText (cases [] bounds)

/-- The text of the query, with a question mark for each value. -/
def text (query : Query) : String :=
  String.ofList ("SELECT CAST(to_json(q) AS VARCHAR) FROM (".toList ++ query.base.text ++
    ") AS q".toList ++ query.whereText ++ " ORDER BY ".toList ++
    ", ".toList.intercalate (query.fields.map orderText) ++ " LIMIT ".toList ++
    (toString query.limit).toList)

/-- The values of the query, in the order of their question marks. -/
def values (query : Query) : List Value :=
  match query.after with
  | none => []
  | some bounds => (cases [] bounds).flatten.flatMap Condition.values

end Query

end KeysetPaging.Sql
