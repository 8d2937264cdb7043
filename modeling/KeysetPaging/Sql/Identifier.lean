import KeysetPaging.Text.Parts

/-! # Names in a query

A name stands between double quotes, and a quote inside it is written twice, so that no name can
end early.
-/

namespace KeysetPaging.Sql

/-- The characters of a name, with every quote written twice. -/
def doubled : List Char → List Char
  | [] => []
  | c :: cs => if c = '"' then '"' :: '"' :: doubled cs else c :: doubled cs

/-- A name between double quotes. -/
def identifier (name : List Char) : List Char :=
  '"' :: doubled name ++ ['"']

/-- The name of a table: the parts between full stops are names of their own. -/
def tableName (table : String) : List Char :=
  ['.'].intercalate ((Text.cutAt '.' table.toList).map identifier)

end KeysetPaging.Sql
