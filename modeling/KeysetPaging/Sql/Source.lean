import KeysetPaging.Bookmarker
import KeysetPaging.Collection.Basic
import KeysetPaging.Json.Reader
import KeysetPaging.Outline
import KeysetPaging.Sql.Query

/-! # Rows of a database

A database is whatever opens connections, and a connection is whatever runs statements and
queries. A source of rows asks for one row more than the page has room for, and the overflow
tells whether the rows go on.
-/

namespace KeysetPaging.Sql

/-- What a query answers: the text of each row, or why there is none. -/
abbrev Rows := Except String (List (Except String String))

/-- An open connection to a database. -/
structure Connection (σ : Type) where
  /-- Runs statements that answer nothing. -/
  batch : String → Run σ (Except String Unit)
  /-- Runs a query with its values. -/
  select : String → List Value → Run σ Rows

/-- What opens connections. -/
structure Database (σ : Type) where
  connect : (name : String) → Run σ (Except String (Connection σ))

/-- The rows of a table or a query, sorted by columns. -/
structure RowSource where
  base : Base
  fields : List SortField

namespace RowSource

/-- The rows of a base, sorted by at least one column. -/
def make? (base : Base) (fields : List SortField) : Except Error RowSource :=
  if fields.isEmpty then .error (.config .sqlWithoutFields)
  else match fields.find? fun f => f.name = "" || f.name.toList.contains '.' with
    | some field => .error (.config (.sqlDottedField field.name))
    | none => .ok ⟨base, fields⟩

/-- The query of the rows after a place, cut to a limit. -/
def query? (source : RowSource) (place : Option Bookmark) (limit : Nat) : Except Error Query := do
  let after ← match place with
    | none => .ok none
    | some b => (bind source.fields b).map some
  .ok { base := source.base, fields := source.fields, after, limit := min limit maxLimit }

/-- The changes of rows that come in one after another, up to the first that cannot be read. -/
def readRows : List (Except String String) → Fetched Json
  | [] => {}
  | .error text :: _ => { failure := some (.database text) }
  | .ok row :: rest =>
      match Json.read? row with
      | none => { failure := some .jsonParse }
      | some item =>
          let fetched := readRows rest
          { fetched with edits := .push item :: fetched.edits }

/-- The rows as a source of items. -/
def source {σ : Type} (rows : RowSource) (connection : Connection σ) : Source σ Json where
  fetch page :=
    match rows.query? page.current (page.perPage + 1) with
    | .error e => pure { failure := some e }
    | .ok query => do
        let text := query.text
        let values := query.values
        Run.note (.keysetQuery text values.length)
        match ← connection.select text values with
        | .error text => return { failure := some (.database text) }
        | .ok answer => return readRows answer

/-- The rows as a collection, with the bookmarker of their sort fields. -/
def collection {σ : Type} (rows : RowSource) (connection : Connection σ) : Collection σ Json :=
  .leaf (.ofFields rows.fields) (rows.source connection)

/-- Opens a database for the rows of a base. -/
def connect {σ : Type} (database : Database σ) (name : String) (base : Base)
    (fields : List SortField) : Run σ (Except Error (RowSource × Connection σ)) := do
  match ← database.connect name with
  | .error text => return .error (.database text)
  | .ok connection => return (make? base fields).map fun rows => (rows, connection)

/-- Opens a database for the rows of a base, and runs the statements that prepare it. -/
def prepare {σ : Type} (database : Database σ) (name : String) (base : Base)
    (fields : List SortField) (setup : Option String) :
    Run σ (Except Error (RowSource × Connection σ)) := do
  match ← connect database name base fields with
  | .error e => return .error e
  | .ok (rows, connection) =>
      match setup with
      | none => return .ok (rows, connection)
      | some statements =>
          match ← connection.batch statements with
          | .error text => return .error (.database text)
          | .ok _ => return .ok (rows, connection)

/-- The outline of a source of rows. -/
def outline (rows : RowSource) : String :=
  let base := match rows.base with
    | .table name => "Table(" ++ Text.quoted name ++ ")"
    | .query text => "Query(" ++ Text.quoted text ++ ")"
  Outline.shape "SqlSource" [("base", base),
    ("fields", Outline.list (rows.fields.map SortField.outline))] true

end RowSource

/-- A database whose queries answer no rows. -/
def Database.silent (σ : Type) : Database σ where
  connect _ := pure (.ok { batch := fun _ => pure (.ok ()), select := fun _ _ => pure (.ok []) })

end KeysetPaging.Sql
