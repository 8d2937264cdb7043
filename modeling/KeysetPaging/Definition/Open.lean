import KeysetPaging.Definition.Basic
import KeysetPaging.Files
import KeysetPaging.Sql.Source

/-! # From a definition to a collection

Opening a definition finds its items or its database. What is open is a source with its
bookmarker and the limits of the filter, and around it the filter is built first and the selection
of fields last. Sorting and filtering see the whole item.
-/

namespace KeysetPaging

/-- The items of a definition, ready to be read page by page. -/
structure Opened (σ : Type) where
  bookmarker : Bookmarker Json
  source : Source σ Json
  /-- The settings under the override. -/
  settings : Settings

namespace FilterDefinition

/-- An item is kept. A field that is missing counts as null. -/
def keeps (filter : FilterDefinition) (item : Json) : Bool :=
  let actual := (item.atPath? filter.field).getD .null
  match filter.equals, filter.notEquals with
  | some value, _ => actual == value
  | none, some value => !(actual == value)
  | none, none => actual == .null

end FilterDefinition

/-- The object of the fields of an item at the given paths, named by their paths. Paths that lead
nowhere are left out. -/
def Json.project (paths : List String) (item : Json) : Json :=
  .ofFields (paths.filterMap fun path => (item.atPath? path).map fun v => (path, v))

namespace Definition

/-- A list of items, sorted by the sort fields. -/
def openItems {σ : Type} (sort : List SortField) (settings : Settings) (items : List Json) :
    Except Error (Opened σ) :=
  let bookmarker := Bookmarker.ofFields sort
  (ItemList.ofItems? bookmarker items).map fun list => ⟨bookmarker, list.source, settings⟩

/-- The items that a file holds. -/
def readItems (files : Files) (path : String) : Except Error (List Json) :=
  match files path with
  | .error reason => .error (.config (.unreadableItems path reason))
  | .ok text =>
      match Json.read? text with
      | some (.arr items) => .ok items
      | _ => .error (.during ("Invalid items file '" ++ path ++ "'") .jsonParse)

/-- Opens the source of a definition. -/
def openSource {σ : Type} (database : Sql.Database σ) (files : Files) (definition : Definition)
    (settings : Settings) : Run σ (Except Error (Opened σ)) :=
  match definition.source with
  | .file path =>
      pure ((readItems files path).bind (openItems definition.sort settings))
  | .inline items => pure (openItems definition.sort settings items)
  | .database name table query setup =>
      let base? : Option Sql.Base := match table, query with
        | some table, none => some (.table table)
        | none, some query => some (.query query)
        | _, _ => none
      match base? with
      | none => pure (.error (.config .uncheckedTableOrQuery))
      | some base => do
          match ← Sql.RowSource.prepare database name base definition.sort setup with
          | .error e => return .error e
          | .ok (rows, connection) =>
              return .ok ⟨.ofFields rows.fields, rows.source connection, settings⟩

/-- Opens a definition, under an override of the number of rounds. -/
def openWith {σ : Type} (database : Sql.Database σ) (files : Files) (override : Option String)
    (definition : Definition) : Run σ (Except Error (Opened σ)) := do
  let settings ← definition.settings.withOverride override
  match ← openSource database files definition settings with
  | .error e => return .error e
  | .ok opened =>
      Run.note (.collectionBuilt definition.name definition.source.kind definition.sort.length
        definition.filter.isSome)
      return .ok opened

/-- The collection that a definition describes, once it is open. -/
def collection {σ : Type} (definition : Definition) (opened : Opened σ) : Collection σ Json :=
  let items : Collection σ Json := .leaf opened.bookmarker opened.source
  let kept := match definition.filter with
    | none => items
    | some filter => .filter items filter.keeps (opened.settings.filterOptions filter.sync)
  match definition.select with
  | none => kept
  | some paths => .transform kept (Json.project paths)

end Definition

end KeysetPaging
