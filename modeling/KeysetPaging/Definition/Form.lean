import KeysetPaging.Definition.Basic

/-! # The written form of a definition

A definition is a record, and so are its parts. The source names its kind, `type`, and what else
it holds depends on that, so every part of it has to be readable and is taken for what it means: a
word that means a number is no text there.
-/

namespace KeysetPaging

mutual

/-- The document without the spelling of its words. -/
def Document.meaning : Document → Document
  | .scalar value _ => .scalar value none
  | .list items => .list (Document.meanings items)
  | .record fields => .record (Document.fieldMeanings fields)

/-- The items without the spelling of their words. -/
def Document.meanings : List Document → List Document
  | [] => []
  | d :: rest => d.meaning :: Document.meanings rest

/-- The fields without the spelling of their words. -/
def Document.fieldMeanings : List (Document × Document) → List (Document × Document)
  | [] => []
  | (k, d) :: rest => (k.meaning, d.meaning) :: Document.fieldMeanings rest

end

namespace SourceDefinition

/-- Reads a part that has to be there. -/
def required {α : Type} (read : Document → Option α) (part : Option Document) : Option α :=
  part.bind read

/-- Reads a text that may be missing or null. -/
def optionalText : Option Document → Option (Option String) :=
  Option.partOr none (Document.orNull Document.text?)

/-- Reads the content of a source of the given kind. -/
def ofKind? (kind : String) (content : Document) : Option SourceDefinition :=
  match kind with
  | "json" => do
      match ← content.parts? ["path"] with
      | [path] => some (.file (← required Document.text? path))
      | _ => none
  | "inline" => do
      match ← content.parts? ["items"] with
      | [items] => do
          let items ← required Document.items? items
          some (.inline (← Document.toItems? Document.maxLevels items))
      | _ => none
  | "duckdb" => do
      match ← content.parts? ["database", "table", "query", "setup"] with
      | [name, table, query, setup] =>
          some (.database (← Option.partOr ":memory:" Document.text? name)
            (← optionalText table) (← optionalText query) (← optionalText setup))
      | _ => none
  | _ => none

/-- Reads a source: a record with its kind, or a list that starts with its kind. -/
def ofDocument? (d : Document) : Option SourceDefinition :=
  if !d.isReadable then none
  else match d.meaning with
    | .record fields =>
        match fields.filter fun field => field.1.text? = some "type" with
        | [(_, kind)] => do ofKind? (← kind.text?) (.record fields)
        | _ => none
    | .list (kind :: rest) => do ofKind? (← kind.text?) (.list rest)
    | _ => none

/-- The written form of a source. -/
def toJson : SourceDefinition → Json
  | .file path => .ofFields [("type", .str "json"), ("path", .str path)]
  | .inline items => .ofFields [("type", .str "inline"), ("items", .arr items)]
  | .database name table query setup =>
      .ofFields [("type", .str "duckdb"), ("database", .str name), ("table", .ofText? table),
        ("query", .ofText? query), ("setup", .ofText? setup)]

end SourceDefinition

namespace FilterDefinition

/-- Reads a value that may be missing. A null that is there is a value. -/
def optionalValue : Option Document → Option (Option Json) :=
  Option.partOr none fun d => (d.toJson? Document.maxLevels).map some

/-- Reads a filter. Only its field is required. -/
def ofDocument? (d : Document) : Option FilterDefinition := do
  match ← d.parts? ["field", "equals", "not_equals", "sync"] with
  | [field, equals, notEquals, sync] =>
      some {
        field := ← SourceDefinition.required Document.text? field
        equals := ← optionalValue equals
        notEquals := ← optionalValue notEquals
        sync := ← Option.partOr false Document.bool? sync }
  | _ => none

/-- The written form of a filter. A value that is not there is left out. -/
def toJson (filter : FilterDefinition) : Json :=
  let value (name : String) : Option Json → List (String × Json)
    | some v => [(name, v)]
    | none => []
  .ofFields ([("field", .str filter.field)] ++ value "equals" filter.equals ++
    value "not_equals" filter.notEquals ++ [("sync", .bool filter.sync)])

end FilterDefinition

namespace Definition

/-- Reads a list of parts. -/
def listOf {α : Type} (read : Document → Option α) (d : Document) : Option (List α) := do
  let items ← d.items?
  items.mapM read

/-- Reads a definition. Its name, its source and its sort fields are required. -/
def ofDocument? (d : Document) : Option Definition := do
  match ← d.parts? ["name", "description", "source", "sort", "filter", "select", "settings"] with
  | [name, description, source, sort, filter, select, settings] =>
      some {
        name := ← SourceDefinition.required Document.text? name
        description := ← SourceDefinition.optionalText description
        source := ← SourceDefinition.required SourceDefinition.ofDocument? source
        sort := ← SourceDefinition.required (listOf SortField.ofDocument?) sort
        filter := ← Option.partOr none (Document.orNull FilterDefinition.ofDocument?) filter
        select := ← Option.partOr none (Document.orNull (listOf Document.text?)) select
        settings := ← Option.partOr {} Settings.ofDocument? settings }
  | _ => none

/-- The written form of a definition. -/
def toJson (definition : Definition) : Json :=
  .ofFields [
    ("name", .str definition.name),
    ("description", .ofText? definition.description),
    ("source", definition.source.toJson),
    ("sort", .arr (definition.sort.map SortField.toJson)),
    ("filter", match definition.filter with
      | some filter => filter.toJson
      | none => .null),
    ("select", match definition.select with
      | some paths => .arr (paths.map .str)
      | none => .null),
    ("settings", definition.settings.toJson)]

end Definition

end KeysetPaging
