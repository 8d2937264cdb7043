import KeysetPaging.Json.Writer
import KeysetPaging.Sort.Field

/-! # Errors

Every error names its cause, and `Error.message` is the one place that words it. A token that
names no bookmark is no error: the walk starts again from the beginning.
-/

namespace KeysetPaging

/-- How several collections are joined into one. -/
inductive Joint where
  | concat
  | merge
  deriving DecidableEq, Repr

/-- The word for a joint. -/
def Joint.word : Joint → String
  | .concat => "concat"
  | .merge => "merge"

/-- Why a value cannot be part of a sort key. -/
inductive ValueFault where
  /-- It is of another kind. -/
  | expected (kind : FieldKind) (got : Json)
  /-- It is a number that is no signed whole number of 64 bits. -/
  | unsupportedNumber (got : Json)
  /-- It is a list or an object. -/
  | unsupportedValue (got : Json)
  /-- It is null and the field takes no null. -/
  | nullRefused
  /-- It is a bookmark of a shape that no SQL value stands for. -/
  | unbindable (kind : String)
  | stated (text : String)

/-- What a value of a kind is called in a message. -/
def FieldKind.noun : FieldKind → String
  | .integer => "integer"
  | .text => "string"
  | .boolean => "boolean"
  | .timestamp => "timestamp"
  | .any => "value"

/-- The words for a value fault. -/
def ValueFault.message : ValueFault → String
  | .expected kind got => "expected " ++ kind.noun ++ ", got " ++ got.compact
  | .unsupportedNumber got => "unsupported number " ++ got.compact
  | .unsupportedValue got => "unsupported sort value " ++ got.compact
  | .nullRefused => "null in non-nullable field"
  | .unbindable kind => kind ++ " bookmark cannot be bound as an SQL value"
  | .stated text => text

/-- What is wrong with the set-up of a collection. -/
inductive ConfigFault where
  | emptyName
  | noSortFields (collection : String)
  | unnamedSortField (collection : String)
  | repeatedSortField (collection field : String)
  | noItemsPath (collection : String)
  | tableOrQuery (collection : String)
  | dottedColumn (collection field : String)
  | noFilterField (collection : String)
  | oneComparison (collection : String)
  | emptySelection (collection : String)
  | zeroLimit (collection : String)
  | noDefinition
  | unreadableDefinition (path reason : String)
  | malformedDefinition
  | unreadableItems (path reason : String)
  /-- A database source that was not checked names both a table and a query, or neither. -/
  | uncheckedTableOrQuery
  | sqlWithoutFields
  | sqlDottedField (field : String)
  /-- A bookmark has another number of parts than the source has sort fields. -/
  | partsMismatch (parts fields : Nat)
  | emptyLabel (joint : Joint)
  | repeatedLabel (joint : Joint) (label : String)
  | noCollections (joint : Joint)
  | stated (text : String)

/-- The name of a collection at the start of a message about it. -/
def ConfigFault.about (collection : String) : String :=
  "Collection '" ++ collection ++ "' "

/-- The words for a fault of the set-up. -/
def ConfigFault.message : ConfigFault → String
  | .emptyName => "Collection name cannot be empty"
  | .noSortFields c => about c ++ "must have at least one sort field"
  | .unnamedSortField c => about c ++ "has a sort field without a name"
  | .repeatedSortField c field => about c ++ "sorts by '" ++ field ++ "' more than once"
  | .noItemsPath c => about c ++ "json source needs a path"
  | .tableOrQuery c => about c ++ "duckdb source needs exactly one of table or query"
  | .dottedColumn c field => about c ++ "duckdb sort field '" ++ field ++ "' must be a column name"
  | .noFilterField c => about c ++ "filter needs a field"
  | .oneComparison c => about c ++ "filter needs exactly one of equals or not_equals"
  | .emptySelection c => about c ++ "select list must name at least one field"
  | .zeroLimit c => about c ++ "filter limits must be positive"
  | .noDefinition => "Definition file not specified (use -d flag)"
  | .unreadableDefinition path reason =>
      "Failed to read definition file '" ++ path ++ "': " ++ reason
  | .malformedDefinition => "Failed to parse definition YAML"
  | .unreadableItems path reason => "Failed to read items file '" ++ path ++ "': " ++ reason
  | .uncheckedTableOrQuery => "duckdb source needs exactly one of table or query"
  | .sqlWithoutFields => "SQL source needs at least one sort field"
  | .sqlDottedField field => "SQL sort field '" ++ field ++ "' must be a plain column name"
  | .partsMismatch parts fields =>
      "bookmark has " ++ toString parts ++ " parts but the source sorts by " ++ toString fields ++
        " fields"
  | .emptyLabel joint => joint.word ++ " source labels cannot be empty"
  | .repeatedLabel joint label =>
      joint.word ++ " source label '" ++ label ++ "' is used more than once"
  | .noCollections joint => joint.word ++ " needs at least one collection"
  | .stated text => text

/-- Why an operation failed. -/
inductive Error where
  /-- A page was asked for without a size, or of size zero. -/
  | invalidPerPage
  /-- An item does not have a field that it is sorted by. -/
  | missingSortField (field : String)
  | invalidSortValue (field : String) (fault : ValueFault)
  | config (fault : ConfigFault)
  /-- A text is no JSON, or not the JSON that was asked for. -/
  | jsonParse
  | database (text : String)
  /-- A source of items gave up. -/
  | source (text : String)
  | files (text : String)
  | other (text : String)
  /-- An error with a note on what was being done. -/
  | during (note : String) (cause : Error)

namespace Error

/-- The words for an error. -/
def message : Error → String
  | .invalidPerPage => "per_page must be a positive integer"
  | .missingSortField field => "Item is missing sort field '" ++ field ++ "'"
  | .invalidSortValue field fault =>
      "Invalid value for sort field '" ++ field ++ "': " ++ fault.message
  | .config fault => "Configuration error: " ++ fault.message
  | .jsonParse => "Failed to parse JSON"
  | .database text => "Database error: " ++ text
  | .source text => "Ordered source failed: " ++ text
  | .files text => "IO error: " ++ text
  | .other text => text
  | .during note cause => note ++ ": " ++ cause.message

/-- The caller broke a rule of the interface, and the data is not at fault. -/
def isContractViolation : Error → Bool
  | .invalidPerPage => true
  | _ => false

end Error

end KeysetPaging
