import KeysetPaging.Collection.Walk
import KeysetPaging.CommandLine.Invocation
import KeysetPaging.Definition.Load
import KeysetPaging.Definition.Open
import KeysetPaging.Json.Writer

/-! # Running an invocation

Every answer is a message: a JSON object that names its type, with its fields in the order of
their names. A run gives the messages up to the first failure, and the failure.
-/

namespace KeysetPaging.CommandLine

/-- What a run answers. -/
structure Report where
  messages : List Json := []
  failure : Option Error := none

/-- The message with the given type and fields. -/
def message (type : String) (fields : List (String × Json)) : Json :=
  (Json.ofFields (("type", .str type) :: fields)).sorted

/-- The bookmark in a message, or null. -/
def bookmarkJson : Option Bookmark → Json
  | some b => b.toJson
  | none => .null

/-- The message about a page. Pages are counted from one. -/
def pageMessage (collection : String) (number : Nat) (page : Page Json) : Json :=
  message "PAGE" [("collection", .str collection), ("number", .int number),
    ("page", .ofFields [("current_bookmark", bookmarkJson page.current),
      ("items", .arr page.items), ("next_bookmark", bookmarkJson page.nextBookmark),
      ("next_page", .ofText? page.nextToken)])]

/-- The message about a definition without faults. -/
def validMessage (definition : Definition) : Json :=
  let text := "Collection '" ++ definition.name ++ "' is valid (" ++ definition.source.kind ++
    " source, " ++ toString definition.sort.length ++ " sort fields)"
  message "LOG" [("log", .ofFields [("level", .str "INFO"), ("message", .str text)])]

/-- The messages about pages, counted from the given number on. -/
def pageMessages (collection : String) : (number : Nat) → List (Page Json) → List Json
  | _, [] => []
  | number, page :: rest =>
      pageMessage collection number page :: pageMessages collection (number + 1) rest

/-- How many pages are shown at most. At least one is. -/
def pageLimit (all : Bool) (maxPages : Option Nat) : Nat :=
  if all then max 1 (maxPages.getD Decimal.maxCount) else 1

/-- Shows pages of a collection. -/
def showPages {σ : Type} (name : String) (collection : Collection σ Json) (perPage : Nat)
    (token : Option String) (limit : Nat) : Run σ Report := do
  let walk ← collection.walk perPage limit token
  if walk.failure.isNone then
    Run.note (.pagingFinished walk.pages.length)
  return { messages := pageMessages name 1 walk.pages, failure := walk.failure }

/-- Loads the definition that is asked for. -/
def loadDefinition {σ : Type} (files : Files) (invocation : Invocation) :
    Run σ (Except Error Definition) :=
  match invocation.definition with
  | none => pure (.error (.config .noDefinition))
  | some path => Definition.load files path

/-- Runs an invocation. -/
def Invocation.run {σ : Type} (invocation : Invocation) (database : Sql.Database σ)
    (files : Files) (override : Option String) : Run σ Report :=
  match invocation.command with
  | .page perPage token all maxPages => do
      match ← loadDefinition files invocation with
      | .error e => return { failure := some e }
      | .ok definition =>
          match ← definition.openWith database files override with
          | .error e => return { failure := some e }
          | .ok opened =>
              showPages definition.name (definition.collection opened) perPage token
                (pageLimit all maxPages)
  | .decode token => do
      let bookmark ← readToken token
      return { messages := [message "BOOKMARK" [("bookmark", bookmarkJson bookmark)]] }
  | .encode text =>
      match Bookmark.ofText? text with
      | none => return { failure := some .jsonParse }
      | some b => return { messages := [message "TOKEN" [("token", .str b.token)]] }
  | .validate => do
      match ← loadDefinition files invocation with
      | .error e => return { failure := some e }
      | .ok definition => return { messages := [validMessage definition] }

/-- The text of a message, with the end of its last line. -/
def Layout.text (layout : Layout) (message : Json) : String :=
  (match layout with
    | .line => message.compact
    | .pretty => message.pretty) ++ "\n"

end KeysetPaging.CommandLine
