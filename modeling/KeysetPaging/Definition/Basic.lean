import KeysetPaging.Collection.Filter
import KeysetPaging.Journal
import KeysetPaging.Text.Blank

/-! # Definitions

A definition describes a collection: where its items come from, how they are sorted, which of them
are kept, and which of their fields are shown.
-/

namespace KeysetPaging

/-- Where the items of a collection come from. -/
inductive SourceDefinition where
  /-- A file that holds a list. -/
  | file (path : String)
  /-- The items themselves. -/
  | inline (items : List Json)
  /-- A table or a query of a database, with statements to run first. -/
  | database (name : String) (table query setup : Option String)

/-- The kind of a source. -/
def SourceDefinition.kind : SourceDefinition → String
  | .file _ => "json"
  | .inline _ => "inline"
  | .database .. => "duckdb"

/-- Which items are kept: those whose field equals a value, or those whose field does not. -/
structure FilterDefinition where
  field : String
  /-- Null is a value like any other. -/
  equals : Option Json := none
  notEquals : Option Json := none
  /-- A page shows what is kept of one page of the source. -/
  sync : Bool := false

/-- The limits of the filter of a collection. -/
structure Settings where
  filterMaxRounds : Nat := 64
  filterMaxFetch : Nat := 1000
  deriving DecidableEq, Repr

/-- The description of a collection. -/
structure Definition where
  name : String
  description : Option String := none
  source : SourceDefinition
  /-- The sort fields, the most significant first. -/
  sort : List SortField
  filter : Option FilterDefinition := none
  /-- The paths of the fields that are shown. -/
  select : Option (List String) := none
  settings : Settings := {}

namespace Settings

/-- The environment variable that overrides the number of rounds. -/
def overrideName : String := "BOOKMARKED_FILTER_MAX_ROUNDS"

/-- The number of rounds that an override asks for. Blanks around it are dropped. -/
def overrideRounds? (raw : String) : Option Nat :=
  (Decimal.count? (Text.trim raw)).bind fun n => if n = 0 then none else some n

/-- The settings under an override. One that is no positive count is noted and has no effect. -/
def withOverride {σ : Type} (settings : Settings) (raw : Option String) : Run σ Settings :=
  match raw with
  | none => pure settings
  | some raw =>
      match overrideRounds? raw with
      | some rounds => pure { settings with filterMaxRounds := rounds }
      | none => do
          Run.note (.overrideIgnored overrideName raw)
          return settings

/-- The options of a filter under these settings. -/
def filterOptions (settings : Settings) (sync : Bool) : FilterOptions :=
  { mode := if sync then .sifting else .filling
    maxRounds := settings.filterMaxRounds
    maxFetch := settings.filterMaxFetch }

/-- Reads settings. Each part may be missing. -/
def ofDocument? (d : Document) : Option Settings := do
  match ← d.parts? ["filter_max_rounds", "filter_max_fetch"] with
  | [rounds, fetch] =>
      some {
        filterMaxRounds := ← Option.partOr 64 Document.count? rounds
        filterMaxFetch := ← Option.partOr 1000 Document.count? fetch }
  | _ => none

/-- The written form of settings. -/
def toJson (settings : Settings) : Json :=
  .ofFields [("filter_max_rounds", .int settings.filterMaxRounds),
    ("filter_max_fetch", .int settings.filterMaxFetch)]

end Settings

end KeysetPaging
