import KeysetPaging.Bookmark.Display
import KeysetPaging.Bookmark.Token
import KeysetPaging.Error

/-! # The journal of a run

What happens on the way to an answer is noted as events. Each event belongs to a level, and a
reader of the journal sees the lines of the level asked for and of those more severe.
-/

namespace KeysetPaging

/-- How much an event matters. -/
inductive Severity where
  | error
  | warn
  | info
  | debug
  | trace
  deriving DecidableEq, Repr

namespace Severity

/-- The rank of a level, the most severe first. -/
def rank : Severity → Nat
  | .error => 1
  | .warn => 2
  | .info => 3
  | .debug => 4
  | .trace => 5

/-- The name of a level. -/
def name : Severity → String
  | .error => "ERROR"
  | .warn => "WARN"
  | .info => "INFO"
  | .debug => "DEBUG"
  | .trace => "TRACE"

/-- The level with the given name. -/
def ofName? (name : String) : Option Severity :=
  if name = "ERROR" then some .error
  else if name = "WARN" then some .warn
  else if name = "INFO" then some .info
  else if name = "DEBUG" then some .debug
  else if name = "TRACE" then some .trace
  else none

end Severity

/-- Something worth noting. -/
inductive Event where
  | badToken (fault : TokenFault) (token : String)
  | totalIgnored (total : Nat)
  | bookmarkRejected (bookmark : Bookmark)
  | paginated (items : Nat) (hasMore : Bool)
  | overflowDropped (perPage : Nat)
  | filterRound (round fetched : Nat) (hasMore : Bool)
  | filterLimit (maxRounds items : Nat)
  | syncRound (round fetched : Nat) (hasMore : Bool)
  | syncLimit (maxRounds : Nat)
  | concatSource (label : String) (fetched : Nat) (hasMore : Bool)
  | mergeSource (label : String) (fetched : Nat) (hasMore : Bool)
  | keysetQuery (query : String) (params : Nat)
  | overrideIgnored (name value : String)
  | definitionLoaded (name path : String)
  | collectionBuilt (name source : String) (sortFields : Nat) (filtered : Bool)
  | pagingFinished (pages : Nat)

namespace Event

/-- The level of an event. -/
def severity : Event → Severity
  | .filterLimit .. | .syncLimit .. | .overrideIgnored .. => .warn
  | .overflowDropped .. | .filterRound .. | .syncRound .. | .concatSource .. | .mergeSource .. =>
      .trace
  | _ => .debug

/-- The part of the program that notes an event. -/
def target : Event → String
  | .badToken .. => "bookmarked_collection::bookmark::codec"
  | .totalIgnored .. | .bookmarkRejected .. | .paginated .. =>
      "bookmarked_collection::collection::types"
  | .overflowDropped .. => "bookmarked_collection::collection::proxy"
  | .filterRound .. | .filterLimit .. | .syncRound .. | .syncLimit .. =>
      "bookmarked_collection::collection::filter"
  | .concatSource .. => "bookmarked_collection::collection::concat"
  | .mergeSource .. => "bookmarked_collection::collection::merge"
  | .keysetQuery .. => "bookmarked_collection::source::sql"
  | .overrideIgnored .. => "bookmarked_collection::config::types"
  | .definitionLoaded .. => "bookmarked_collection::config::parser"
  | .collectionBuilt .. => "bookmarked_collection::config::builder"
  | .pagingFinished .. => "bookmarked_collection::cli::runner"

/-- The sentence of an event. -/
def sentence : Event → String
  | .badToken .foreign _ => "Ignoring page token without bookmark prefix"
  | .badToken .badBase64 _ => "Ignoring page token with invalid base64 payload"
  | .badToken .badBookmark _ => "Ignoring page token with invalid bookmark"
  | .totalIgnored .. => "Ignoring total_entries; bookmark pagination has no total count"
  | .bookmarkRejected .. => "Ignoring bookmark rejected by collection"
  | .paginated .. => "Paginated collection"
  | .overflowDropped .. => "Source returned more than per_page items; dropped the overflow"
  | .filterRound .. => "Filter round"
  | .filterLimit .. => "Filter reached its round limit; returning a short page"
  | .syncRound .. => "Sync filter round"
  | .syncLimit .. => "Sync filter reached its round limit with an empty page"
  | .concatSource .. => "Concat source"
  | .mergeSource .. => "Merge source"
  | .keysetQuery .. => "Executing keyset query"
  | .overrideIgnored .. => "Ignoring invalid filter round override"
  | .definitionLoaded .. => "Loaded collection definition"
  | .collectionBuilt .. => "Built collection"
  | .pagingFinished .. => "Finished paging"

/-- The facts of an event, each with its name. -/
def facts : Event → List (String × String)
  | .badToken _ token => [("token", Text.quoted token)]
  | .totalIgnored total => [("total_entries", toString total)]
  | .bookmarkRejected b => [("bookmark", b.display)]
  | .paginated items hasMore => [("items", toString items), ("has_more", toString hasMore)]
  | .overflowDropped perPage => [("per_page", toString perPage)]
  | .filterRound round fetched hasMore | .syncRound round fetched hasMore =>
      [("round", toString round), ("fetched", toString fetched),
        ("sub_has_more", toString hasMore)]
  | .filterLimit maxRounds items =>
      [("max_rounds", toString maxRounds), ("items", toString items)]
  | .syncLimit maxRounds => [("max_rounds", toString maxRounds)]
  | .concatSource label fetched hasMore =>
      [("source", label), ("fetched", toString fetched), ("sub_has_more", toString hasMore)]
  | .mergeSource label fetched hasMore =>
      [("source", label), ("fetched", toString fetched), ("has_more", toString hasMore)]
  | .keysetQuery query params => [("query", query), ("params", toString params)]
  | .overrideIgnored name value =>
      [("variable", Text.quoted name), ("value", Text.quoted value)]
  | .definitionLoaded name path => [("name", name), ("path", path)]
  | .collectionBuilt name source sortFields filtered =>
      [("name", name), ("source", Text.quoted source), ("sort_fields", toString sortFields),
        ("filtered", toString filtered)]
  | .pagingFinished pages => [("pages", toString pages)]

/-- The line of an event: its level, its target, its sentence and its facts. -/
def line (e : Event) : String :=
  let facts := e.facts.map fun fact => " " ++ fact.1 ++ "=" ++ fact.2
  e.severity.name ++ " " ++ e.target ++ ": " ++ e.sentence ++ String.join facts

end Event

/-- What a run leaves behind: its events, the latest first, and the state of its sources. -/
structure Journal (σ : Type) where
  events : List Event
  state : σ

/-- A run over sources whose state is `σ`. -/
abbrev Run (σ : Type) := StateM (Journal σ)

namespace Run

variable {σ : Type}

/-- Notes an event. -/
def note (e : Event) : Run σ Unit :=
  modify fun j => { j with events := e :: j.events }

/-- The state of the sources. -/
def state : Run σ σ := do
  return (← get).state

/-- Changes the state of the sources. -/
def change (f : σ → σ) : Run σ Unit :=
  modify fun j => { j with state := f j.state }

/-- The events of a journal that a reader of the given level sees, in the order of the run. -/
def eventsUpTo (level : Severity) (j : Journal σ) : List Event :=
  j.events.reverse.filter fun e => e.severity.rank ≤ level.rank

end Run

end KeysetPaging
