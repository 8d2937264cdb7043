import KeysetPaging.CommandLine.Run
import KeysetPaging.Journal.Directives

/-! # How the program ends

A program ends with a code and leaves behind what it printed, the lines of its journal that were
asked for, and a complaint when it failed.
-/

namespace KeysetPaging.CommandLine

/-- What the program prints for its version. -/
def version : String := "bookmarked 0.1.0"

/-- How an invocation of the program ends. -/
structure Ending where
  code : UInt32
  out : String := ""
  log : List String := []
  complaint : Option String := none

/-- The ending of a program that does not act on its arguments. -/
def Ending.ofStop : Stop → Ending
  | .refused => { code := 2 }
  | .help => { code := 0 }
  | .version => { code := 0, out := version ++ "\n" }

/-- The ending of an invocation. The journal is shown as the directives say. -/
def Ending.ofInvocation (invocation : Invocation) (files : Files) (override : Option String)
    (directives : String) : Ending :=
  let (report, journal) := (invocation.run (Sql.Database.silent Unit) files override).run ⟨[], ()⟩
  let base := if invocation.verbose then Severity.debug else .info
  let shown := journal.events.reverse.filter (Directives.ofText base directives).shows
  { code := if report.failure.isSome then 1 else 0
    out := String.join (report.messages.map invocation.layout.text)
    log := shown.map Event.line
    complaint := report.failure.map fun e => "Error: " ++ e.message }

/-- How the program ends with the given arguments. -/
def Ending.ofArguments (args : List String) (files : Files) (override : Option String)
    (directives : String) : Ending :=
  match Invocation.ofArguments args with
  | .error stop => .ofStop stop
  | .ok invocation => .ofInvocation invocation files override directives

/-- The path of the items of a definition that can be loaded. -/
def itemsPath? (files : Files) (path : String) : Option String :=
  match ((Definition.load files path : Run Unit _).run ⟨[], ()⟩).1 with
  | .ok definition =>
      match definition.source with
      | .file items => some items
      | _ => none
  | .error _ => none

end KeysetPaging.CommandLine
