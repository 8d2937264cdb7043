import KeysetPaging.Rehearsal.Item
import KeysetPaging.Source.Items
import KeysetPaging.Sql.Source

/-! # Sources on a stage

On a stage, sources follow a script, and everything they are asked is written down: lists whose
items can be exchanged between two pages, sources with an answer for each question, and databases
with an answer for each query.
-/

namespace KeysetPaging.Rehearsal

/-- One step of the answer of a scripted source. -/
inductive Step where
  | edit (edit : Edit Json)
  /-- Adds numbered records until the page is full. -/
  | fill (start : Int)
  | fail (error : Error)

/-- Records with the numbers from `start` on. -/
def numbered (start : Int) (count : Nat) : List Json :=
  (List.range count).map fun (i : Nat) => Json.ofFields [("id", .int (start + i))]

/-- The answer of a scripted source to a page. -/
def answer (page : Page Json) : List Step → Fetched Json
  | [] => {}
  | step :: rest =>
      let go (edit : Edit Json) : Fetched Json :=
        let fetched := answer (page.edit edit) rest
        { fetched with edits := edit :: fetched.edits }
      match step with
      | .edit edit => go edit
      | .fill start => go (.extend (numbered start page.remaining))
      | .fail error => { failure := some error }

/-- What a source was asked for. -/
structure Question where
  name : String
  perPage : Nat
  place : Option Bookmark

/-- What a database was asked for. -/
inductive Call where
  | connect (name : String)
  | batch (statements : String)
  | prepare (query : String)
  | select (values : List Sql.Value)

/-- What a scripted connection answers to a query. -/
inductive Answer where
  | refuse (reason : String)
  | fail (reason : String)
  | rows (rows : List (Except String String))

/-- The script of the connection that is opened next. -/
structure Script where
  answers : List Answer := []
  refusal : Option String := none
  batchFailure : Option String := none

/-- The state of the sources on a stage. -/
structure Stage where
  /-- The number of things on the stage, which names the next one. -/
  size : Nat := 0
  /-- The items of each list. -/
  lists : List (Nat × List Json) := []
  /-- The latest list of each name. -/
  names : List (String × Nat) := []
  /-- How often each scripted source was asked. -/
  asked : List (Nat × Nat) := []
  /-- The script of the next connection. -/
  script : Script := {}
  /-- The answers that each connection has left. -/
  answers : List (Nat × List Answer) := []
  /-- The questions, the latest first. -/
  questions : List Question := []
  /-- The calls of databases, the latest first. -/
  calls : List Call := []
  deriving Inhabited

namespace Stage

/-- Puts something new on the stage. -/
def add : Run Stage Nat := do
  let number := (← Run.state).size
  Run.change fun stage => { stage with size := number + 1 }
  return number

/-- Writes down a call. -/
def call (c : Call) : Run Stage Unit :=
  Run.change fun stage => { stage with calls := c :: stage.calls }

/-- Writes down a question. -/
def ask (name : String) (page : Page Json) : Run Stage Unit :=
  Run.change fun stage =>
    { stage with questions := ⟨name, page.perPage, page.current⟩ :: stage.questions }

/-- Puts a list on the stage. -/
def addList (name : String) (items : List Json) : Run Stage Nat := do
  let number ← add
  Run.change fun stage =>
    { stage with
      lists := (number, items) :: stage.lists
      names := (name, number) :: stage.names }
  return number

/-- Exchanges the items of the latest list of a name. -/
def setItems (name : String) (items : List Json) : Run Stage Unit :=
  Run.change fun stage =>
    match stage.names.lookup name with
    | some number => { stage with lists := (number, items) :: stage.lists }
    | none => stage

/-- A list as a source. It is sorted anew for every page. -/
def liveSource (name : String) (number : Nat) (bookmarker : Bookmarker Json) :
    Source Stage Json where
  fetch page := do
    ask name page
    let items := ((← Run.state).lists.lookup number).getD []
    match ItemList.ofItems? bookmarker items with
    | .error e => return { failure := some e }
    | .ok list => return list.fetched page

/-- A source with an answer for each question. The last answer is given again and again. -/
def scriptSource (name : String) (number : Nat) (answers : List (List Step)) :
    Source Stage Json where
  fetch page := do
    ask name page
    let before := ((← Run.state).asked.lookup number).getD 0
    Run.change fun stage => { stage with asked := (number, before + 1) :: stage.asked }
    match answers[min before (answers.length - 1)]? with
    | some steps => return answer page steps
    | none => return {}

/-- A connection with an answer for each query. When they run out, there are no rows. -/
def connection (number : Nat) (batchFailure : Option String) : Sql.Connection Stage where
  batch statements := do
    call (.batch statements)
    match batchFailure with
    | some reason => return .error reason
    | none => return .ok ()
  select query values := do
    call (.prepare query)
    let (answer, left) := match (← Run.state).answers.lookup number with
      | some (answer :: left) => (answer, left)
      | _ => (.rows [], [])
    Run.change fun stage => { stage with answers := (number, left) :: stage.answers }
    match answer with
    | .refuse reason => return .error reason
    | .fail reason =>
        call (.select values)
        return .error reason
    | .rows rows =>
        call (.select values)
        return .ok rows

/-- A database whose connections follow the script that is laid out. -/
def database : Sql.Database Stage where
  connect name := do
    let script := (← Run.state).script
    Run.change fun stage => { stage with script := {} }
    call (.connect name)
    match script.refusal with
    | some reason => return .error reason
    | none =>
        let number ← add
        Run.change fun stage =>
          { stage with answers := (number, script.answers) :: stage.answers }
        return .ok (connection number script.batchFailure)

end Stage

end KeysetPaging.Rehearsal
