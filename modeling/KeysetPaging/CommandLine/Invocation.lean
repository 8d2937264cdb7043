import KeysetPaging.CommandLine.Arguments
import KeysetPaging.Decimal.Natural

/-! # Invocations

What a caller of the program asks for: one of four commands, for a definition, with the answer in
one of two layouts. The options that every command knows can stand on either side of its name,
and where they stand on both, the ones after it count.
-/

namespace KeysetPaging.CommandLine

/-- How an answer is laid out. -/
inductive Layout where
  /-- On one line. -/
  | line
  /-- Indented. -/
  | pretty
  deriving DecidableEq, Repr

/-- The layout with the given name. -/
def Layout.ofName? (name : String) : Option Layout :=
  if name = "json" then some .line
  else if name = "pretty" then some .pretty
  else none

/-- What is to be done. -/
inductive Command where
  /-- Shows a page, and with `all` the pages after it too, up to a number of pages. -/
  | page (perPage : Nat) (token : Option String) (all : Bool) (maxPages : Option Nat)
  /-- Shows the bookmark of a token. -/
  | decode (token : String)
  /-- Shows the token of a bookmark. -/
  | encode (bookmark : String)
  /-- Checks the definition. -/
  | validate
  deriving DecidableEq, Repr

/-- What a caller asks for. -/
structure Invocation where
  definition : Option String
  layout : Layout
  verbose : Bool
  command : Command
  deriving DecidableEq, Repr

namespace Invocation

/-- The options that every command knows. -/
def common : List Choice :=
  [⟨"definition", some 'd', .value fun path => path ≠ ""⟩,
    ⟨"format", some 'f', .value fun name => (Layout.ofName? name).isSome⟩,
    ⟨"verbose", some 'v', .flag⟩,
    ⟨"help", some 'h', .stop .help⟩]

/-- The arguments in front of the command. -/
def outer : Grammar where
  options := ⟨"version", some 'V', .stop .version⟩ :: common
  commands := ["page", "decode", "encode", "validate", "help"]

/-- The value is a count. -/
def isCount (value : String) : Bool :=
  (Decimal.count? value).isSome

/-- The arguments of a command. -/
def grammarOf (command : String) : Grammar :=
  if command = "page" then
    { options := [⟨"per-page", none, .value isCount⟩, ⟨"page", none, .value fun _ => true⟩,
        ⟨"all", none, .flag⟩, ⟨"max-pages", none, .value isCount⟩] ++ common }
  else if command = "validate" then { options := common }
  else { options := common, words := 1 }

/-- The command that was read, when it has all it needs. -/
def command? (name : String) (reading : Reading) : Option Command :=
  match name, reading.words with
  | "page", [] => do
      let perPage ← (reading.value? "per-page").bind Decimal.count?
      some (.page perPage (reading.value? "page") (reading.has "all")
        ((reading.value? "max-pages").bind Decimal.count?))
  | "decode", [token] => some (.decode token)
  | "encode", [bookmark] => some (.encode bookmark)
  | "validate", [] => some .validate
  | _, _ => none

/-- Reads the arguments of the program. -/
def ofArguments (args : List String) : Except Stop Invocation :=
  match readArguments outer {} args with
  | .error stop => .error stop
  | .ok before =>
      match before.command with
      | none => .error .refused
      | some ("help", _) => .error .help
      | some (name, rest) =>
          match readArguments (grammarOf name) {} rest with
          | .error stop => .error stop
          | .ok after =>
              match command? name after with
              | none => .error .refused
              | some command =>
                  let value? (option : String) := (after.value? option).or (before.value? option)
                  .ok {
                    definition := value? "definition"
                    layout := ((value? "format").bind Layout.ofName?).getD .line
                    verbose := before.has "verbose" || after.has "verbose"
                    command }

end Invocation

end KeysetPaging.CommandLine
