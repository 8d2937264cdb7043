import KeysetPaging.Text.Blank

/-! # Arguments of a command

The arguments of a command are options, which start with a hyphen, and other words. They are taken
in their order, and the first one that is out of place ends the reading, as does one that asks for
help. An option has a long name and may have a letter, and letters can stand together in one
argument. What belongs to an option is written into its argument or stands in the next one.
-/

namespace KeysetPaging.CommandLine

/-- Why arguments are not acted on. -/
inductive Stop where
  | refused
  | help
  | version
  deriving DecidableEq, Repr

/-- What follows from an option. -/
inductive Effect where
  | flag
  /-- The option has a value that passes a test. -/
  | value (accepts : String → Bool)
  | stop (reason : Stop)

/-- An option. -/
structure Choice where
  name : String
  letter : Option Char
  effect : Effect

/-- The arguments that a command takes. -/
structure Grammar where
  options : List Choice
  /-- How many other words there may be. -/
  words : Nat := 0
  /-- The names of the commands that take over the arguments after them. -/
  commands : List String := []

/-- What was read: the options with their values, the words, and the command that takes over with
its arguments. -/
structure Reading where
  options : List (String × String) := []
  words : List String := []
  command : Option (String × List String) := none

namespace Reading

/-- Adds an option, which may be given once. -/
def give (reading : Reading) (choice : Choice) (value : String) : Except Stop Reading :=
  if (reading.options.lookup choice.name).isSome then .error .refused
  else .ok { reading with options := (choice.name, value) :: reading.options }

/-- Adds an option with a value. -/
def giveValue (reading : Reading) (choice : Choice) (accepts : String → Bool) (value : String) :
    Except Stop Reading :=
  if accepts value then reading.give choice value else .error .refused

/-- Adds a word. -/
def word (grammar : Grammar) (reading : Reading) (w : String) : Except Stop Reading :=
  if reading.words.length < grammar.words then
    .ok { reading with words := reading.words ++ [w] }
  else .error .refused

/-- The value of an option. -/
def value? (reading : Reading) (name : String) : Option String :=
  reading.options.lookup name

/-- The option is given. -/
def has (reading : Reading) (name : String) : Bool :=
  (reading.value? name).isSome

end Reading

/-- An option that waits for its value. -/
structure Waiting where
  choice : Choice
  accepts : String → Bool

/-- Reads the letters of one argument. A letter whose option has a value takes the rest, an equals
sign in front aside, and waits when there is no rest. -/
def readLetters (grammar : Grammar) : Reading → List Char → Except Stop (Reading × Option Waiting)
  | reading, [] => .ok (reading, none)
  | reading, c :: rest =>
      match grammar.options.find? fun choice => choice.letter = some c with
      | none => .error .refused
      | some choice =>
          match choice.effect with
          | .stop reason => .error reason
          | .flag => do readLetters grammar (← reading.give choice "") rest
          | .value accepts =>
              match rest with
              | [] => .ok (reading, some ⟨choice, accepts⟩)
              | '=' :: value => do
                  .ok (← reading.giveValue choice accepts (String.ofList value), none)
              | value => do
                  .ok (← reading.giveValue choice accepts (String.ofList value), none)

/-- Reads a long name, which may have a value after an equals sign. -/
def readLong (grammar : Grammar) (reading : Reading) (cs : List Char) :
    Except Stop (Reading × Option Waiting) :=
  let name := String.ofList (cs.takeWhile (· ≠ '='))
  let value := match cs.dropWhile (· ≠ '=') with
    | [] => none
    | _ :: value => some (String.ofList value)
  match grammar.options.find? fun choice => choice.name = name with
  | none => .error .refused
  | some choice =>
      match choice.effect, value with
      | .stop reason, none => .error reason
      | .flag, none => do .ok (← reading.give choice "", none)
      | .value accepts, none => .ok (reading, some ⟨choice, accepts⟩)
      | .value accepts, some value => do .ok (← reading.giveValue choice accepts value, none)
      | _, some _ => .error .refused

/-- Reads an argument that starts with a hyphen, without that hyphen. -/
def readOption (grammar : Grammar) (reading : Reading) :
    List Char → Except Stop (Reading × Option Waiting)
  | '-' :: cs => readLong grammar reading cs
  | cs => readLetters grammar reading cs

/-- The argument is an option. A hyphen alone is a word. -/
def isOption (arg : String) : Bool :=
  match arg.toList with
  | '-' :: _ :: _ => true
  | _ => false

/-- Reads arguments. After two hyphens alone, all arguments are words. -/
def readArguments (grammar : Grammar) : Reading → List String → Except Stop Reading
  | reading, [] => .ok reading
  | reading, arg :: rest =>
      if arg = "--" then rest.foldlM (Reading.word grammar) reading
      else if isOption arg then
        match readOption grammar reading (arg.toList.drop 1) with
        | .error stop => .error stop
        | .ok (reading, none) => readArguments grammar reading rest
        | .ok (reading, some waiting) =>
            match rest with
            | [] => .error .refused
            | value :: rest =>
                if isOption value then .error .refused
                else
                  match reading.giveValue waiting.choice waiting.accepts value with
                  | .error stop => .error stop
                  | .ok reading => readArguments grammar reading rest
      else if grammar.commands.contains arg then
        .ok { reading with command := some (arg, rest) }
      else do readArguments grammar (← reading.word grammar arg) rest

end KeysetPaging.CommandLine
