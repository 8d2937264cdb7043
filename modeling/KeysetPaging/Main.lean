import KeysetPaging.CommandLine.Ending

/-! # The program

The files that the arguments name are read first: the definition, and the items that it points
to. Everything else is decided by `Ending.ofArguments`.
-/

namespace KeysetPaging.Program

open CommandLine

/-- The files that were read, and none besides. -/
def filesRead (entries : List (String × Except String String)) : Files := fun path =>
  (entries.lookup path).getD (.error Files.missing)

/-- Reads a file. -/
def readFile (path : String) : IO (String × Except String String) := do
  try
    let text ← IO.FS.readFile path
    return (path, .ok text)
  catch
    | .noFileOrDirectory .. => return (path, .error Files.missing)
    | e => return (path, .error (toString e))

/-- Reads the files that the arguments name. -/
def readFiles (args : List String) : IO Files := do
  match Invocation.ofArguments args with
  | .ok { definition := some path, .. } =>
      let definition ← readFile path
      match itemsPath? (filesRead [definition]) path with
      | none => return filesRead [definition]
      | some items => return filesRead [definition, ← readFile items]
  | _ => return filesRead []

end KeysetPaging.Program

open KeysetPaging in
/-- Runs the program. -/
def main (args : List String) : IO UInt32 := do
  let files ← Program.readFiles args
  let override ← IO.getEnv Settings.overrideName
  let directives ← IO.getEnv "RUST_LOG"
  let ending := CommandLine.Ending.ofArguments args files override (directives.getD "")
  IO.print ending.out
  for line in ending.log do
    IO.eprintln line
  if let some complaint := ending.complaint then
    IO.eprintln complaint
  return ending.code
