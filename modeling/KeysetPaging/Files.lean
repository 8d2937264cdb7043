import KeysetPaging.Text.Parts

/-! # Paths and files

A path is a text of names between slashes. Files are whatever answers a path with a text, or with
the reason why there is none.
-/

namespace KeysetPaging

/-- The texts at the paths of files, or why there is none. -/
abbrev Files := (path : String) → Except String String

namespace Path

/-- The path starts at the root. -/
def isAbsolute (path : String) : Bool :=
  path.toList.head? = some '/'

/-- Drops what stands for nothing at the end of a reversed path: slashes, and full stops that
are a name of their own. -/
def trimReversed : List Char → List Char
  | ['/'] => ['/']
  | '/' :: rest => trimReversed rest
  | '.' :: '/' :: rest => trimReversed ('/' :: rest)
  | cs => cs
termination_by cs => cs.length

/-- The directory of a path. The root and the empty path have none. -/
def parent? (path : String) : Option String :=
  match trimReversed path.toList.reverse with
  | [] => none
  | ['/'] => none
  | cs =>
      let rest := cs.dropWhile (· ≠ '/')
      some (String.ofList (trimReversed rest).reverse)

/-- A path that is relative to a directory, from where the directory is named. -/
def join (directory path : String) : String :=
  if isAbsolute path || directory = "" then path
  else if directory.toList.getLast? = some '/' then directory ++ path
  else directory ++ "/" ++ path

end Path

namespace Files

/-- Why a path that leads nowhere cannot be read. -/
def missing : String := "No such file or directory (os error 2)"

/-- Why a directory cannot be read. -/
def directory : String := "Is a directory (os error 21)"

/-- Why a path through a file cannot be read. -/
def notDirectory : String := "Not a directory (os error 20)"

/-- The names of a path. -/
def names (path : String) : List String :=
  (Text.cutAt '/' path.toList).map String.ofList

/-- Follows names through a directory with the given files. `inside` is where the walk has come
to, the last name first. -/
def walk (entries : List (List String × String)) :
    (inside : List String) → List String → Except String String
  | _, [] => .error directory
  | inside, name :: rest =>
      if name = "" || name = "." then walk entries inside rest
      else if name = ".." then
        match inside with
        | [] => .error missing
        | _ :: inside => walk entries inside rest
      else
        let here := (name :: inside).reverse
        match entries.find? fun entry => entry.1 = here with
        | some entry => if rest.isEmpty then .ok entry.2 else .error notDirectory
        | none =>
            if entries.any fun entry => here.isPrefixOf entry.1 then
              walk entries (name :: inside) rest
            else .error missing

/-- The files of one directory, and none elsewhere. -/
def ofDirectory (root : String) (files : List (String × String)) : Files := fun path =>
  let entries := files.map fun file => ((names file.1).filter fun n => n ≠ "" ∧ n ≠ ".", file.2)
  let under := names root
  let path := names path
  if under.isPrefixOf path then walk entries [] (path.drop under.length) else .error missing

end Files

end KeysetPaging
