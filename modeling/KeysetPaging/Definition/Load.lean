import KeysetPaging.Definition.Check
import KeysetPaging.Definition.Form
import KeysetPaging.Files
import KeysetPaging.Journal
import KeysetPaging.Yaml.Reader

/-! # Loading a definition

The text of a definition is read and checked. In a definition that comes from a file, the path of
the items is taken from where that file stands.
-/

namespace KeysetPaging

/-- The source with the path of its items taken from a directory. -/
def SourceDefinition.from (directory : String) : SourceDefinition → SourceDefinition
  | .file path => .file (Path.join directory path)
  | source => source

namespace Definition

/-- Reads and checks the text of a definition. -/
def ofText? (text : String) : Except Error Definition :=
  match (Yaml.readDocument text).bind ofDocument? with
  | none => .error (.config .malformedDefinition)
  | some definition => definition.check.map fun _ => definition

/-- Loads the definition at a path. -/
def load {σ : Type} (files : Files) (path : String) : Run σ (Except Error Definition) :=
  match files path with
  | .error reason => pure (.error (.config (.unreadableDefinition path reason)))
  | .ok text =>
      match ofText? text with
      | .error e => pure (.error e)
      | .ok definition => do
          let source := match Path.parent? path with
            | some directory => definition.source.from directory
            | none => definition.source
          Run.note (.definitionLoaded definition.name path)
          return .ok { definition with source }

end Definition

end KeysetPaging
