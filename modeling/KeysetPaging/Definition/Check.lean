import KeysetPaging.Definition.Basic

/-! # Checking a definition

A definition that can be read may still make no sense. The first thing that is wrong with it, in
the order of its parts, is the fault that is named.
-/

namespace KeysetPaging.Definition

/-- A text has characters that are not blank. -/
def isFilled (s : String) : Bool :=
  !(Text.trim s).isEmpty

/-- What is wrong with the names of sort fields, after the given ones. -/
def sortFault? (collection : String) (seen : List String) : List SortField → Option ConfigFault
  | [] => none
  | field :: rest =>
      if field.name = "" then some (.unnamedSortField collection)
      else if seen.contains field.name then some (.repeatedSortField collection field.name)
      else sortFault? collection (field.name :: seen) rest

/-- What is wrong with a source. -/
def sourceFault? (definition : Definition) : Option ConfigFault :=
  match definition.source with
  | .file path => if path = "" then some (.noItemsPath definition.name) else none
  | .inline _ => none
  | .database _ table query _ =>
      let chosen := match table, query with
        | some table, none => isFilled table
        | none, some query => isFilled query
        | _, _ => false
      if !chosen then some (.tableOrQuery definition.name)
      else (definition.sort.find? fun f => f.name.toList.contains '.').map fun field =>
        .dottedColumn definition.name field.name

/-- What is wrong with a filter. -/
def filterFault? (collection : String) (filter : FilterDefinition) : Option ConfigFault :=
  if filter.field = "" then some (.noFilterField collection)
  else if filter.equals.isSome = filter.notEquals.isSome then some (.oneComparison collection)
  else none

/-- What is wrong with the list of fields that are shown. -/
def selectFault? (collection : String) (paths : List String) : Option ConfigFault :=
  if paths.isEmpty || paths.contains "" then some (.emptySelection collection) else none

/-- What is wrong with settings. -/
def settingsFault? (collection : String) (settings : Settings) : Option ConfigFault :=
  if settings.filterMaxRounds = 0 || settings.filterMaxFetch = 0 then
    some (.zeroLimit collection)
  else none

/-- The first thing that is wrong with a definition. -/
def fault? (definition : Definition) : Option ConfigFault :=
  if !isFilled definition.name then some .emptyName
  else if definition.sort.isEmpty then some (.noSortFields definition.name)
  else
    (sortFault? definition.name [] definition.sort).or <|
    definition.sourceFault?.or <|
    (definition.filter.bind (filterFault? definition.name)).or <|
    (definition.select.bind (selectFault? definition.name)).or <|
    settingsFault? definition.name definition.settings

/-- Refuses a definition that makes no sense. -/
def check (definition : Definition) : Except Error Unit :=
  match definition.fault? with
  | some fault => .error (.config fault)
  | none => .ok ()

end KeysetPaging.Definition
