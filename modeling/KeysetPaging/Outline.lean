import KeysetPaging.Collection.Basic
import KeysetPaging.Text.Quoted

/-! # Outlines

The outline of a thing is one line for people who look for a fault: the name of its shape and its
telling fields. Two full stops at the end stand for what is not shown.
-/

namespace KeysetPaging.Outline

/-- The outline of a shape with fields. -/
def shape (name : String) (fields : List (String × String)) (more : Bool) : String :=
  let shown := fields.map fun field => field.1 ++ ": " ++ field.2
  let parts := if more then shown ++ [".."] else shown
  name ++ " \x7b " ++ ", ".intercalate parts ++ " \x7d"

/-- The outline of a list. -/
def list (items : List String) : String :=
  "[" ++ ", ".intercalate items ++ "]"

/-- The outline of a row of labels. -/
def labels (names : List String) : String :=
  list (names.map Text.quoted)

end KeysetPaging.Outline

namespace KeysetPaging

/-- The outline of a sort field. -/
def SortField.outline (field : SortField) : String :=
  Outline.shape "SortField" [("name", Text.quoted field.name), ("kind", field.kind.label),
    ("nullable", toString field.nullable), ("direction", field.direction.label)] false

/-- The outline of the options of a filter. -/
def FilterOptions.outline (options : FilterOptions) : String :=
  Outline.shape "FilterOptions" [("mode", options.mode.label),
    ("max_rounds", toString options.maxRounds), ("max_fetch", toString options.maxFetch)] false

/-- The outline of a list of items. -/
def ItemList.outline {α : Type} (list : ItemList α) : String :=
  Outline.shape "VecSource" [("len", toString list.entries.length)] true

/-- The outline of a bookmarker that computes its keys. -/
def Bookmarker.keyOutline (direction : Direction) (ownCheck : Bool) : String :=
  Outline.shape "KeyBookmarker" [("direction", direction.label),
    ("custom_validator", toString ownCheck)] true

/-- The outline of a collection. -/
def Collection.outline {σ : Type} : {α : Type} → Collection σ α → String
  | _, .leaf _ _ => Outline.shape "Proxy" [] true
  | _, .filter inner _ options =>
      Outline.shape "Filter" [("inner", inner.outline), ("options", options.outline)] true
  | _, .transform inner _ => Outline.shape "Transform" [("inner", inner.outline)] true
  | _, .concat sources =>
      Outline.shape "Concat" [("sources", Outline.labels sources.labels)] false
  | _, .merge sources direction =>
      Outline.shape "Merge" [("sources", Outline.labels sources.labels),
        ("direction", direction.label)] false

end KeysetPaging
