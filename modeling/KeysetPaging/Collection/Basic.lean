import KeysetPaging.Bookmarker
import KeysetPaging.Collection.Filter
import KeysetPaging.Collection.Merge
import KeysetPaging.Source.Items

/-! # Collections

A collection is a sequence of items that is read page by page. It is a source with its bookmarker,
or it is built from other collections: filtered, transformed, put one after another, or merged.
All that a page needs to know of the pages before it is in its bookmark.
-/

namespace KeysetPaging

mutual

/-- A collection of items of a type, over sources whose state is `σ`. -/
inductive Collection (σ : Type) : Type → Type 1 where
  | leaf {α : Type} (bookmarker : Bookmarker α) (source : Source σ α) : Collection σ α
  | filter {α : Type} (inner : Collection σ α) (keep : α → Bool) (options : FilterOptions) :
      Collection σ α
  | transform {α β : Type} (inner : Collection σ α) (f : α → β) : Collection σ β
  | concat {α : Type} (sources : Sources σ α) : Collection σ α
  | merge {α : Type} (sources : Sources σ α) (direction : Direction) : Collection σ α

/-- Labelled collections in a row. -/
inductive Sources (σ : Type) : Type → Type 1 where
  | nil {α : Type} : Sources σ α
  | cons {α : Type} (label : String) (collection : Collection σ α) (rest : Sources σ α) :
      Sources σ α

end

namespace Sources

variable {σ α : Type}

/-- The row of a list of labelled collections. -/
def ofList : List (String × Collection σ α) → Sources σ α
  | [] => .nil
  | (label, collection) :: rest => .cons label collection (ofList rest)

/-- The labels in their order. -/
def labels {α : Type} : Sources σ α → List String
  | .nil => []
  | .cons label _ rest => label :: rest.labels

/-- The label of the first collection. -/
def firstLabel? : Sources σ α → Option String
  | .nil => none
  | .cons label _ _ => some label

end Sources

/-- What is wrong with the labels of a joint: the first that is empty or repeats one of `seen`. -/
def badLabel? (joint : Joint) (seen : List String) : List String → Option ConfigFault
  | [] => none
  | label :: rest =>
      if label = "" then some (.emptyLabel joint)
      else if seen.contains label then some (.repeatedLabel joint label)
      else badLabel? joint (label :: seen) rest

/-- Refuses labels that are empty or repeat, and a joint of nothing. -/
def checkLabels (joint : Joint) (labels : List String) : Except Error Unit :=
  match badLabel? joint [] labels with
  | some fault => .error (.config fault)
  | none => if labels.isEmpty then .error (.config (.noCollections joint)) else .ok ()

namespace Collection

variable {σ α : Type}

/-- Collections one after another. -/
def concat? (sources : List (String × Collection σ α)) : Except Error (Collection σ α) :=
  (checkLabels .concat (sources.map (·.1))).map fun _ => .concat (.ofList sources)

/-- Collections interleaved by the order of their bookmarks. -/
def merge? (sources : List (String × Collection σ α)) (direction : Direction) :
    Except Error (Collection σ α) :=
  (checkLabels .merge (sources.map (·.1))).map fun _ => .merge (.ofList sources) direction

/-- A list of items as a collection. -/
def ofItems? (bookmarker : Bookmarker α) (items : List α) : Except Error (Collection σ α) :=
  (ItemList.ofItems? bookmarker items).map fun list => .leaf bookmarker list.source

end Collection

mutual

/-- A bookmark is a place in this collection. -/
def Collection.accepts {σ : Type} : {α : Type} → Collection σ α → Bookmark → Bool
  | _, .leaf bookmarker _, b => bookmarker.accepts b
  | _, .filter inner _ _, b => inner.accepts b
  | _, .transform inner _, b => inner.accepts b
  | _, .concat sources, b =>
      match b with
      | .concat label position => sources.accepts label position
      | _ => false
  | _, .merge sources _, b =>
      match b with
      | .merge positions => positions.all fun position => sources.accepts position.1 position.2
      | _ => false

/-- A row has a collection of this label, and the place is one in it. -/
def Sources.accepts {σ : Type} :
    {α : Type} → Sources σ α → (label : String) → Option Bookmark → Bool
  | _, .nil, _, _ => false
  | _, .cons label collection rest, wanted, position =>
      if label = wanted then
        match position with
        | none => true
        | some b => collection.accepts b
      else rest.accepts wanted position

end

end KeysetPaging
