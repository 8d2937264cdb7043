import KeysetPaging.Proofs.Order
import KeysetPaging.Proofs.Sql.Meaning
import Mathlib.Data.List.Nodup

/-! # A database in memory

Rows that are kept in a list make a database that serves: it reads each query, sorts what the query
asks for and cuts it off. Its values may be bookmarks, which are compared as keys are.
-/

namespace KeysetPaging.Sql

open Std

variable {σ : Type} {D : Domain}

/-! ## Orders of rows -/

/-- A column puts values and null into one order, wherever null comes in it. -/
theorem SortKey.transCmp [TransCmp D.compare] (key : SortKey) :
    TransCmp fun a b : Option D.Cell => key.compare a b where
  eq_swap {a b} := by
    have hvalues := key.direction.transCmp_apply D.compare
    cases a <;> cases b
    case some.some a b => exact hvalues.eq_swap
    all_goals cases hnulls : key.nullsFirst <;> simp [compare, hnulls]
  isLE_trans {a b c} hab hbc := by
    have hvalues := key.direction.transCmp_apply D.compare
    cases a <;> cases b <;> cases c
    case some.some.some a b c => exact hvalues.isLE_trans hab hbc
    all_goals cases hnulls : key.nullsFirst <;> simp_all [compare]

/-- Several columns put rows into one order. -/
theorem transCmp_compareRows [TransCmp D.compare] :
    ∀ keys : List SortKey, TransCmp fun r s : Row D => compareRows r s keys
  | [] => { eq_swap := rfl, isLE_trans := fun _ _ => rfl }
  | key :: keys => by
    have := key.transCmp (D := D)
    have := transCmp_on (fun a b : Option D.Cell => key.compare a b)
      fun row : Row D => row.cell key.column
    have := transCmp_compareRows keys
    exact inferInstanceAs (TransCmp (compareLex
      (fun r s : Row D => key.compare (r.cell key.column) (s.cell key.column))
      fun r s => compareRows r s keys))

/-! ## Queries over a list of rows -/

/-- The rows that a statement asks for, in its order and cut off at its limit. Rows that are level
stay in the order in which they are kept. -/
def Statement.found (statement : Statement) (rows : List (Row D)) : List (Row D) :=
  (rows.filter statement.selects).mergeSort fun r s => compareRows r s statement.keys != .gt

/-- A connection to a database that keeps the rows of a base in a list. -/
def Connection.ofRows (σ : Type) (base : Base) (rows : List (Row D)) : Connection σ where
  batch _ := pure (.ok ())
  select text values := pure <|
    match readStatement (text.toList.drop base.opening.length) values with
    | none => .error "syntax error"
    | some statement =>
        .ok (((statement.found rows).take statement.limit).map fun row => .ok row.text)

/-- **A list of rows can be served.** -/
theorem Connection.ofRows_serves [TransCmp D.compare] (σ : Type) (source : RowSource)
    (rows : List (Row D)) : (ofRows σ source.base rows).Serves source rows := by
  intro place limit query tail statement _ _ htext hstatement
  have := transCmp_compareRows (D := D) statement.keys
  refine .pure ?_
  rw [htext, String.toList_ofList, List.drop_left, hstatement]
  exact ⟨statement.found rows, List.mergeSort_perm _ _, pairwise_mergeSort _ _, rfl⟩

/-! ## Keys as values -/

/-- The instant that a number of microseconds is, if it lies in the calendar. -/
def instantOfMicros? (micros : Int) : Option Instant :=
  Instant.ofParts? (micros / 1000000) (micros % 1000000 * 1000).toNat

/-- The values that keys are made of, compared as they are in keys. -/
def Domain.ofKeys : Domain where
  Cell := Bookmark
  compare := Bookmark.compare
  ofValue
    | .null => none
    | .boolean b => some (.bool b)
    | .bigint i => some (.int i)
    | .text s => some (.text s)
    | .timestamp micros => some (((instantOfMicros? micros).map .time).getD .null)
  ofValue_eq_none value := by cases value <;> simp

instance : TransCmp Domain.ofKeys.compare :=
  inferInstanceAs (TransCmp Bookmark.compare)

/-- What stands in a column for a part of a key. -/
def cellOf : Bookmark → Option Domain.ofKeys.Cell
  | .null => none
  | b => some b

theorem cellOf_eq_none {b : Bookmark} : cellOf b = none ↔ b = .null := by
  cases b <;> simp [cellOf]

theorem cellOf_eq_some {a b : Bookmark} (h : cellOf b = some a) : b = a := by
  cases b <;> first | exact Option.some.inj h | cases h

/-- The row of a text: in each column stands what the field of that name reads there. -/
def Row.ofText (fields : List SortField) (text : String) : Row .ofKeys where
  text
  cell column := do
    let field ← fields.find? (·.name = column)
    let item ← Json.read? text
    (field.bookmarkFor item).toOption.bind cellOf

/-- In the column of a field stands the part of the key that the field reads. -/
theorem Row.ofText_cell {fields : List SortField} (hnames : (fields.map (·.name)).Nodup)
    {field : SortField} (hfield : field ∈ fields) {text : String} {item : Json} {part : Bookmark}
    (hitem : Json.read? text = some item) (hpart : field.bookmarkFor item = .ok part) :
    (ofText fields text).cell field.name = cellOf part := by
  have hfind : fields.find? (·.name = field.name) = some field := by
    cases hfind : fields.find? (·.name = field.name) with
    | none => simpa using List.find?_eq_none.mp hfind field hfield
    | some other =>
      have hname : other.name = field.name := by simpa using List.find?_some hfind
      rw [List.inj_on_of_nodup_map hnames (List.mem_of_find?_eq_some hfind) hfield hname]
  simp [ofText, hfind, hitem, hpart, Except.toOption]

end KeysetPaging.Sql
