import KeysetPaging.Proofs.Run
import KeysetPaging.Proofs.Sql.Reading
import KeysetPaging.Sql.Source
import Mathlib.Tactic.SplitIfs

/-! # What a query asks for

A database compares values that are not null, and a comparison with null is neither true nor false.
A query keeps the rows of its base for which its condition is true, sorts them by its columns and
cuts them to its limit. Rows that are level may come in any order. The condition of a page is true
of a row exactly when the row stands strictly after the key, in the order in which the same query
sorts its rows.
-/

namespace KeysetPaging.Sql

/-! ## Values and rows -/

/-- The values of a database that are not null: how they compare, and which of them a bound value
is. -/
structure Domain where
  Cell : Type
  compare : Cell → Cell → Ordering
  ofValue : Value → Option Cell
  ofValue_eq_none : ∀ value, ofValue value = none ↔ value = .null

/-- A row of a base: its text as one JSON object, and what stands in its columns. -/
structure Row (D : Domain) where
  text : String
  cell : String → Option D.Cell

/-- A truth value of a query: true, false, or unknown. -/
abbrev Truth := Option Bool

namespace Truth

/-- Conjunction. One side that is false decides it. -/
def and : Truth → Truth → Truth
  | some false, _ | _, some false => some false
  | some true, some true => some true
  | _, _ => none

/-- Disjunction. One side that is true decides it. -/
def or : Truth → Truth → Truth
  | some true, _ | _, some true => some true
  | some false, some false => some false
  | _, _ => none

theorem and_eq_true {a b : Truth} : a.and b = some true ↔ a = some true ∧ b = some true := by
  rcases a with - | - | - <;> rcases b with - | - | - <;> simp [and]

theorem or_eq_true {a b : Truth} : a.or b = some true ↔ a = some true ∨ b = some true := by
  rcases a with - | - | - <;> rcases b with - | - | - <;> simp [or]

end Truth

variable {D : Domain}

/-- A comparison of two values. It is unknown when one of them is null. -/
def Domain.compared (D : Domain) (holds : Ordering → Bool) : Option D.Cell → Option D.Cell → Truth
  | some a, some b => some (holds (D.compare a b))
  | _, _ => none

/-- Two values are the same, where null is the same as null. -/
def Domain.notDistinct (D : Domain) : Option D.Cell → Option D.Cell → Truth
  | some a, some b => some (D.compare a b == .eq)
  | none, none => some true
  | _, _ => some false

/-- What a test says of a row. -/
def Test.truth (row : Row D) : Test → Truth
  | .never => some false
  | .always => some true
  | .absent column => some (row.cell column).isNone
  | .present column => some (row.cell column).isSome
  | .same column value => D.notDistinct (row.cell column) (D.ofValue value)
  | .above column value => D.compared (· == .gt) (row.cell column) (D.ofValue value)
  | .below column value => D.compared (· == .lt) (row.cell column) (D.ofValue value)

/-- What a condition says of a row. -/
def Formula.truth (row : Row D) : Formula → Truth
  | .test t => t.truth row
  | .and f g => (f.truth row).and (g.truth row)
  | .or f g => (f.truth row).or (g.truth row)

namespace Formula

variable {row : Row D}

/-- Conditions hold together when each of them holds. -/
theorem truth_all {fs : List Formula} :
    (all fs).truth row = some true ↔ ∀ f ∈ fs, f.truth row = some true := by
  have hfold : ∀ (fs : List Formula) (f : Formula), (fs.foldl Formula.and f).truth row = some true ↔
      f.truth row = some true ∧ ∀ g ∈ fs, g.truth row = some true := by
    intro fs
    induction fs with
    | nil => simp
    | cons g fs ih =>
      intro f
      rw [List.foldl_cons, ih, truth, Truth.and_eq_true, List.forall_mem_cons, and_assoc]
  cases fs with
  | nil => simp [all, truth, Test.truth]
  | cons f fs => rw [all, hfold, List.forall_mem_cons]

/-- Of conditions one holds when some of them does. -/
theorem truth_any {fs : List Formula} :
    (any fs).truth row = some true ↔ ∃ f ∈ fs, f.truth row = some true := by
  have hfold : ∀ (fs : List Formula) (f : Formula), (fs.foldl Formula.or f).truth row = some true ↔
      f.truth row = some true ∨ ∃ g ∈ fs, g.truth row = some true := by
    intro fs
    induction fs with
    | nil => simp
    | cons g fs ih =>
      intro f
      rw [List.foldl_cons, ih, truth, Truth.or_eq_true, List.exists_mem_cons_iff, or_assoc]
  cases fs with
  | nil => simp [any, truth, Test.truth]
  | cons f fs => rw [any, hfold, List.exists_mem_cons_iff]

end Formula

/-! ## Orders and answers -/

namespace SortKey

/-- The order of two rows in one column, by what stands there. -/
def compare (key : SortKey) : Option D.Cell → Option D.Cell → Ordering
  | none, none => .eq
  | none, some _ => if key.nullsFirst then .lt else .gt
  | some _, none => if key.nullsFirst then .gt else .lt
  | some a, some b => key.direction.apply (D.compare a b)

/-- Two rows are level in a column when they have the same there. -/
theorem compare_eq_eq {key : SortKey} {a b : Option D.Cell} :
    key.compare a b = .eq ↔ D.notDistinct a b = some true := by
  cases a with
  | none => cases b <;> cases hnulls : key.nullsFirst <;>
      simp [compare, Domain.notDistinct, hnulls]
  | some a =>
    cases b with
    | none => cases hnulls : key.nullsFirst <;> simp [compare, Domain.notDistinct, hnulls]
    | some b => cases hdirection : key.direction <;>
        simp [compare, Domain.notDistinct, Direction.apply, hdirection]

end SortKey

/-- The order of two rows by several columns, the first of them first. -/
def compareRows (r s : Row D) : List SortKey → Ordering
  | [] => .eq
  | key :: keys => (key.compare (r.cell key.column) (s.cell key.column)).then (compareRows r s keys)

namespace Statement

/-- The statement asks for this row. -/
def selects (statement : Statement) (row : Row D) : Bool :=
  statement.condition.all fun f => f.truth row == some true

/-- An answer to a statement over rows: those it asks for, in its order, cut to its limit. -/
def Answers (statement : Statement) (rows : List (Row D)) (answer : Rows) : Prop :=
  ∃ found : List (Row D), found.Perm (rows.filter statement.selects) ∧
    found.Pairwise (fun r s => compareRows r s statement.keys ≠ .gt) ∧
    answer = .ok ((found.take statement.limit).map fun row => .ok row.text)

end Statement

/-- A connection answers the queries that a source sends as the statements that they end in. Nothing
is asked of it for other texts, for columns that are none of the sort fields, for places that the
source does not accept or for limits above the largest. -/
def Connection.Serves {σ : Type} (connection : Connection σ) (source : RowSource)
    (rows : List (Row D)) : Prop :=
  ∀ place limit query tail statement,
    (∀ b ∈ place, (Bookmarker.ofFields source.fields).accepts b) →
    source.query? place limit = .ok query →
    query.text = String.ofList (source.base.opening ++ tail) →
    readStatement tail query.values = some statement →
      Run.Ensures (connection.select query.text query.values) (statement.Answers rows)

/-! ## The keyset condition -/

namespace Bound

/-- The place of a row beside a key in one field. -/
def compare (row : Row D) (bound : Bound) : Ordering :=
  (SortKey.ofField bound.field).compare (row.cell bound.field.name) (D.ofValue bound.value)

/-- The place of a row beside a key. -/
def compareAll (row : Row D) : List Bound → Ordering
  | [] => .eq
  | bound :: rest => (bound.compare row).then (compareAll row rest)

variable {row : Row D}

/-- A row agrees with a key in a field when it stands level with it there. -/
theorem same_truth {bound : Bound} :
    bound.same.formula.truth row = some true ↔ bound.compare row = .eq :=
  SortKey.compare_eq_eq.symm

/-- After a value that is not null stands what is larger in an ascending field, and what is smaller
or null in a descending one. -/
theorem after_of_ne_null {field : SortField} {value : Value} (hvalue : value ≠ .null) :
    after ⟨field, value⟩ = match field.direction with
      | .ascending => .above field.name value
      | .descending => .belowOrNull field.name value := by
  cases hdirection : field.direction <;> cases value <;> simp_all [after]

/-- A row is after a key in a field when it stands after it there. -/
theorem after_truth {bound : Bound} :
    bound.after.formula.truth row = some true ↔ bound.compare row = .gt := by
  obtain ⟨field, value⟩ := bound
  rw [compare]
  by_cases hvalue : value = .null
  · subst hvalue
    rw [(D.ofValue_eq_none .null).mpr rfl]
    -- Only in an ascending field something stands after null, which is every value.
    cases hdirection : field.direction <;> cases hcell : row.cell field.name <;>
      simp [after, Condition.formula, Formula.truth, Test.truth, SortKey.compare, SortKey.ofField,
        Direction.isDescending, hdirection, hcell]
  · obtain ⟨b, hb⟩ := Option.ne_none_iff_exists'.mp (mt (D.ofValue_eq_none value).mp hvalue)
    rw [after_of_ne_null hvalue, hb]
    cases hdirection : field.direction with
    | ascending =>
      cases hcell : row.cell field.name <;>
        simp [Condition.formula, Formula.truth, Test.truth, SortKey.compare, SortKey.ofField,
          Direction.isDescending, Direction.apply, Domain.compared, hdirection, hcell, hb]
    | descending =>
      cases hcell : row.cell field.name <;>
        simp [Condition.formula, Formula.truth, Test.truth, Truth.or_eq_true, SortKey.compare,
          SortKey.ofField, Direction.isDescending, Direction.apply, Domain.compared, hdirection,
          hcell, hb]

end Bound

/-- A case of a keyset condition holds when the conditions before it hold and the row is after the
key. -/
theorem exists_case {row : Row D} : ∀ {before : List Condition} {bounds : List Bound},
    (∃ conditions ∈ cases before bounds, ∀ c ∈ conditions, c.formula.truth row = some true) ↔
      (∀ c ∈ before, c.formula.truth row = some true) ∧ Bound.compareAll row bounds = .gt
  | before, [] => by simp [cases, Bound.compareAll]
  | before, bound :: rest => by
    rw [cases, List.exists_mem_cons_iff, exists_case,
      Bound.compareAll, Ordering.then_eq_gt]
    simp only [List.forall_mem_append, List.forall_mem_singleton, Bound.same_truth,
      Bound.after_truth]
    -- Either this field decides, or the row agrees in it and a later one does.
    rw [and_assoc, ← and_or_left]

/-- **The keyset condition is strictly after.** It is true of a row exactly when the row stands
after the key, field by field in the order in which the query sorts its rows. -/
theorem casesFormula_truth {row : Row D} {bounds : List Bound} :
    (casesFormula (cases [] bounds)).truth row = some true ↔ Bound.compareAll row bounds = .gt := by
  have hcase : (∃ conditions ∈ cases [] bounds,
      ∀ c ∈ conditions, c.formula.truth row = some true) ↔
        (∀ c ∈ ([] : List Condition), c.formula.truth row = some true) ∧
          Bound.compareAll row bounds = .gt := exists_case
  rw [casesFormula, Formula.truth_any]
  simpa [Formula.truth_all] using hcase

end KeysetPaging.Sql
