import KeysetPaging.Proofs.Sql.Binding

/-! # Strictly after a key

The condition of a page and the order of its rows are two parts of one text, which are written apart
and are read apart. What they say fits: the condition is true of the rows that come strictly after
the bound values in the order of that text, whatever stands in their columns. Where a database
compares values as the parts of keys are compared, these are the rows with a key after the key that
was bound.
-/

namespace KeysetPaging.Sql

open Std

variable {D : Domain}

/-! ## Columns and parts of keys -/

/-- What two columns hold stands for parts of keys: it is null where the part is, and what is not
null is in the order of the parts. -/
structure StandFor (c d : Option D.Cell) (p q : Bookmark) : Prop where
  left_null : c = none ↔ p = .null
  right_null : d = none ↔ q = .null
  compare_eq : ∀ a ∈ c, ∀ b ∈ d, D.compare a b = Bookmark.compare p q

/-- Columns are in the order of the parts that they stand for, wherever null comes in it. -/
theorem StandFor.compare {c d : Option D.Cell} {p q : Bookmark} (h : StandFor c d p q)
    (field : SortField) : (SortKey.ofField field).compare c d = field.direction.order p q := by
  rw [Direction.order]
  cases c with
  | none =>
    obtain rfl := h.left_null.mp rfl
    cases d with
    | none =>
      obtain rfl := h.right_null.mp rfl
      have hlevel : field.direction.order .null .null = .eq := ReflCmp.compare_self
      rw [Direction.order] at hlevel
      rw [hlevel]
      rfl
    | some b =>
      rw [Bookmark.null_compare (mt h.right_null.mpr (Option.some_ne_none b))]
      cases hdirection : field.direction <;>
        simp [SortKey.compare, SortKey.ofField, Direction.isDescending, Direction.apply, hdirection]
  | some a =>
    cases d with
    | none =>
      obtain rfl := h.right_null.mp rfl
      rw [Bookmark.compare_null (mt h.left_null.mpr (Option.some_ne_none a))]
      cases hdirection : field.direction <;>
        simp [SortKey.compare, SortKey.ofField, Direction.isDescending, Direction.apply, hdirection]
    | some b =>
      rw [← h.compare_eq a rfl b rfl]
      rfl

/-- A column holds a part of the key of its row. It is null where the part is, and it compares with
the value that is bound for a part of another key as the two parts compare. -/
structure Row.Holds (row : Row D) (part : Bookmark) (field : SortField) (other : Bookmark) :
    Prop where
  null_iff : row.cell field.name = none ↔ part = .null
  compare_eq : ∀ value, Value.ofBookmark field other = .ok value →
    ∀ a ∈ row.cell field.name, ∀ b ∈ D.ofValue value, D.compare a b = Bookmark.compare part other

/-- Only for null is null bound. -/
theorem Value.eq_null_iff_of_ofBookmark {field : SortField} {b : Bookmark} {value : Value}
    (h : ofBookmark field b = .ok value) : value = .null ↔ b = .null := by
  cases b with
  | null | bool | int | text | time =>
    obtain rfl := Except.ok.inj h
    simp
  | tuple | concat | merge => cases h

/-- What a column holds and what is bound stand for the parts of the two keys. -/
theorem Row.Holds.standFor {row : Row D} {part other : Bookmark} {field : SortField} {value : Value}
    (h : row.Holds part field other) (hvalue : Value.ofBookmark field other = .ok value) :
    StandFor (row.cell field.name) (D.ofValue value) part other where
  left_null := h.null_iff
  right_null := by rw [D.ofValue_eq_none, Value.eq_null_iff_of_ofBookmark hvalue]
  compare_eq := h.compare_eq value hvalue

/-! ## Rows and keys -/

/-- The place of a row beside a list of values, one for each of its columns and the first of them
first. -/
def Row.compareValues (row : Row D) : List SortKey → List Value → Ordering
  | key :: keys, value :: values =>
      (key.compare (row.cell key.column) (D.ofValue value)).then (row.compareValues keys values)
  | _, _ => .eq

/-- A row stands beside a key where it stands beside the values of the key. -/
theorem Bound.compareAll_eq_compareValues (row : Row D) : ∀ bounds : List Bound,
    compareAll row bounds
      = row.compareValues (bounds.map fun bound => .ofField bound.field) (bounds.map (·.value))
  | [] => rfl
  | bound :: rest => by
    rw [compareAll, compareAll_eq_compareValues row rest]
    rfl

/-- A row whose columns hold a key stands beside bound values as its key beside theirs. -/
theorem Bound.compareAll_eq_compareFields {row : Row D} : ∀ {bounds : List Bound}
    {key parts : List Bookmark},
    List.Forall₂ (fun bound part => Value.ofBookmark bound.field part = .ok bound.value) bounds
      parts →
    List.Forall₂ (fun part p => row.Holds part p.1 p.2) key ((bounds.map (·.field)).zip parts) →
      compareAll row bounds = Bookmarker.compareFields (bounds.map (·.field)) key parts
  | _, _, _, .nil, .nil => rfl
  | _, _, _, .cons hvalue hvalues, .cons hpart hparts => by
    rw [List.map_cons, compareAll, Bookmarker.compareFields_cons,
      compareAll_eq_compareFields hvalues hparts]
    exact congrArg (Ordering.then · _) ((hpart.standFor hvalue).compare _)

/-- The values of a key are those that are bound for its parts. -/
theorem mapM_ofBookmark : ∀ {bounds : List Bound} {parts : List Bookmark},
    List.Forall₂ (fun bound part => Value.ofBookmark bound.field part = .ok bound.value) bounds
      parts →
    ((bounds.map (·.field)).zip parts).mapM (fun p => Value.ofBookmark p.1 p.2)
      = .ok (bounds.map (·.value))
  | _, _, .nil => rfl
  | _, _, .cons hvalue hvalues => by
    have hrest := mapM_ofBookmark hvalues
    rw [mapM_eq_ok_iff] at hrest ⊢
    exact .cons hvalue hrest

/-- **The condition of a page is strictly after its key.** For every key with a single value for
each field there is a query. Its text and its values are read back as a condition, columns to sort
by and a limit, and the condition is true of a row exactly when the row comes strictly after the
bound values in the order of those columns. Where the columns of the row hold a key of its own, that
is when this key comes after the other. -/
theorem RowSource.condition_iff_after (base : Base) {fields : List SortField}
    (hfields : fields ≠ []) {b : Bookmark}
    (hparts : List.Forall₂ (fun _ part => part.isScalar) fields b.keyParts)
    (limit : Nat) :
    ∃ (query : Query) (statement : Statement) (condition : Formula) (values : List Value),
      query? ⟨base, fields⟩ (some b) limit = .ok query ∧
      query.text = String.ofList (base.opening ++ query.tail) ∧
      readStatement query.tail query.values = some statement ∧
      statement.condition = some condition ∧
      statement.keys = fields.map SortKey.ofField ∧
      (fields.zip b.keyParts).mapM (fun p => Value.ofBookmark p.1 p.2) = .ok values ∧
      ∀ {D : Domain} (row : Row D),
        (condition.truth row = some true ↔ row.compareValues statement.keys values = .gt) ∧
        ∀ key, List.Forall₂ (fun part p => row.Holds part p.1 p.2) key (fields.zip b.keyParts) →
          (condition.truth row = some true ↔
            (Bookmarker.composite fields).compare (.tuple key) (.tuple b.keyParts) = .gt) := by
  obtain ⟨bounds, hbind, rfl, hvalues⟩ := bind_of_isScalar hparts
  have hbounds : bounds ≠ [] := by simpa using hfields
  let query : Query := ⟨base, bounds.map (·.field), some bounds, min limit maxLimit⟩
  refine ⟨query, query.statement, casesFormula (cases [] bounds), bounds.map (·.value), ?_,
    query.text_eq, readStatement_tail hfields ?_, rfl, rfl, mapM_ofBookmark hvalues,
    fun row => ⟨?_, fun key hkey => ?_⟩⟩
  · rw [query?, hbind]
    rfl
  · rintro _ ⟨⟩
    exact hbounds
  · rw [casesFormula_truth, Bound.compareAll_eq_compareValues]
    simp only [query, Query.statement, List.map_map, Function.comp_def]
  · rw [casesFormula_truth, Bound.compareAll_eq_compareFields hvalues hkey]
    rfl

/-- Values that are kept as parts of keys hold these parts. -/
theorem Row.holds_of_cell {row : Row .ofKeys} {part other : Bookmark} {field : SortField}
    (hcell : row.cell field.name = cellOf part) (hmicros : ∀ t, other = .time t → t.WholeMicros) :
    row.Holds part field other where
  null_iff := by rw [hcell, cellOf_eq_none]
  compare_eq value hvalue a ha b hb := by
    rw [(Value.means_of_ofBookmark hvalue hmicros).ofValue_eq] at hb
    rw [hcell] at ha
    obtain rfl := cellOf_eq_some ha
    obtain rfl := cellOf_eq_some hb
    rfl

/-- Scores run from the highest to the lowest, with those that are missing at the end. -/
def scoreFields : List SortField :=
  [{ name := "score", kind := .integer, nullable := true, direction := .descending },
    { name := "name", kind := .text }]

/-- A row with a name and no score. -/
def unscored (name : String) : Row .ofKeys where
  text := "\x7b\"name\":\"" ++ name ++ "\"\x7d"
  cell column := if column = "name" then some (.text name) else none

/-- A row without a score comes after any score, whatever its name is. -/
theorem RowSource.unscored_after :
    ∃ (query : Query) (statement : Statement) (condition : Formula),
      query? ⟨.table "scores", scoreFields⟩ (some (.tuple [.int 7, .text "dan"])) 3 = .ok query ∧
      readStatement query.tail query.values = some statement ∧
      statement.condition = some condition ∧ condition.truth (unscored "bob") = some true := by
  obtain ⟨query, statement, condition, values, hquery, -, hread, hcondition, -, -, hrows⟩ :=
    condition_iff_after (.table "scores") (show scoreFields ≠ [] by simp [scoreFields])
      (b := .tuple [.int 7, .text "dan"]) (.cons rfl (.cons rfl .nil)) 3
  have hholds : List.Forall₂ (fun part p => (unscored "bob").Holds part p.1 p.2)
      [.null, .text "bob"] (scoreFields.zip [.int 7, .text "dan"]) :=
    .cons (Row.holds_of_cell rfl (by simp)) (.cons (Row.holds_of_cell rfl (by simp)) .nil)
  have hafter : Bookmarker.compareFields scoreFields [.null, .text "bob"] [.int 7, .text "dan"]
      = .gt := by
    rw [scoreFields, Bookmarker.compareFields_cons, Direction.order, Bookmark.null_compare (by simp)]
    rfl
  exact ⟨query, statement, condition, hquery, hread, hcondition,
    ((hrows (unscored "bob")).2 _ hholds).mpr hafter⟩

end KeysetPaging.Sql
