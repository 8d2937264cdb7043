import KeysetPaging.Proofs.Following
import KeysetPaging.Proofs.Sql.After
import Mathlib

/-! # Rows of a database and lists of items give the same pages

The rows of a base are also a list of items. A database that compares what stands in its columns as
the parts of keys are compared sorts the rows as the list is sorted, and the rows for which the
condition of a page is true are those that the list has after the place. So both give the same page,
although one asks a query for one row more than fits and the other searches a sorted list.
-/

namespace KeysetPaging

/-- A field is a column: its name is not empty, and no path into a value. -/
def SortField.IsColumn (field : SortField) : Prop :=
  field.name ≠ "" ∧ '.' ∉ field.name.toList

namespace Sql

open Std

variable {σ : Type} {D : Domain}

/-! ## Comparisons that agree -/

/-- What a query compares in the column of a field, with the part of a key that it stands for: the
cell of a row whose item has the part, or the value that is bound for a part of the place. -/
inductive Compared (rows : List (Row D)) (fields : List SortField) (place : Option Bookmark)
    (field : SortField) : Option D.Cell → Bookmark → Prop
  | cell {row : Row D} {item : Json} {part : Bookmark} (hrow : row ∈ rows)
      (hitem : Json.read? row.text = some item) (hpart : field.bookmarkFor item = .ok part) :
      Compared rows fields place field (row.cell field.name) part
  | bound {b part : Bookmark} {value : Value} (hplace : b ∈ place)
      (hpart : (field, part) ∈ fields.zip b.keyParts) (hmeans : value.Means part) :
      Compared rows fields place field (D.ofValue value) part

/-- The database agrees with the order of keys: a column is null where the item has null, and what
is not null is compared in it as the parts of keys are. -/
structure Agrees (rows : List (Row D)) (fields : List SortField) (place : Option Bookmark) :
    Prop where
  null_iff : ∀ field ∈ fields, ∀ row ∈ rows, ∀ item part, Json.read? row.text = some item →
    field.bookmarkFor item = .ok part → (row.cell field.name = none ↔ part = .null)
  compare_eq : ∀ field ∈ fields, ∀ a b p q, Compared rows fields place field (some a) p →
    Compared rows fields place field (some b) q → D.compare a b = Bookmark.compare p q

namespace Agrees

variable {rows : List (Row D)} {fields : List SortField} {place : Option Bookmark}

/-- Whatever is compared in a column is null where it stands for null. -/
theorem compared_null_iff (h : Agrees rows fields place) {field : SortField}
    (hfield : field ∈ fields) {cell : Option D.Cell} {part : Bookmark}
    (hcell : Compared rows fields place field cell part) :
    cell = none ↔ part = .null := by
  cases hcell with
  | cell hrow hitem hpart => exact h.null_iff field hfield _ hrow _ _ hitem hpart
  | bound hplace hpart hmeans => rw [D.ofValue_eq_none, hmeans.null_iff]

/-- In its column, a field is compared as the parts of keys are. -/
theorem compare (h : Agrees rows fields place) {field : SortField} (hfield : field ∈ fields)
    {c d : Option D.Cell} {p q : Bookmark} (hc : Compared rows fields place field c p)
    (hd : Compared rows fields place field d q) :
    (SortKey.ofField field).compare c d = field.direction.order p q :=
  StandFor.compare ⟨h.compared_null_iff hfield hc, h.compared_null_iff hfield hd,
    fun a ha b hb => h.compare_eq field hfield a b p q (ha ▸ hc) (hb ▸ hd)⟩ field

/-- Rows are sorted as their keys are. -/
theorem compareRows_eq (h : Agrees rows fields place) {r s : Row D} :
    ∀ {some : List SortField} {ps qs : List Bookmark}, some ⊆ fields →
      List.Forall₂ (fun field p => Compared rows fields place field (r.cell field.name) p) some ps →
      List.Forall₂ (fun field q => Compared rows fields place field (s.cell field.name) q) some qs →
        compareRows r s (some.map SortKey.ofField) = Bookmarker.compareFields some ps qs
  | _, _, _, _, .nil, .nil => rfl
  | _, _, _, hsub, .cons hp hps, .cons hq hqs => by
    obtain ⟨hfield, hrest⟩ := List.cons_subset.mp hsub
    rw [List.map_cons, compareRows, Bookmarker.compareFields_cons,
      compareRows_eq h hrest hps hqs]
    exact congrArg (Ordering.then · _) (h.compare hfield hp hq)

/-- The columns of a row hold the parts of its key, beside the parts of the place. -/
theorem holds (h : Agrees rows fields place) {b : Bookmark} (hplace : b ∈ place)
    (hmicros : b.WholeMicros) {row : Row D} : ∀ {some : List SortField} {key parts : List Bookmark},
    List.Forall₂ (fun field part => Compared rows fields place field (row.cell field.name) part)
      some key →
    some.length = parts.length → (∀ p ∈ some.zip parts, p ∈ fields.zip b.keyParts) →
      List.Forall₂ (fun part p => row.Holds part p.1 p.2) key (some.zip parts)
  | _, _, [], .nil, _, _ => .nil
  | field :: _, _, other :: _, .cons hcell hcells, hlength, hsub => by
    obtain ⟨hfirst, hrest⟩ := List.forall_mem_cons.mp hsub
    have hfield := (List.of_mem_zip hfirst).1
    refine .cons ⟨h.compared_null_iff hfield hcell, fun value hvalue a ha c hc => ?_⟩
      (h.holds hplace hmicros hcells (Nat.succ.inj hlength) hrest)
    have hmeans := Value.means_of_ofBookmark hvalue fun t ht =>
      hmicros t (ht ▸ (List.of_mem_zip hfirst).2)
    exact h.compare_eq field hfield a c _ other (ha ▸ hcell) (hc ▸ .bound hplace hfirst hmeans)

/-- Values that are kept as parts of keys are compared as these are. -/
theorem ofText (hnames : (fields.map (·.name)).Nodup) (texts : List String) :
    Agrees (texts.map (Row.ofText fields)) fields place := by
  have hcompared : ∀ {field : SortField} {cell : Option Domain.ofKeys.Cell} {part : Bookmark},
      field ∈ fields → Compared (texts.map (Row.ofText fields)) fields place field cell part →
        cell = cellOf part := by
    intro field cell part hfield hcell
    cases hcell with
    | cell hrow hitem hpart =>
      obtain ⟨text, -, rfl⟩ := List.mem_map.mp hrow
      exact Row.ofText_cell hnames hfield hitem hpart
    | bound hplace hpart hmeans => exact hmeans.ofValue_eq
  refine ⟨fun field hfield row hrow item part hitem hpart => ?_,
    fun field hfield a b p q ha hb => ?_⟩
  · rw [hcompared hfield (.cell hrow hitem hpart), cellOf_eq_none]
  · rw [cellOf_eq_some (hcompared hfield ha).symm, cellOf_eq_some (hcompared hfield hb).symm]
    rfl

end Agrees

/-! ## Rows are items -/

/-- The item of a row and its key. -/
def Row.entry (fields : List SortField) (row : Row D) : Json × Bookmark :=
  let item := (Json.read? row.text).getD .null
  (item, ((Bookmarker.ofFields fields).bookmarkFor item).toOption.getD .null)

/-- The rows of a base are the items of a shelf, row by row. -/
structure Stores (rows : List (Row D)) (fields : List SortField) (shelf : Shelf Json) : Prop where
  bookmarker_eq : shelf.bookmarker = .ofFields fields
  entries_eq : rows.map (Row.entry fields) = shelf.marked
  read_eq : ∀ row ∈ rows, Json.read? row.text = some (row.entry fields).1
  bookmarkFor_eq : ∀ row ∈ rows,
    (Bookmarker.ofFields fields).bookmarkFor (row.entry fields).1 = .ok (row.entry fields).2

/-- Rows that are read as items, and items that are marked, are the entries of the rows. -/
theorem entries_of_mark {fields : List SortField} : ∀ {rows : List (Row D)} {items : List Json}
    {marked : List (Json × Bookmark)},
    rows.map (fun row => Json.read? row.text) = items.map some →
      ItemList.mark (Bookmarker.ofFields fields) items = .ok marked →
        rows.map (Row.entry fields) = marked ∧ ∀ row ∈ rows,
          Json.read? row.text = some (row.entry fields).1 ∧
            (Bookmarker.ofFields fields).bookmarkFor (row.entry fields).1
              = .ok (row.entry fields).2
  | [], items, marked, hread, hmark => by
    obtain rfl : items = [] := by simpa using hread.symm
    obtain rfl := Except.ok.inj hmark
    simp
  | row :: rows, items, marked, hread, hmark => by
    cases items with
    | nil => cases hread
    | cons item items =>
      obtain ⟨hitem, hread⟩ := List.cons.inj hread
      obtain ⟨b, rest, hb, hrest, rfl⟩ := ItemList.mark_cons hmark
      obtain ⟨hentries, hrows⟩ := entries_of_mark hread hrest
      have hentry : row.entry fields = (item, b) := by
        simp [Row.entry, hitem, hb, Except.toOption]
      refine ⟨by rw [List.map_cons, hentry, hentries], ?_⟩
      rw [List.forall_mem_cons, hentry]
      exact ⟨⟨hitem, hb⟩, hrows⟩

/-- Rows that can be read are items that are added one by one. -/
theorem readRows_eq {fields : List SortField} : ∀ {rows : List (Row D)},
    (∀ row ∈ rows, Json.read? row.text = some (row.entry fields).1) →
      RowSource.readRows (rows.map fun row => .ok row.text)
        = { edits := (rows.map (Row.entry fields)).map fun e => .push e.1 }
  | [], _ => rfl
  | row :: rows, h => by
    obtain ⟨hrow, hrows⟩ := List.forall_mem_cons.mp h
    rw [List.map_cons, RowSource.readRows, hrow]
    dsimp only
    rw [readRows_eq hrows]
    rfl

/-! ## What is found -/

variable {rows : List (Row D)} {fields : List SortField} {place : Option Bookmark}
variable {shelf : Shelf Json}

/-- What stands in the columns of a row is compared as the parts of its key. -/
theorem Stores.compared (h : Stores rows fields shelf) {row : Row D} (hrow : row ∈ rows) :
    List.Forall₂ (fun field part =>
      Compared rows fields place field (row.cell field.name) part) fields
        (row.entry fields).2.keyParts :=
  (Bookmarker.ofFields_bookmarkFor (h.bookmarkFor_eq row hrow)).imp fun _ _ hpart =>
    .cell hrow (h.read_eq row hrow) hpart

/-- The key of a row is one that may be asked for. -/
theorem Stores.accepts (h : Stores rows fields shelf) {row : Row D} (hrow : row ∈ rows) :
    (Bookmarker.ofFields fields).accepts (row.entry fields).2 :=
  Bookmarker.ofFields_accepts_of_bookmarkFor (h.bookmarkFor_eq row hrow)

/-- A query sorts rows as the shelf sorts their items. -/
theorem Stores.compareRows_eq (h : Stores rows fields shelf) (hagrees : Agrees rows fields place)
    {r s : Row D} (hr : r ∈ rows) (hs : s ∈ rows) :
    compareRows r s (fields.map SortKey.ofField)
      = shelf.bookmarker.compare (r.entry fields).2 (s.entry fields).2 := by
  rw [h.bookmarker_eq, Bookmarker.ofFields_compare (h.accepts hr) (h.accepts hs)]
  exact hagrees.compareRows_eq (List.Subset.refl _) (h.compared hr) (h.compared hs)

/-- The condition of a page is true of a row exactly when its item comes after the place. -/
theorem Stores.compareAll_eq (h : Stores rows fields shelf) (hagrees : Agrees rows fields place)
    {b : Bookmark} (hplace : b ∈ place) (haccepts : (Bookmarker.ofFields fields).accepts b)
    (hmicros : b.WholeMicros) {bounds : List Bound} (hfields : bounds.map (·.field) = fields)
    (hvalues : List.Forall₂ (fun bound part =>
      Value.ofBookmark bound.field part = .ok bound.value) bounds b.keyParts)
    {row : Row D} (hrow : row ∈ rows) :
    Bound.compareAll row bounds = shelf.bookmarker.compare (row.entry fields).2 b := by
  subst hfields
  rw [h.bookmarker_eq, Bookmarker.ofFields_compare (h.accepts hrow) haccepts]
  refine Bound.compareAll_eq_compareFields hvalues
    (hagrees.holds hplace hmicros (h.compared hrow) ?_ fun _ => id)
  rw [List.length_map, hvalues.length_eq]

/-- A page is queried for the rows whose items come after its place, in the order of the shelf. -/
theorem Stores.query?_eq (h : Stores rows fields shelf) (hagrees : Agrees rows fields place)
    (haccepts : ∀ b ∈ place, (Bookmarker.ofFields fields).accepts b ∧ b.WholeMicros)
    (base : Base) (hfields : fields ≠ []) (limit : Nat) :
    ∃ query : Query, RowSource.query? ⟨base, fields⟩ place limit = .ok query ∧
      query.base = base ∧ query.fields = fields ∧ query.limit = min limit maxLimit ∧
        (∀ bounds ∈ query.after, bounds ≠ []) ∧ ∀ row ∈ rows, query.statement.selects row
          = place.all fun b => shelf.bookmarker.compare (row.entry fields).2 b == .gt := by
  cases place with
  | none => exact ⟨_, rfl, rfl, rfl, rfl, by simp, fun _ _ => rfl⟩
  | some b =>
    obtain ⟨hkey, hmicros⟩ := haccepts b rfl
    obtain ⟨bounds, hbind, hbounds, hvalues⟩ := bind_of_accepts hkey
    refine ⟨{ base, fields, after := some bounds, limit := min limit maxLimit }, ?_, rfl, rfl, rfl,
      ?_, ?_⟩
    · rw [RowSource.query?, hbind]
      rfl
    · rintro _ ⟨⟩ rfl
      exact hfields hbounds.symm
    · intro row hrow
      have hplace := h.compareAll_eq hagrees rfl hkey hmicros hbounds hvalues hrow
      simp [Statement.selects, Query.statement, casesFormula_truth, hplace]

/-- What comes after a place, among the items in the order given. -/
theorem after_perm (shelf : Shelf Json) (place : Option Bookmark) :
    (shelf.list.after place).Perm
      (shelf.marked.filter fun e => place.all fun b => shelf.bookmarker.compare e.2 b == .gt) := by
  cases place with
  | none => exact shelf.entries_perm.trans (.of_eq (List.filter_eq_self.mpr fun _ _ => rfl).symm)
  | some b =>
    rw [shelf.after_some]
    exact shelf.entries_perm.filter _

/-- What is found are the items after the place, in the order of the shelf. -/
theorem Stores.found_eq (h : Stores rows fields shelf) (hagrees : Agrees rows fields place)
    {selects : Row D → Bool} (hselects : ∀ row ∈ rows, selects row
      = place.all fun b => shelf.bookmarker.compare (row.entry fields).2 b == .gt)
    {found : List (Row D)} (hperm : found.Perm (rows.filter selects))
    (hsorted : found.Pairwise fun r s =>
      compareRows r s (fields.map SortKey.ofField) ≠ .gt) :
    found.map (Row.entry fields) = shelf.list.after place := by
  have hrows : ∀ row ∈ found, row ∈ rows := fun row hrow =>
    List.mem_of_mem_filter (hperm.mem_iff.mp hrow)
  refine shelf.eq_after_of_perm ?_ ?_
  · refine (hperm.map _).trans (.trans ?_ (after_perm shelf place).symm)
    rw [← h.entries_eq, List.filter_map, List.filter_congr hselects]
    exact .refl _
  · rw [List.pairwise_map]
    refine hsorted.imp_of_mem fun hr hs hle => ?_
    rwa [h.compareRows_eq hagrees (hrows _ hr) (hrows _ hs)] at hle

/-- A page after a place is asked for with one row more than it has room for. That many rows come
back, unless there are fewer, and they are the items after the place. -/
theorem Stores.fetch_ensures (h : Stores rows fields shelf) (hagrees : Agrees rows fields place)
    (haccepts : ∀ b ∈ place, (Bookmarker.ofFields fields).accepts b ∧ b.WholeMicros)
    {base : Base} (hfields : fields ≠ []) {connection : Connection σ}
    (hserves : connection.Serves ⟨base, fields⟩ rows) (hlength : rows.length < maxLimit)
    {page : Page Json} (hpage : page.current = place) :
    Run.Ensures (((⟨base, fields⟩ : RowSource).source connection).fetch page) fun fetched =>
      fetched = {
        edits := ((shelf.list.after place).take (page.perPage + 1)).map fun e => .push e.1 } := by
  obtain ⟨query, hquery, hbase, hkeys, hlimit, hafter, hselects⟩ :=
    h.query?_eq hagrees haccepts base hfields (page.perPage + 1)
  have hstatement : readStatement query.tail query.values = some query.statement :=
    readStatement_tail (by rwa [hkeys]) hafter
  have htext := query.text_eq
  rw [hbase] at htext
  simp only [RowSource.source, hpage, hquery]
  refine .note ?_
  refine (hserves _ _ _ _ _ (fun b hb => (haccepts b hb).1) hquery htext hstatement).bind ?_
  rintro _ ⟨found, hperm, hsorted, rfl⟩
  refine .pure ?_
  have hrows : ∀ row ∈ found, row ∈ rows := fun row hrow =>
    List.mem_of_mem_filter (hperm.mem_iff.mp hrow)
  -- There are not so many rows that the largest limit of a query cuts any of them off.
  have hfits : found.length < maxLimit := by
    have hfilter := List.length_filter_le query.statement.selects rows
    rw [hperm.length_eq]
    omega
  have htaken : found.take query.statement.limit = found.take (page.perPage + 1) := by
    rw [List.take_eq_take_iff]
    change min query.limit _ = _
    omega
  have hfound := h.found_eq hagrees hselects hperm (by rwa [← hkeys])
  rw [htaken, readRows_eq fun row hrow => h.read_eq row (hrows row (List.mem_of_mem_take hrow)),
    List.map_take, hfound]

/-! ## Pages -/

/-- Items that are added one by one are added at once. -/
theorem edits_push : ∀ (es : List (Json × Bookmark)) (page : Page Json),
    page.edits (es.map fun e => .push e.1) = page.extend (es.map (·.1))
  | [], page => by simp [Page.edits, Page.extend]
  | e :: es, page =>
    (edits_push es (page.push e.1)).trans (by simp [Page.extend, Page.push])

/-- Of the next items of a sequence, one more than there is room for, those that fit stay on a page.
It goes on when the overflow is there. -/
theorem truncate_extend {perPage : Nat} (place : Option Bookmark) (hperPage : 0 < perPage)
    (items : List Json) :
    (({ perPage, current := place, perPage_pos := hperPage } : Page Json).extend
        (items.take (perPage + 1))).truncate
      = { perPage
          items := items.take perPage
          hasMore := perPage < items.length
          current := place
          perPage_pos := hperPage } := by
  have htake : (items.take (perPage + 1)).take perPage = items.take perPage := by
    rw [List.take_take, Nat.min_eq_left (Nat.le_succ perPage)]
  rw [Page.truncate]
  by_cases hmore : perPage < items.length
  · have hoverflows : perPage < min (perPage + 1) items.length := by omega
    simp only [Page.overflows, Page.extend, List.nil_append, List.length_take, hoverflows, htake,
      hmore, List.take_nil, decide_true, if_true]
  · have hfits : ¬ perPage < min perPage items.length := by omega
    have hall : items.take (perPage + 1) = items.take perPage := by
      rw [List.take_of_length_le (by omega), List.take_of_length_le (by omega)]
    simp only [Page.overflows, Page.extend, List.nil_append, hall, List.length_take, hfits, hmore,
      decide_false, Bool.false_eq_true, if_false]

/-- A source that adds what comes after a place, one item more than there is room for, fills the
page with those that fit. -/
theorem fill_ensures {bookmarker : Bookmarker Json} {source : Source σ Json} {perPage : Nat}
    (hperPage : 0 < perPage) {rest : List (Json × Bookmark)}
    (hrest : ∀ e ∈ rest, bookmarker.bookmarkFor e.1 = .ok e.2)
    (hfetch : Run.Ensures (source.fetch { perPage, current := place, perPage_pos := hperPage })
      fun fetched => fetched = { edits := (rest.take (perPage + 1)).map fun e => .push e.1 }) :
    Run.Ensures (source.fill bookmarker { perPage, current := place, perPage_pos := hperPage })
      fun filled => filled = { page := .ofRest rest place hperPage } := by
  have hderive : Page.derive bookmarker.bookmarkFor ((rest.take perPage).map (·.1))
      = ((rest.take perPage).map (·.2), none) :=
    Page.derive_of_forall fun e he => hrest e (List.mem_of_mem_take he)
  have htruncate := truncate_extend place hperPage (rest.map (·.1))
  rw [← List.map_take, ← List.map_take, List.length_map] at htruncate
  rw [Source.fill]
  refine hfetch.bind ?_
  rintro _ rfl
  simp only [edits_push, htruncate, Page.assign, List.take_nil, List.length_nil, List.drop_zero,
    hderive, List.nil_append]
  split_ifs
  · exact .note (.pure rfl)
  · exact .pure rfl

/-! ## The same pages -/

/-- Items that have keys are marked with them. -/
theorem exists_mark {bookmarker : Bookmarker Json} : ∀ {items : List Json},
    (∀ item ∈ items, ∃ b, bookmarker.bookmarkFor item = .ok b) →
      ∃ marked, ItemList.mark bookmarker items = .ok marked ∧
        items.map bookmarker.bookmarkFor = (marked.map (·.2)).map .ok
  | [], _ => ⟨[], rfl, rfl⟩
  | item :: items, h => by
    obtain ⟨⟨b, hb⟩, hrest⟩ := List.forall_mem_cons.mp h
    obtain ⟨marked, hmarked, hkeys⟩ := exists_mark hrest
    refine ⟨(item, b) :: marked, ?_, by simp [hb, hkeys]⟩
    rw [ItemList.mark] at hmarked
    rw [ItemList.mark, List.mapM_cons, hb, hmarked]
    rfl

/-- Rows that are items with distinct keys are stored as a shelf of these items. -/
theorem exists_stores {items : List Json}
    (hread : rows.map (fun row => Json.read? row.text) = items.map some)
    (hkeys : ∀ item ∈ items, ∃ b, (Bookmarker.ofFields fields).bookmarkFor item = .ok b)
    (hdistinct : (items.map (Bookmarker.ofFields fields).bookmarkFor).Nodup) :
    ∃ shelf : Shelf Json, shelf.items = items ∧ Stores rows fields shelf := by
  obtain ⟨marked, hmark, hmarked⟩ := exists_mark hkeys
  have hderived := ItemList.bookmarkFor_of_mark hmark
  obtain ⟨hentries, hrows⟩ := entries_of_mark hread hmark
  rw [hmarked] at hdistinct
  refine ⟨{
    bookmarker := .ofFields fields
    items, marked
    standard := Bookmarker.ofFields_standard fields
    mark_eq := hmark
    distinct := hdistinct.of_map
    accepted := fun e he => Bookmarker.ofFields_accepts_of_bookmarkFor (hderived e he) },
    rfl, rfl, hentries, fun row hrow => (hrows row hrow).1, fun row hrow => (hrows row hrow).2⟩

/-- A source of rows is made for any columns. -/
theorem RowSource.make?_of_columns {base : Base} (hfields : fields ≠ [])
    (hcolumns : ∀ field ∈ fields, field.IsColumn) : make? base fields = .ok ⟨base, fields⟩ := by
  have hnone : fields.find? (fun f => f.name = "" || f.name.toList.contains '.') = none := by
    simpa [SortField.IsColumn] using hcolumns
  rw [make?, hnone, if_neg (by simpa using hfields)]

/-- **Rows of a database and a list of items give the same pages.** The rows of a base, sorted by
columns, and the items that these rows are, sorted by the same fields, answer every place with the
same page of every size. -/
theorem RowSource.same_pages {base : Base} {items : List Json} {perPage : Nat}
    {connection : Connection σ} (hfields : fields ≠ [])
    (hcolumns : ∀ field ∈ fields, field.IsColumn)
    (hread : rows.map (fun row => Json.read? row.text) = items.map some)
    (hkeys : ∀ item ∈ items, ∃ b, (Bookmarker.ofFields fields).bookmarkFor item = .ok b)
    (hdistinct : (items.map (Bookmarker.ofFields fields).bookmarkFor).Nodup)
    (hlength : rows.length < 9223372036854775807) (hserves : connection.Serves ⟨base, fields⟩ rows)
    (hagrees : Agrees rows fields place)
    (haccepts : ∀ b ∈ place, (Bookmarker.ofFields fields).accepts b ∧ b.WholeMicros)
    (hperPage : 0 < perPage) :
    ∃ (source : RowSource) (memory : Collection σ Json) (page : Page Json),
      make? base fields = .ok source ∧
      Collection.ofItems? (.ofFields fields) items = .ok memory ∧
      Run.Ensures ((source.collection connection).supply perPage place)
        (fun answer => answer = .ok page) ∧
      Run.Ensures (memory.supply perPage place) (fun answer => answer = .ok page) := by
  obtain ⟨shelf, rfl, hstores⟩ := exists_stores hread hkeys hdistinct
  refine ⟨⟨base, fields⟩, shelf.collection σ, .ofRest (shelf.list.after place) place hperPage,
    make?_of_columns hfields hcolumns, hstores.bookmarker_eq ▸ shelf.ofItems?_eq, ?_, ?_⟩
  · rw [RowSource.collection, Collection.supply_leaf, Supply.ofFill, Page.start?, dif_pos hperPage]
    refine (fill_ensures hperPage ?_
      (hstores.fetch_ensures hagrees haccepts hfields hserves hlength rfl)).bind ?_
    · intro e he
      rw [← hstores.bookmarker_eq]
      exact shelf.bookmarkFor_eq (ItemList.mem_entries_of_mem_after he)
    · rintro _ rfl
      exact .pure rfl
  · rw [Shelf.collection, Collection.supply_leaf, Supply.ofFill, Page.start?, dif_pos hperPage]
    dsimp only
    rw [shelf.fill_eq place hperPage]
    exact .pure rfl

/-- Rows with a name and a score. -/
def scoreTexts : List String :=
  ["\x7b\"name\":\"bob\",\"score\":null\x7d", "\x7b\"name\":\"cyd\",\"score\":7\x7d",
    "\x7b\"name\":\"dan\",\"score\":9\x7d", "\x7b\"name\":\"ada\",\"score\":7\x7d"]

/-- The rows with a name and a score as items. -/
def scoreItems : List Json :=
  [.obj [("name", .str "bob"), ("score", .null)], .obj [("name", .str "cyd"), ("score", .int 7)],
    .obj [("name", .str "dan"), ("score", .int 9)], .obj [("name", .str "ada"), ("score", .int 7)]]

/-- The page after one of two rows with the same score is the same either way. -/
theorem RowSource.same_score_pages :
    ∃ (source : RowSource) (memory : Collection Unit Json) (page : Page Json),
      make? (.table "scores") scoreFields = .ok source ∧
      Collection.ofItems? (.ofFields scoreFields) scoreItems = .ok memory ∧
      Run.Ensures
        ((source.collection (.ofRows Unit (.table "scores")
          (scoreTexts.map (Row.ofText scoreFields)))).supply 1
            (some (.tuple [.int 7, .text "ada"])))
        (fun answer => answer = .ok page) ∧
      Run.Ensures (memory.supply 1 (some (.tuple [.int 7, .text "ada"])))
        (fun answer => answer = .ok page) := by
  have hkeys : scoreItems.map (Bookmarker.ofFields scoreFields).bookmarkFor
      = [.ok (.tuple [.null, .text "bob"]), .ok (.tuple [.int 7, .text "cyd"]),
        .ok (.tuple [.int 9, .text "dan"]), .ok (.tuple [.int 7, .text "ada"])] := by cbv
  refine same_pages (by simp [scoreFields]) (by simp [scoreFields, SortField.IsColumn]) (by cbv) ?_
    ?_ (by simp [scoreTexts]) (Connection.ofRows_serves Unit ⟨_, _⟩ _)
    (.ofText (by simp [scoreFields]) scoreTexts) ?_ (by omega)
  · intro item hitem
    have hkey := List.mem_map_of_mem hitem (f := (Bookmarker.ofFields scoreFields).bookmarkFor)
    rw [hkeys] at hkey
    simp only [List.mem_cons, List.not_mem_nil, or_false] at hkey
    rcases hkey with h | h | h | h <;> exact ⟨_, h⟩
  · simp [hkeys]
  · rintro _ ⟨⟩
    exact ⟨rfl, by simp [Bookmark.WholeMicros, Bookmark.keyParts]⟩

end Sql

end KeysetPaging
