import KeysetPaging.Proofs.Messages
import KeysetPaging.Proofs.Opening
import KeysetPaging.Proofs.Ties

/-! # The pages of definitions

The command that shows all pages of a definition prints the messages about the pages of a walk. With
keys that differ they show every item that is kept, in the order of the sort fields. Whatever the
keys and whatever the token, there is at most one message more than there are items.
-/

namespace KeysetPaging

open CommandLine

variable {σ : Type}

namespace Definition

/-- Shows pages of a definition that is loaded. -/
def printPages (definition : Definition) (database : Sql.Database σ) (files : Files)
    (override : Option String) (perPage : Nat) (token : Option String) (all : Bool)
    (maxPages : Option Nat) : Run σ Report := do
  match ← definition.openWith database files override with
  | .error e => return { failure := some e }
  | .ok opened =>
      showPages definition.name (definition.collection opened) perPage token
        (pageLimit all maxPages)

/-- A definition without faults whose items have a value of every sort field prints the pages of a
walk through its collection. The walk goes from place to place and is as long as the source is at
most, and when this is less than the number of pages that are allowed it reads everything. -/
theorem printPages_ensures {definition : Definition} (hvalid : definition.check = .ok ())
    {files : Files} {items : List Json} (hitems : definition.source.items? files = some items)
    {marked : List (Json × Bookmark)}
    (hmarked : ItemList.mark (.ofFields definition.sort) items = .ok marked) {base : Course Json}
    (hbase : (Collection.leaf (.ofFields definition.sort) (ItemList.source
      ⟨.ofFields definition.sort, ItemList.sort (.ofFields definition.sort) marked⟩)
        : Collection σ Json).supply.Follows base)
    (database : Sql.Database σ) (override : Option String) {perPage : Nat}
    (hperPage : 0 < perPage) (token : Option String) (all : Bool) (maxPages : Option Nat) :
    Run.Ensures (definition.printPages database files override perPage token all maxPages)
      fun report => ∃ place walk, (token = none → place = none) ∧
        report = { messages := pageMessages definition.name 1 walk.pages } ∧
        Walk.Linked place (pageLimit all maxPages) ((base place).left + 1) walk ∧
        ((base place).left < pageLimit all maxPages →
          Walk.ReadsAll (definition.course base place) walk) := by
  rw [printPages]
  refine (openWith_ensures database override hvalid hitems hmarked).bind ?_
  rintro _ ⟨settings, hrounds, rfl⟩
  dsimp only
  generalize hopened : (⟨.ofFields definition.sort, ItemList.source
    ⟨.ofFields definition.sort, ItemList.sort (.ofFields definition.sort) marked⟩, settings⟩
      : Opened σ) = opened
  have hgives : (definition.collection opened).supply.Gives
      (fun b => (definition.collection opened).accepts b)
      fun place page => page.Answers (definition.course base) place := by
    subst hopened
    exact gives_collection rfl hrounds hbase
  have hplaces : ∀ b, (definition.collection opened).accepts b →
      (definition.collection opened).accepts b ∧ b.levels ≤ Document.maxLevels := by
    subst hopened
    exact fun b hb => ⟨hb, levels_le_of_accepts rfl hb⟩
  have hstart : ∀ b ∈ (definition.collection opened).startOf token,
      (definition.collection opened).accepts b :=
    fun b hb => (Collection.accepts_startOf b hb).1
  have hsizes : ∀ _ : Nat, 0 < perPage := fun _ => hperPage
  have hlinked := Collection.walkBy_linked hgives hplaces hsizes (pageLimit all maxPages) hstart
  have hreads := Collection.walkBy_readsAll hgives hplaces hsizes (pageLimit all maxPages) hstart
  simp only [left_course] at hlinked hreads
  rw [showPages, Collection.walk_eq_walkBy]
  refine (hlinked.and hreads).bind ?_
  rintro walk ⟨hlinked, hreads⟩
  simp only [hlinked.unfailing, Option.isNone_none, if_true]
  refine .note (.pure ⟨_, walk, ?_, rfl, hlinked, hreads⟩)
  rintro rfl
  rfl

end Definition

/-- The command that shows pages loads a definition and shows its pages. -/
theorem CommandLine.Invocation.run_ensures {invocation : Invocation} {definition : Definition}
    {files : Files} {database : Sql.Database σ} {override : Option String} {perPage : Nat}
    {token : Option String} {all : Bool} {maxPages : Option Nat} {Q : Report → Prop}
    (hcommand : invocation.command = .page perPage token all maxPages)
    (hload : Run.Ensures (loadDefinition (σ := σ) files invocation) fun answer =>
      answer = .ok definition)
    (h : Run.Ensures
      (definition.printPages database files override perPage token all maxPages) Q) :
    Run.Ensures (invocation.run database files override) Q := by
  rw [Invocation.run, hcommand]
  refine hload.bind ?_
  rintro _ rfl
  exact h

/-- **Showing all pages comes to an end.** A definition without faults, whose items all have a value
of every sort field, answers without failure, whatever the token, the size of the pages, the
override and the number of pages that are allowed. It prints at most one page more than there are
items, and stops before as many are printed as are allowed only at a page that is the last. Keys may
be level. -/
theorem Definition.printPages_stops {definition : Definition} (hvalid : definition.check = .ok ())
    {files : Files} {items : List Json} (hitems : definition.source.items? files = some items)
    (hkeyed : SortField.Keyed definition.sort items) (database : Sql.Database σ)
    (override : Option String) {perPage : Nat} (hperPage : 0 < perPage) (token : Option String)
    (maxPages : Option Nat) :
    Run.Ensures (definition.printPages database files override perPage token true maxPages)
        (Report.Stops (pageLimit true maxPages) (items.length + 1)) ∧
      ∀ invocation : Invocation, invocation.command = .page perPage token true maxPages →
        Run.Ensures (loadDefinition (σ := σ) files invocation) (fun d => d = .ok definition) →
          Run.Ensures (invocation.run database files override)
            (Report.Stops (pageLimit true maxPages) (items.length + 1)) := by
  obtain ⟨marked, hmarked⟩ := hkeyed.exists_mark
  have hordered := ItemList.ordered_sort (Bookmarker.ofFields_standard definition.sort) hmarked
  have hstops : Run.Ensures
      (definition.printPages database files override perPage token true maxPages)
      (Report.Stops (pageLimit true maxPages) (items.length + 1)) := by
    refine (printPages_ensures hvalid hitems hmarked hordered.follows database override hperPage
      token true maxPages).mono ?_
    rintro _ ⟨place, walk, -, rfl, hlinked, -⟩
    have hstops := Report.stops_of_linked definition.name hlinked (pageLimit_pos _ _)
    refine ⟨rfl, hstops.nonempty, Nat.le_trans hstops.length_le ?_, hstops.stops⟩
    rw [← ItemList.length_sort hmarked]
    exact Nat.succ_le_succ (ItemList.length_after_le _ place)
  exact ⟨hstops, fun invocation hcommand hload => Invocation.run_ensures hcommand hload hstops⟩

namespace Definition

/-- A fruit. -/
def fruit (name color : String) (price : Json) : Json :=
  .obj [("color", .str color), ("name", .str name), ("price", price)]

/-- Some fruits, of which two have the same price. -/
def fruitItems : List Json :=
  [fruit "plum" "blue" .null, fruit "lime" "green" (.int 2), fruit "cherry" "red" (.int 3),
    fruit "kiwi" "green" (.int 2)]

/-- The fruits by their price, the dearest first, those of one price by the other fields, without
the red ones. Only the name and the taste are shown, and no fruit has a taste. -/
def fruits (others : List SortField) : Definition where
  name := "fruits"
  source := .inline fruitItems
  sort := { name := "price", nullable := true, direction := .descending } :: others
  filter := some { field := "color", notEquals := some (.str "red"), sync := true }
  select := some ["name", "taste"]
  settings := { filterMaxRounds := 1 }

/-- With the price alone two fruits are level, and the filter gives up on a page after one round. -/
theorem fruits_stop :
    Run.Ensures ((fruits []).printPages (Sql.Database.silent Unit) (fun _ => .error "") (some " 1")
      1 (some "7") true (some 9)) (Report.Stops 9 5) := by
  have hkeyed : SortField.Keyed (fruits []).sort fruitItems := by
    simp only [SortField.Keyed, fruits, fruitItems, List.mem_cons, List.not_mem_nil, or_false,
      forall_eq_or_imp, forall_eq]
    refine ⟨?_, ?_, ?_, ?_⟩ <;> exact ⟨_, rfl⟩
  have hvalid : (fruits []).check = .ok () := rfl
  have hitems : (fruits []).source.items? (fun _ => .error "") = some fruitItems := rfl
  exact (printPages_stops hvalid hitems hkeyed (Sql.Database.silent Unit) (some " 1") Nat.one_pos
    (some "7") (some 9)).1

end Definition

/-- **A definition means what it says.** A definition without faults, whose items have a value of
every sort field and differ in one, answers the request for all pages with messages that are counted
from one and lead from each to the next, up to the one that says that it is the last. Together they
show the items in the order of the sort fields, as far as the filter keeps them, each with the
fields that are selected, whatever the override and the size of the pages. No list has more items
than a word of the machine can count. -/
theorem Definition.printPages_tells {definition : Definition} (hvalid : definition.check = .ok ())
    {files : Files} {items : List Json} (hitems : definition.source.items? files = some items)
    (hlength : items.length < Decimal.maxCount) (hkeyed : SortField.Keyed definition.sort items)
    (hdistinct : SortField.Distinct definition.sort items) (database : Sql.Database σ)
    (override : Option String) {perPage : Nat} (hperPage : 0 < perPage) :
    Run.Ensures (definition.printPages database files override perPage none true none)
        (Report.Tells ((definition.sequence items).map Json.sorted)) ∧
      ∀ invocation : Invocation, invocation.command = .page perPage none true none →
        Run.Ensures (loadDefinition (σ := σ) files invocation) (fun d => d = .ok definition) →
          Run.Ensures (invocation.run database files override)
            (Report.Tells ((definition.sequence items).map Json.sorted)) := by
  obtain ⟨marked, hmarked⟩ := hkeyed.exists_mark
  let shelf := Shelf.ofRecords definition.sort items marked hmarked hdistinct
  have hleft : (shelf.course none).left = items.length := ItemList.length_sort hmarked
  have htells : Run.Ensures
      (definition.printPages database files override perPage none true none)
      (Report.Tells ((definition.sequence items).map Json.sorted)) := by
    refine (printPages_ensures hvalid hitems hmarked shelf.follows database override hperPage none
      true none).mono ?_
    rintro _ ⟨place, walk, hplace, rfl, hlinked, hreads⟩
    obtain rfl := hplace rfl
    have hlimit : (shelf.course none).left < pageLimit true none := by
      rw [hleft, pageLimit, if_pos rfl]
      exact Nat.lt_of_lt_of_le hlength (Nat.le_max_right _ _)
    obtain ⟨-, hfinished, -, zs, hzs, hwalk⟩ := hreads hlimit
    obtain ⟨es, hes, hshown⟩ := reads_course hzs
    have hsorted : es.map (·.1) = items.mergeSort fun a b =>
        SortField.compareRecords definition.sort a b != .gt := by
      rw [show es = ItemList.sort (.ofFields definition.sort) marked from hes,
        ItemList.map_sort_ofFields hmarked]
    rw [sequence, ← hsorted, ← hshown, ← hwalk]
    exact Report.tells_of_linked definition.name hlinked hfinished
  exact ⟨htells, fun invocation hcommand hload => Invocation.run_ensures hcommand hload htells⟩

namespace Definition

/-- With the name as a second field no two fruits are level. -/
theorem fruits_told :
    Run.Ensures ((fruits [{ name := "name", kind := .text }]).printPages (Sql.Database.silent Unit)
      (fun _ => .error "") (some "none") 1 none true none)
      (Report.Tells [.obj [("name", .str "kiwi")], .obj [("name", .str "lime")],
        .obj [("name", .str "plum")]]) := by
  have hkeyed : SortField.Keyed (fruits [{ name := "name", kind := .text }]).sort fruitItems := by
    simp only [SortField.Keyed, fruits, fruitItems, List.mem_cons, List.not_mem_nil, or_false,
      forall_eq_or_imp, forall_eq]
    refine ⟨⟨?_, ?_⟩, ⟨?_, ?_⟩, ⟨?_, ?_⟩, ?_, ?_⟩ <;> exact ⟨_, rfl⟩
  have hname : ∀ {a b c d : String} {p q : Json}, a ≠ b →
      ({ name := "name", kind := .text } : SortField).bookmarkFor (fruit a c p)
        ≠ ({ name := "name", kind := .text } : SortField).bookmarkFor (fruit b d q) :=
    fun hne h => hne (Bookmark.text.inj (Except.ok.inj h))
  have hdistinct : SortField.Distinct (fruits [{ name := "name", kind := .text }]).sort
      fruitItems := by
    simp [SortField.Distinct, fruits, fruitItems, hname]
  have hsorted : fruitItems.mergeSort (fun a b => SortField.compareRecords
      (fruits [{ name := "name", kind := .text }]).sort a b != .gt)
        = [fruit "cherry" "red" (.int 3), fruit "kiwi" "green" (.int 2),
          fruit "lime" "green" (.int 2), fruit "plum" "blue" .null] := by
    have hplum : SortField.compareRecords (fruits [{ name := "name", kind := .text }]).sort
        (fruit "plum" "blue" .null) (fruit "lime" "green" (.int 2)) = .gt := by decide +kernel
    have hcherry : SortField.compareRecords (fruits [{ name := "name", kind := .text }]).sort
        (fruit "cherry" "red" (.int 3)) (fruit "kiwi" "green" (.int 2)) = .lt := by decide +kernel
    have hlime : SortField.compareRecords (fruits [{ name := "name", kind := .text }]).sort
        (fruit "lime" "green" (.int 2)) (fruit "cherry" "red" (.int 3)) = .gt := by decide +kernel
    have hkiwi : SortField.compareRecords (fruits [{ name := "name", kind := .text }]).sort
        (fruit "lime" "green" (.int 2)) (fruit "kiwi" "green" (.int 2)) = .gt := by decide +kernel
    simp [fruitItems, List.mergeSort, hplum, hcherry, hlime, hkiwi]
  have hvalid : (fruits [{ name := "name", kind := .text }]).check = .ok () := rfl
  have hitems : (fruits [{ name := "name", kind := .text }]).source.items? (fun _ => .error "")
      = some fruitItems := rfl
  have htells := (printPages_tells hvalid hitems (by decide) hkeyed hdistinct
    (Sql.Database.silent Unit) (some "none") Nat.one_pos).1
  rw [sequence, hsorted] at htells
  exact htells

end Definition

end KeysetPaging
