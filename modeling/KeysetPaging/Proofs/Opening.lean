import KeysetPaging.Definition.Open
import KeysetPaging.Proofs.Records
import KeysetPaging.Proofs.Validity
import KeysetPaging.Proofs.Walk

/-! # Collections of definitions

A definition without faults that lists its items, or names a file that does, opens as a list in
order when every item has a value of every sort field. Around the list stand a filter that may ask
at least once and the selection of fields. Both pass on the places of the list, so whatever course
the list follows, the collection follows the one that is made of it.
-/

namespace KeysetPaging

variable {σ : Type}

/-- The items that a source lists itself or finds in a file. A database lists none. -/
def SourceDefinition.items? (files : Files) : SourceDefinition → Option (List Json)
  | .file path => (Definition.readItems files path).toOption
  | .inline items => some items
  | .database .. => none

/-! ## Limits -/

/-- The filter of a definition without faults may ask at least once. -/
theorem Definition.filterMaxRounds_pos {definition : Definition} (h : definition.check = .ok ()) :
    0 < definition.settings.filterMaxRounds :=
  (check_eq_ok_iff.mp h).settings.rounds

/-- No override takes the last round away. -/
theorem Settings.withOverride_ensures {settings : Settings} (h : 0 < settings.filterMaxRounds)
    (override : Option String) :
    Run.Ensures (σ := σ) (settings.withOverride override)
      fun settings => 0 < settings.filterMaxRounds := by
  rw [withOverride.eq_def]
  split
  · exact .pure h
  next raw =>
    split
    next rounds hrounds =>
      obtain ⟨n, -, hn⟩ := Option.bind_eq_some_iff.mp hrounds
      split_ifs at hn with hzero
      obtain rfl := Option.some.inj hn
      exact .pure (Nat.pos_of_ne_zero hzero)
    · exact .note (.pure h)

/-! ## Opening -/

namespace Definition

variable {definition : Definition} {opened : Opened σ}

/-- A source that lists its items, itself or in a file, opens as the list of them. -/
theorem openSource_eq (database : Sql.Database σ) {files : Files} {items : List Json}
    (hitems : definition.source.items? files = some items) (settings : Settings) :
    openSource database files definition settings
      = pure (openItems definition.sort settings items) := by
  rw [openSource.eq_def]
  cases hsource : definition.source with
  | file path =>
    rw [hsource, SourceDefinition.items?] at hitems
    cases hread : readItems files path with
    | error e =>
      rw [hread] at hitems
      cases hitems
    | ok read =>
      rw [hread] at hitems
      obtain rfl : read = items := Option.some.inj hitems
      simp only [hread, Except.bind]
  | inline listed =>
    rw [hsource] at hitems
    obtain rfl : listed = items := Option.some.inj hitems
    rfl
  | database =>
    rw [hsource] at hitems
    cases hitems

/-- A definition without faults opens as the sorted list of its items, whatever the override. -/
theorem openWith_ensures (database : Sql.Database σ) {files : Files} (override : Option String)
    (hvalid : definition.check = .ok ()) {items : List Json}
    (hitems : definition.source.items? files = some items) {marked : List (Json × Bookmark)}
    (hmarked : ItemList.mark (.ofFields definition.sort) items = .ok marked) :
    Run.Ensures (definition.openWith database files override) fun answer =>
      ∃ settings : Settings, 0 < settings.filterMaxRounds ∧
        answer = .ok ⟨.ofFields definition.sort,
          ItemList.source ⟨.ofFields definition.sort,
            ItemList.sort (.ofFields definition.sort) marked⟩, settings⟩ := by
  rw [openWith]
  refine (Settings.withOverride_ensures (filterMaxRounds_pos hvalid) override).bind ?_
  intro settings hsettings
  rw [openSource_eq database hitems, pure_bind, openItems, ItemList.ofItems?, hmarked]
  exact .note (.pure ⟨settings, hsettings, rfl⟩)

/-! ## The filter and the selection of fields -/

/-- What is read of the collection of a definition, when the source follows the given course. -/
def course (definition : Definition) (base : Course Json) : Course Json :=
  let kept := match definition.filter with
    | none => base
    | some filter => base.filter filter.keeps
  match definition.select with
  | none => kept
  | some paths => kept.transform (Json.project paths)

/-- The item passes the filter of the definition, if there is one. -/
def keeps (definition : Definition) (item : Json) : Bool :=
  match definition.filter with
  | none => true
  | some filter => filter.keeps item

/-- What is shown of an item: the fields that are selected, or all of it. -/
def shows (definition : Definition) (item : Json) : Json :=
  match definition.select with
  | none => item
  | some paths => item.project paths

/-- The sequence that a definition stands for: its items in the order of the sort fields, as far as
the filter keeps them, with the fields that are shown. -/
def sequence (definition : Definition) (items : List Json) : List Json :=
  ((items.mergeSort fun a b => SortField.compareRecords definition.sort a b != .gt).filter
    definition.keeps).map definition.shows

/-- As much is left of the collection as of the source. -/
theorem left_course (definition : Definition) (base : Course Json) (place : Option Bookmark) :
    (definition.course base place).left = (base place).left := by
  unfold course
  cases definition.filter <;> cases definition.select <;> rfl

/-- What is read of the collection is what is kept of what is read of the source, as it is shown.
Both the filter and the order of the source see the whole item. -/
theorem reads_course {base : Course Json} {place : Option Bookmark} {zs : List (Json × Bookmark)}
    (h : (definition.course base place).Reads zs) :
    ∃ es, (base place).Reads es ∧
      zs.map (·.1) = ((es.map (·.1)).filter definition.keeps).map definition.shows := by
  have hkept : ∀ {es : List (Json × Bookmark)} (filter : FilterDefinition),
      (es.filter fun e => filter.keeps e.1).map (·.1) = (es.map (·.1)).filter filter.keeps :=
    fun filter => by
      rw [List.filter_map]
      rfl
  unfold course at h
  unfold keeps shows
  cases hfilter : definition.filter with
  | none =>
    cases hselect : definition.select with
    | none =>
      rw [hfilter, hselect] at h
      exact ⟨zs, h, by simp⟩
    | some paths =>
      rw [hfilter, hselect] at h
      obtain ⟨es, hes, rfl⟩ := h
      exact ⟨es, hes, by simp⟩
  | some filter =>
    cases hselect : definition.select with
    | none =>
      rw [hfilter, hselect] at h
      obtain ⟨es, hes, rfl⟩ := h
      exact ⟨es, hes, by simp [hkept]⟩
    | some paths =>
      rw [hfilter, hselect] at h
      obtain ⟨_, ⟨es, hes, rfl⟩, rfl⟩ := h
      exact ⟨es, hes, by simp [← hkept]⟩

/-- What holds of the source and of every filter and selection of fields around what it holds of,
holds of the collection of a definition. -/
theorem collection_stages (opened : Opened σ) (base : Course Json)
    {R : Collection σ Json → Course Json → Prop}
    (hsource : R (.leaf opened.bookmarker opened.source) base)
    (hfilter : ∀ (filter : FilterDefinition) (items : Collection σ Json) (course : Course Json),
      R items course → R (items.filter filter.keeps (opened.settings.filterOptions filter.sync))
        (course.filter filter.keeps))
    (hselect : ∀ (paths : List String) (items : Collection σ Json) (course : Course Json),
      R items course → R (items.transform (Json.project paths))
        (course.transform (Json.project paths))) :
    R (definition.collection opened) (definition.course base) := by
  unfold collection course
  cases definition.filter with
  | none =>
    cases definition.select with
    | none => exact hsource
    | some paths => exact hselect paths _ _ hsource
  | some filter =>
    cases definition.select with
    | none => exact hfilter filter _ _ hsource
    | some paths => exact hselect paths _ _ (hfilter filter _ _ hsource)

/-- The collection accepts what the bookmarker of the source accepts. -/
theorem accepts_collection (definition : Definition) (opened : Opened σ) (b : Bookmark) :
    (definition.collection opened).accepts b = opened.bookmarker.accepts b := by
  unfold collection
  cases definition.filter <;> cases definition.select <;> simp only [Collection.accepts]

/-- The collection keeps the places that its source keeps, along whatever course. -/
theorem keeps_collection {P : Bookmark → Prop}
    (h : (Collection.leaf opened.bookmarker opened.source).supply.Keeps P) :
    (definition.collection opened).supply.Keeps P := by
  refine collection_stages opened (fun _ => .done) (R := fun items _ => items.supply.Keeps P) h
    (fun filter items _ hitems => ?_) fun paths items _ hitems => ?_
  · rw [Collection.supply_filter]
    exact Filter.keeps _ _ hitems
  · rw [Collection.supply_transform]
    exact Transform.keeps _ hitems

/-- The collection follows the course that is made of the course of its source. -/
theorem follows_collection {base : Course Json} (hrounds : 0 < opened.settings.filterMaxRounds)
    (h : (Collection.leaf opened.bookmarker opened.source).supply.Follows base) :
    (definition.collection opened).supply.Follows (definition.course base) := by
  refine collection_stages opened base (R := fun items course => items.supply.Follows course) h
    (fun filter items course hitems => ?_) fun paths items course hitems => ?_
  · rw [Collection.supply_filter]
    exact Filter.follows _ _ hrounds hitems
  · rw [Collection.supply_transform]
    exact Transform.follows _ hitems

/-- A definition over a source that is marked by its sort fields answers at every place that it
accepts, and each page leads to a place that it accepts. -/
theorem gives_collection {base : Course Json}
    (hbookmarker : opened.bookmarker = .ofFields definition.sort)
    (hrounds : 0 < opened.settings.filterMaxRounds)
    (h : (Collection.leaf opened.bookmarker opened.source).supply.Follows base) :
    (definition.collection opened).supply.Gives
      (fun b => (definition.collection opened).accepts b)
      fun place page => page.Answers (definition.course base) place := by
  refine (follows_collection hrounds h).gives ?_
  simp only [accepts_collection]
  refine keeps_collection ?_
  rw [Collection.supply_leaf]
  refine opened.source.keeps fun item b hb => ?_
  rw [hbookmarker] at hb ⊢
  exact Bookmarker.ofFields_accepts_of_bookmarkFor hb

/-- What a definition accepts nests no deeper than a token can. -/
theorem levels_le_of_accepts (hbookmarker : opened.bookmarker = .ofFields definition.sort)
    {b : Bookmark} (h : (definition.collection opened).accepts b) :
    b.levels ≤ Document.maxLevels := by
  rw [accepts_collection, hbookmarker] at h
  exact Nat.le_trans (Bookmarker.levels_le_of_ofFields_accepts h) (by decide)

end Definition

end KeysetPaging
