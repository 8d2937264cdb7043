import KeysetPaging.Proofs.Deriving
import KeysetPaging.Proofs.Opening
import KeysetPaging.Proofs.Sql.Pages

/-! # What passes the check opens

The check of a definition and the code that opens it look at the same parts, each in its own way.
What the check lets through is enough to open: what is left that can go wrong is an item without a
value of a sort field, a file that cannot be read, or a database that gives up. Nothing is wrong
with the set-up any more, and the filter asks at least once, for at least one item, whatever the
override says.
-/

namespace KeysetPaging

variable {σ : Type}

/-! ## Items without a value of a sort field -/

namespace SortField

variable {fields : List SortField} {items : List Json} {e : Error}

/-- The first item that has not a value of every sort field fails with the error of its first field
that fails. -/
def FirstItemFails (fields : List SortField) (items : List Json) (e : Error) : Prop :=
  ∃ before item after, items = before ++ item :: after ∧ Keyed fields before ∧
    FirstFails fields item e

/-- A record has a key exactly when it has a value of every field. -/
theorem exists_key_iff {record : Json} :
    (∃ b, (Bookmarker.ofFields fields).bookmarkFor record = .ok b) ↔
      ∀ field ∈ fields, ∃ b, field.bookmarkFor record = .ok b := by
  refine ⟨fun ⟨b, hb⟩ field hfield => ?_, Bookmarker.exists_ofFields_bookmarkFor⟩
  rw [exists_bookmarkFor_iff]
  intro e hfails
  obtain ⟨e, he⟩ := (Bookmarker.ofFields_derivesFrom fields).fails_iff.mpr ⟨field, hfield, e, hfails⟩
  rw [hb] at he
  cases he

/-- Marking items fails at the first item that has no key. -/
theorem mark_eq_error_iff :
    ItemList.mark (.ofFields fields) items = .error e ↔ FirstItemFails fields items e := by
  have hstep {item : Json} {e : Error} :
      ((Bookmarker.ofFields fields).bookmarkFor item).map (fun b => (item, b)) = .error e ↔
        FirstFails fields item e := by
    rw [← (Bookmarker.ofFields_derivesFrom fields).error_iff]
    cases (Bookmarker.ofFields fields).bookmarkFor item <;> simp [Except.map]
  have hkey {item : Json} :
      (∃ z, ((Bookmarker.ofFields fields).bookmarkFor item).map (fun b => (item, b)) = .ok z) ↔
        ∀ field ∈ fields, ∃ b, field.bookmarkFor item = .ok b := by
    rw [← exists_key_iff]
    cases (Bookmarker.ofFields fields).bookmarkFor item <;> simp [Except.map]
  simp only [ItemList.mark, mapM_eq_error_iff, hstep, hkey, FirstItemFails, Keyed]

/-- Every item has a value of every field unless an item is the first that has not. -/
theorem keyed_iff : Keyed fields items ↔ ∀ e, ¬ FirstItemFails fields items e := by
  simp only [← mark_eq_error_iff]
  constructor
  · intro h e he
    obtain ⟨marked, hmarked⟩ := h.exists_mark
    rw [hmarked] at he
    cases he
  · intro h item hitem
    cases hmarked : ItemList.mark (.ofFields fields) items with
    | error e => exact absurd hmarked (h e)
    | ok marked =>
      rw [← ItemList.items_of_mark hmarked] at hitem
      obtain ⟨entry, hentry, rfl⟩ := List.mem_map.mp hitem
      exact exists_key_iff.mp ⟨_, ItemList.bookmarkFor_of_mark hmarked entry hentry⟩

/-- No error of a sort field is about the set-up. -/
theorem FirstFails.ne_config {record : Json} (h : FirstFails fields record e)
    (fault : ConfigFault) : e ≠ .config fault := by
  obtain ⟨-, field, -, -, -, hfails⟩ := h
  cases hfails <;> simp

end SortField

/-! ## What is opened -/

/-- A filter with these options asks at least once, for at least one item. -/
structure FilterOptions.Asks (options : FilterOptions) : Prop where
  rounds : 1 ≤ options.maxRounds
  fetch : 1 ≤ options.maxFetch

mutual

/-- Every filter in a collection has options of a kind. -/
def Collection.EveryFilter (P : FilterOptions → Prop) : {α : Type} → Collection σ α → Prop
  | _, .leaf _ _ => True
  | _, .filter inner _ options => P options ∧ inner.EveryFilter P
  | _, .transform inner _ => inner.EveryFilter P
  | _, .concat sources => sources.EveryFilter P
  | _, .merge sources _ => sources.EveryFilter P

/-- Every filter in a row of collections has options of a kind. -/
def Sources.EveryFilter (P : FilterOptions → Prop) : {α : Type} → Sources σ α → Prop
  | _, .nil => True
  | _, .cons _ collection rest => collection.EveryFilter P ∧ rest.EveryFilter P

end

/-- No override takes the last round away, or changes how much a filter asks for. -/
theorem Settings.Sound.withOverride {settings : Settings} (h : settings.Sound)
    (override : Option String) :
    Run.Ensures (σ := σ) (settings.withOverride override) Settings.Sound := by
  have hfetch : Run.Ensures (σ := σ) (settings.withOverride override)
      fun after => after.filterMaxFetch = settings.filterMaxFetch := by
    rw [withOverride.eq_def]
    split
    · exact .pure rfl
    · split
      · exact .pure rfl
      · exact .note (.pure rfl)
  refine ((withOverride_ensures h.rounds override).and hfetch).mono ?_
  rintro after ⟨hrounds, hfetch⟩
  exact ⟨hrounds, hfetch ▸ h.fetch⟩

namespace Sql.RowSource

/-- The rows of columns are opened unless the database does not connect or does not run the
statements that prepare it. -/
theorem prepare_ensures (database : Database σ) (name : String) {base : Base}
    {fields : List SortField} (hfields : fields ≠ []) (hcolumns : ∀ field ∈ fields, field.IsColumn)
    (setup : Option String) :
    Run.Ensures (prepare database name base fields setup) fun answer =>
      ∀ e, answer = .error e → ∃ text, e = .database text := by
  have hgivesUp (text : String) : ∀ e,
      (.error (.database text) : Except Error (RowSource × Connection σ)) = .error e →
        ∃ text, e = .database text := by
    rintro _ ⟨⟩
    exact ⟨text, rfl⟩
  have hopens (rows : RowSource) (connection : Connection σ) : ∀ e,
      (.ok (rows, connection) : Except Error (RowSource × Connection σ)) = .error e →
        ∃ text, e = .database text := by
    simp
  have hconnect : Run.Ensures (connect database name base fields) fun answer =>
      ∀ e, answer = .error e → ∃ text, e = .database text := by
    refine .bind_any fun answer => ?_
    cases answer with
    | error text => exact .pure (hgivesUp text)
    | ok connection =>
      refine .pure ?_
      rw [make?_of_columns hfields hcolumns]
      exact hopens _ connection
  refine hconnect.bind fun answer hanswer => ?_
  split
  next e => exact .pure (by simpa using hanswer)
  next rows connection =>
    split
    · exact .pure (hopens rows connection)
    · refine .bind_any fun answer => ?_
      split
      next text => exact .pure (hgivesUp text)
      next => exact .pure (hopens rows connection)

end Sql.RowSource

namespace Definition

variable {definition : Definition} {files : Files}

/-- What opening a definition without faults answers. A source that lists its items, itself or in
a file, is opened exactly when every item has a value of every sort field, and otherwise the error
is that of the first item that has not. A database is opened unless it gives up. So without a file
to read no error is about the set-up. In what is opened every filter asks. -/
structure Opens (definition : Definition) (files : Files) (answer : Except Error (Opened σ)) :
    Prop where
  opens_iff : ∀ items, definition.source.items? files = some items →
    ((∃ opened, answer = .ok opened) ↔ SortField.Keyed definition.sort items)
  error_iff : ∀ items, definition.source.items? files = some items →
    ∀ e, answer = .error e ↔ SortField.FirstItemFails definition.sort items e
  database : ∀ name table query setup, definition.source = .database name table query setup →
    ∀ e, answer = .error e → ∃ text, e = .database text
  not_config : (∀ path, definition.source ≠ .file path) →
    ∀ fault, answer ≠ .error (.config fault)
  asks : ∀ opened, answer = .ok opened →
    (definition.collection opened).EveryFilter FilterOptions.Asks

/-- A list is opened under the settings, unless an item has not a value of every sort field. -/
theorem openItems_eq_error_iff {sort : List SortField} {settings : Settings} {items : List Json}
    {e : Error} :
    (openItems sort settings items : Except Error (Opened σ)) = .error e ↔
      SortField.FirstItemFails sort items e := by
  rw [← SortField.mark_eq_error_iff, openItems, ItemList.ofItems?]
  cases ItemList.mark (.ofFields sort) items <;> simp [Except.map]

/-- What is opened has the settings that it is opened under. -/
theorem openSource_settings (database : Sql.Database σ) (files : Files) (definition : Definition)
    (settings : Settings) :
    Run.Ensures (openSource database files definition settings) fun answer =>
      ∀ opened, answer = .ok opened → opened.settings = settings := by
  have hitems (items : List Json) (opened : Opened σ)
      (h : openItems definition.sort settings items = .ok opened) : opened.settings = settings := by
    rw [openItems] at h
    cases hlist : ItemList.ofItems? (.ofFields definition.sort) items with
    | error e =>
      rw [hlist] at h
      cases h
    | ok list =>
      rw [hlist] at h
      exact Except.ok.inj h ▸ rfl
  rw [openSource.eq_def]
  split
  next path _ =>
    refine .pure fun opened h => ?_
    cases hread : readItems files path with
    | error e =>
      rw [hread] at h
      cases h
    | ok items =>
      rw [hread] at h
      exact hitems items opened h
  next items _ => exact .pure (hitems items)
  next =>
    dsimp only
    split
    · exact .pure (by simp)
    · refine .bind_any fun answer => ?_
      split
      · exact .pure (by simp)
      · refine .pure ?_
        rintro _ ⟨⟩
        rfl

/-- A database of a sound source is opened unless it gives up. -/
theorem openSource_database (database : Sql.Database σ) (files : Files) (hsound : definition.Sound)
    (settings : Settings) {name : String} {table query setup : Option String}
    (hsource : definition.source = .database name table query setup) :
    Run.Ensures (openSource database files definition settings) fun answer =>
      ∀ e, answer = .error e → ∃ text, e = .database text := by
  have hsourceSound := hsound.source
  rw [hsource] at hsourceSound
  rw [openSource, hsource]
  cases hsourceSound with
  | table _ hplain | query _ hplain =>
    have hcolumns : ∀ field ∈ definition.sort, field.IsColumn := fun field hfield =>
      ⟨hsound.named field hfield, hplain field hfield⟩
    refine (Sql.RowSource.prepare_ensures database name hsound.sorted hcolumns setup).bind
      fun answer hanswer => ?_
    split
    · exact .pure (by simpa using hanswer)
    · exact .pure (by simp)

/-- In the collection of what is opened under settings that let a filter ask, every filter does. -/
theorem collection_asks {opened : Opened σ} (h : opened.settings.Sound) :
    (definition.collection opened).EveryFilter FilterOptions.Asks := by
  unfold collection
  cases definition.filter with
  | none => cases definition.select <;> simp only [Collection.EveryFilter]
  | some filter =>
    have hasks : (opened.settings.filterOptions filter.sync).Asks := ⟨h.rounds, h.fetch⟩
    cases definition.select <;> simp only [Collection.EveryFilter] <;> exact ⟨hasks, trivial⟩

/-- What is known of an answer makes out all that is said about opening. -/
theorem Opens.of_error_iff {answer : Except Error (Opened σ)}
    (herror : ∀ items, definition.source.items? files = some items →
      ∀ e, answer = .error e ↔ SortField.FirstItemFails definition.sort items e)
    (hdatabase : ∀ name table query setup, definition.source = .database name table query setup →
      ∀ e, answer = .error e → ∃ text, e = .database text)
    (hsettings : ∀ opened, answer = .ok opened → opened.settings.Sound) :
    definition.Opens files answer where
  opens_iff items hitems := by
    rw [SortField.keyed_iff]
    simp only [← herror items hitems]
    cases answer <;> simp
  error_iff := herror
  database := hdatabase
  not_config hpath fault h := by
    -- Each of the two kinds of sources has errors of its own, none of which is about the set-up.
    cases hsource : definition.source with
    | file path => exact hpath path hsource
    | inline items =>
      obtain ⟨_, item, _, -, -, hfails⟩ := (herror items (by rw [hsource]; rfl) _).mp h
      exact hfails.ne_config fault rfl
    | database name table query setup =>
      obtain ⟨text, htext⟩ := hdatabase name table query setup hsource _ h
      cases htext
  asks opened h := collection_asks (hsettings opened h)

/-- **What passes the check opens.** However a definition without faults is opened, from whatever
files and database and under whatever override, its set-up is not at fault. Listed items are opened
unless one of them has not a value of a sort field, which is then named, and a database is opened
unless it gives up. Every filter of the collection asks at least once, for at least one item. -/
theorem openWith_opens (database : Sql.Database σ) (files : Files) (override : Option String)
    (hvalid : definition.check = .ok ()) :
    Run.Ensures (definition.openWith database files override) (definition.Opens files) := by
  have hsound := check_eq_ok_iff.mp hvalid
  refine (hsound.settings.withOverride override).bind fun settings hsettings => ?_
  have herror : Run.Ensures (openSource database files definition settings) fun answer =>
      ∀ items, definition.source.items? files = some items →
        ∀ e, answer = .error e ↔ SortField.FirstItemFails definition.sort items e := by
    intro j items hitems e
    rw [openSource_eq database hitems]
    exact openItems_eq_error_iff
  have hdatabase : Run.Ensures (openSource database files definition settings) fun answer =>
      ∀ name table query setup, definition.source = .database name table query setup →
        ∀ e, answer = .error e → ∃ text, e = .database text :=
    fun j _ _ _ _ hsource => openSource_database database files hsound settings hsource j
  have hopens : Run.Ensures (openSource database files definition settings)
      (definition.Opens files) := fun j =>
    .of_error_iff (herror j) (hdatabase j) fun opened hopened =>
      openSource_settings database files definition settings j opened hopened ▸ hsettings
  refine hopens.bind fun answer hanswer => ?_
  split
  · exact .pure hanswer
  · exact .note (.pure hanswer)

/-- People by age and name, of whom those that have left are not shown. -/
def people (source : SourceDefinition) : Definition where
  name := "people"
  source
  sort := [{ name := "age", kind := .integer }, { name := "name", direction := .descending }]
  filter := some { field := "left", notEquals := some (.bool true) }

/-- People from a source that makes sense under their sort fields make sense. -/
theorem people_check {source : SourceDefinition} (h : source.Sound (people source).sort) :
    (people source).check = .ok () := by
  have hfilled : isFilled "people" := by cbv
  have hsettings : Settings.Sound {} := ⟨by decide, by decide⟩
  refine check_eq_ok_iff.mpr ⟨hfilled, by simp [people], by simp [people], by simp [people], h, ?_,
    by simp [people], hsettings⟩
  rintro _ ⟨⟩
  exact ⟨by simp, by simp⟩

/-- People of known age are opened with a filter that asks, although the override asks for no
round. Of people of whom some are of no known age the first such one is named, and a table with a
quote in its name is no fault of the set-up. -/
theorem people_open :
    let ann : Json := .obj [("age", .int 41), ("name", .str "ann")]
    let bob : Json := .obj [("age", .null), ("name", .int 7)]
    let opening (source : SourceDefinition) := (people source).openWith (Sql.Database.silent Unit)
      (fun _ => .error "") (some " 0 ")
    Run.Ensures (opening (.inline [ann, ann])) (fun answer => ∃ opened, answer = .ok opened ∧
      ((people (.inline [ann, ann])).collection opened).EveryFilter FilterOptions.Asks) ∧
    Run.Ensures (opening (.inline [ann, bob, .null])) (fun answer =>
      answer = .error (.invalidSortValue "age" .nullRefused)) ∧
    Run.Ensures (opening (.database ":memory:" (some "a\"b") none none)) (fun answer =>
      ∀ fault, answer ≠ .error (.config fault)) := by
  intro ann bob opening
  have hann : ∀ field ∈ (people (.inline [])).sort, ∃ b, field.bookmarkFor ann = .ok b := by
    simp only [people, List.mem_cons, List.not_mem_nil, or_false, forall_eq_or_imp, forall_eq]
    exact ⟨⟨_, rfl⟩, _, rfl⟩
  refine ⟨?_, ?_, ?_⟩
  · refine (openWith_opens _ _ _ (people_check (.inline _))).mono fun answer h => ?_
    have hkeyed : SortField.Keyed (people (.inline [])).sort [ann, ann] := by
      simpa [SortField.Keyed] using hann
    obtain ⟨opened, hopened⟩ := (h.opens_iff _ rfl).mpr hkeyed
    exact ⟨opened, hopened, h.asks opened hopened⟩
  · refine (openWith_opens _ _ _ (people_check (.inline _))).mono fun answer h => ?_
    have hkeyed : SortField.Keyed (people (.inline [])).sort [ann] := by
      simpa [SortField.Keyed] using hann
    exact (h.error_iff _ rfl _).mpr ⟨[ann], bob, [.null], rfl, hkeyed, [], _, _, rfl, by simp,
      .null rfl rfl⟩
  · refine (openWith_opens _ _ _ (people_check (.table rfl ?_))).mono fun answer h => ?_
    · simp [people]
    · exact h.not_config (by simp [people])

end Definition

end KeysetPaging
