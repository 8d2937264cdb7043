import KeysetPaging.Definition.Check
import Mathlib.Data.List.Basic
import Mathlib.Tactic.SplitIfs
import Mathlib.Tactic.Tauto

/-! # What the check of a definition lets through

The check goes through the parts of a definition and names the first fault that it finds. What it
lets through makes sense in every part: `Definition.Sound` says so part by part, without the order
in which the parts are looked at.
-/

namespace KeysetPaging

/-- A source makes sense under sort fields. A file has a path. A database has a table or a query
that is not blank, and not both, and the fields are no paths into its columns. -/
inductive SourceDefinition.Sound (sort : List SortField) : SourceDefinition → Prop
  | file {path : String} (h : path ≠ "") : Sound sort (.file path)
  | inline (items : List Json) : Sound sort (.inline items)
  | table {name table : String} {setup : Option String} (hfilled : Definition.isFilled table)
      (hplain : ∀ field ∈ sort, '.' ∉ field.name.toList) :
      Sound sort (.database name (some table) none setup)
  | query {name query : String} {setup : Option String} (hfilled : Definition.isFilled query)
      (hplain : ∀ field ∈ sort, '.' ∉ field.name.toList) :
      Sound sort (.database name none (some query) setup)

/-- A filter names a field and one value to compare it with. -/
structure FilterDefinition.Sound (filter : FilterDefinition) : Prop where
  named : filter.field ≠ ""
  compares : filter.equals.isSome ≠ filter.notEquals.isSome

/-- Settings let a filter ask. -/
structure Settings.Sound (settings : Settings) : Prop where
  rounds : 0 < settings.filterMaxRounds
  fetch : 0 < settings.filterMaxFetch

/-- A definition makes sense, part by part. -/
structure Definition.Sound (definition : Definition) : Prop where
  filled : isFilled definition.name
  sorted : definition.sort ≠ []
  named : ∀ field ∈ definition.sort, field.name ≠ ""
  differ : (definition.sort.map (·.name)).Nodup
  source : definition.source.Sound definition.sort
  filter : ∀ filter, definition.filter = some filter → filter.Sound
  select : ∀ paths, definition.select = some paths → paths ≠ [] ∧ "" ∉ paths
  settings : definition.settings.Sound

namespace Definition

variable {definition : Definition} {collection : String}

/-- The names of sort fields pass when none is empty, none was seen before and none repeats. -/
theorem sortFault?_eq_none_iff {seen : List String} {sort : List SortField} :
    sortFault? collection seen sort = none ↔
      (∀ field ∈ sort, field.name ≠ "" ∧ field.name ∉ seen) ∧ (sort.map (·.name)).Nodup := by
  induction sort generalizing seen with
  | nil => simp [sortFault?]
  | cons field rest ih =>
    rw [sortFault?, List.forall_mem_cons, List.map_cons, List.nodup_cons]
    split_ifs with hname hseen
    · simp [hname]
    · simp only [List.contains_iff_mem] at hseen
      simp [hseen]
    · simp only [List.contains_iff_mem] at hseen
      have hfresh : field.name ∉ rest.map (·.name) ↔ ∀ later ∈ rest, later.name ≠ field.name := by
        simp
      simp only [ih, hfresh, List.mem_cons, not_or, hname, hseen, ne_eq, not_false_eq_true,
        true_and, forall_and, and_true]
      tauto

theorem sourceFault?_eq_none_iff :
    definition.sourceFault? = none ↔ definition.source.Sound definition.sort := by
  have hfind : ((definition.sort.find? fun f => f.name.toList.contains '.').map fun field =>
      ConfigFault.dottedColumn definition.name field.name) = none ↔
        ∀ field ∈ definition.sort, '.' ∉ field.name.toList := by
    simp
  rw [sourceFault?.eq_def]
  cases definition.source with
  | file path =>
    constructor
    · intro h
      exact .file (by simpa using h)
    · rintro ⟨h⟩
      simp [h]
  | inline items => exact iff_of_true rfl (.inline items)
  | database name table query setup =>
    dsimp only
    constructor
    · intro h
      split_ifs at h with hchosen
      rw [hfind] at h
      split at hchosen
      · exact .table (by simpa using hchosen) h
      · exact .query (by simpa using hchosen) h
      · simp at hchosen
    · intro h
      cases h with
      | table hfilled hplain | query hfilled hplain =>
        simp only [hfilled, Bool.not_true, Bool.false_eq_true, if_false]
        exact hfind.mpr hplain

theorem filterFault?_eq_none_iff {filter : FilterDefinition} :
    filterFault? collection filter = none ↔ filter.Sound := by
  rw [filterFault?]
  split_ifs with hname hsome
  · exact iff_of_false (by simp) fun h => h.named hname
  · exact iff_of_false (by simp) fun h => h.compares hsome
  · exact iff_of_true rfl ⟨hname, hsome⟩

theorem selectFault?_eq_none_iff {paths : List String} :
    selectFault? collection paths = none ↔ paths ≠ [] ∧ "" ∉ paths := by
  simp [selectFault?]

theorem settingsFault?_eq_none_iff {settings : Settings} :
    settingsFault? collection settings = none ↔ settings.Sound := by
  rw [settingsFault?]
  split_ifs with hzero
  · simp only [Bool.or_eq_true, decide_eq_true_eq] at hzero
    refine iff_of_false (by simp) fun h => ?_
    have := h.rounds
    have := h.fetch
    omega
  · simp only [Bool.or_eq_true, decide_eq_true_eq, not_or] at hzero
    exact iff_of_true rfl ⟨Nat.pos_of_ne_zero hzero.1, Nat.pos_of_ne_zero hzero.2⟩

/-- **The check lets through what makes sense**, and nothing else. -/
theorem check_eq_ok_iff : definition.check = .ok () ↔ definition.Sound := by
  have hcheck : definition.check = .ok () ↔ definition.fault? = none := by
    rw [check]
    cases definition.fault? <;> simp
  have hparts : definition.fault? = none ↔ (isFilled definition.name ∧ definition.sort ≠ []) ∧
      sortFault? definition.name [] definition.sort = none ∧ definition.sourceFault? = none ∧
        definition.filter.bind (filterFault? definition.name) = none ∧
          definition.select.bind (selectFault? definition.name) = none ∧
            settingsFault? definition.name definition.settings = none := by
    rw [fault?]
    split_ifs with hname hsort
    · simp_all
    · simp_all
    · simp only [Bool.not_eq_true, Bool.not_eq_false'] at hname
      simp only [List.isEmpty_iff] at hsort
      simp only [Option.or_eq_none_iff, hname, hsort, ne_eq, not_false_eq_true, and_self, true_and]
  rw [hcheck, hparts, sortFault?_eq_none_iff, sourceFault?_eq_none_iff, settingsFault?_eq_none_iff]
  simp only [Option.bind_eq_none_iff, filterFault?_eq_none_iff, selectFault?_eq_none_iff,
    List.not_mem_nil, not_false_eq_true, and_true]
  constructor
  · rintro ⟨⟨hname, hsort⟩, ⟨hnamed, hdiffer⟩, hsource, hfilter, hselect, hsettings⟩
    exact ⟨hname, hsort, hnamed, hdiffer, hsource, hfilter, hselect, hsettings⟩
  · intro h
    exact ⟨⟨h.filled, h.sorted⟩, ⟨h.named, h.differ⟩, h.source, h.filter, h.select, h.settings⟩

end Definition

end KeysetPaging
