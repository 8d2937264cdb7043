import KeysetPaging.Proofs.Opening
import Mathlib.Data.List.Nodup
import Mathlib.Data.List.Perm.Basic

/-! # What a definition keeps and shows

The filter of a definition looks at the value in one field of an item, and a field that is missing
counts as null. The selection shows an object with the selected paths that lead somewhere, each with
the value found there, in the order of their names. So what the sequence of a definition holds can
be told without the functions that filter and select.
-/

namespace KeysetPaging

/-! ## Fields in the order of their names -/

namespace Json

variable {fields : List (String × Json)}

/-- The fields stand strictly in the order of their names, so each name once. -/
def InOrder (fields : List (String × Json)) : Prop :=
  fields.Pairwise fun p q => p.1 < q.1

/-- A name that goes before the first of some fields in order goes before all of them. -/
theorem InOrder.lt_of_lt_head {field : String × Json} {rest : List (String × Json)} {name : String}
    (h : InOrder (field :: rest)) (hlt : name < field.1) : ∀ q ∈ field :: rest, name < q.1 :=
  List.forall_mem_cons.mpr
    ⟨hlt, fun q hq => String.lt_trans hlt ((List.pairwise_cons.mp h).1 q hq)⟩

/-- A field that is put into fields in order takes the place of a field of its name, and leaves all
other fields. -/
theorem mem_insertField {name : String} {value : Json} (h : InOrder fields) {p : String × Json} :
    p ∈ insertField name value fields ↔ p = (name, value) ∨ p ∈ fields ∧ p.1 ≠ name := by
  induction fields with
  | nil => simp [insertField]
  | cons field rest ih =>
    obtain ⟨k, v⟩ := field
    obtain ⟨hfirst, hrest⟩ := List.pairwise_cons.mp h
    have hne : ∀ {n : String} {others : List (String × Json)}, (∀ q ∈ others, n < q.1) →
        p ∈ others → p.1 ≠ n :=
      fun hlt hp heq => String.lt_irrefl _ (heq ▸ hlt p hp)
    rw [insertField]
    split_ifs with heq hlt
    · subst heq
      rw [List.mem_cons, List.mem_cons]
      constructor
      · exact fun hp => hp.imp id fun hp => ⟨.inr hp, hne hfirst hp⟩
      · rintro (rfl | ⟨rfl | hp, hname⟩)
        · exact .inl rfl
        · exact absurd rfl hname
        · exact .inr hp
    · rw [List.mem_cons]
      refine or_congr_right (and_iff_left_of_imp fun hp => ?_).symm
      exact hne (h.lt_of_lt_head hlt) hp
    · rw [List.mem_cons, ih hrest, List.mem_cons]
      constructor
      · rintro (rfl | rfl | ⟨hp, hname⟩)
        · exact .inr ⟨.inl rfl, Ne.symm heq⟩
        · exact .inl rfl
        · exact .inr ⟨.inr hp, hname⟩
      · rintro (rfl | ⟨rfl | hp, hname⟩)
        · exact .inr (.inl rfl)
        · exact .inl rfl
        · exact .inr (.inr ⟨hp, hname⟩)

/-- Fields in order stay in order when a field is put into them. -/
theorem InOrder.insertField {name : String} {value : Json} (h : InOrder fields) :
    InOrder (insertField name value fields) := by
  induction fields with
  | nil => exact List.pairwise_singleton _ _
  | cons field rest ih =>
    obtain ⟨k, v⟩ := field
    obtain ⟨hfirst, hrest⟩ := List.pairwise_cons.mp h
    rw [Json.insertField]
    split_ifs with heq hlt
    · subst heq
      exact List.pairwise_cons.mpr ⟨hfirst, hrest⟩
    · exact List.pairwise_cons.mpr ⟨h.lt_of_lt_head hlt, h⟩
    · refine List.pairwise_cons.mpr ⟨fun q hq => ?_, ih hrest⟩
      rcases (mem_insertField hrest).mp hq with rfl | ⟨hq, -⟩
      · exact Std.lt_of_le_of_ne (String.not_lt.mp hlt) (Ne.symm heq)
      · exact hfirst q hq

theorem sortFields_concat (fields : List (String × Json)) (field : String × Json) :
    sortFields (fields ++ [field]) = insertField field.1 field.2 (sortFields fields) := by
  rw [sortFields, List.foldl_append]
  rfl

/-- Sorted fields are in order. -/
theorem inOrder_sortFields (fields : List (String × Json)) : InOrder (sortFields fields) := by
  induction fields using List.reverseRecOn with
  | nil => exact .nil
  | append_singleton fields field ih =>
    rw [sortFields_concat]
    exact ih.insertField

/-- Sorting keeps all fields, as long as no name has two values. -/
theorem mem_sortFields (h : ∀ p ∈ fields, ∀ q ∈ fields, p.1 = q.1 → p = q) {p : String × Json} :
    p ∈ sortFields fields ↔ p ∈ fields := by
  induction fields using List.reverseRecOn with
  | nil => exact Iff.rfl
  | append_singleton fields field ih =>
    simp only [List.mem_append, List.mem_singleton] at h ⊢
    rw [sortFields_concat, mem_insertField (inOrder_sortFields fields),
      ih fun p hp q hq => h p (.inl hp) q (.inl hq)]
    constructor
    · rintro (rfl | ⟨hp, -⟩)
      · exact .inr rfl
      · exact .inl hp
    · rintro (hp | rfl)
      · by_cases hname : p.1 = field.1
        · exact .inl (h p (.inl hp) field (.inr rfl) hname)
        · exact .inr ⟨hp, hname⟩
      · exact .inl rfl

theorem InOrder.nodup (h : InOrder fields) : fields.Nodup := by
  refine List.Pairwise.imp ?_ h
  rintro p q hlt rfl
  exact String.lt_irrefl _ hlt

/-- Fields in order are settled by which fields they are. -/
theorem InOrder.eq_of_mem_iff {others : List (String × Json)} (h : InOrder fields)
    (hothers : InOrder others) (hmem : ∀ p, p ∈ fields ↔ p ∈ others) : fields = others := by
  refine ((List.perm_ext_iff_of_nodup h.nodup hothers.nodup).mpr hmem).eq_of_pairwise ?_ h hothers
  exact fun p q _ _ hpq hqp => absurd hqp (String.lt_asymm hpq)

/-! ## Projections -/

/-- The object shows of an item the paths of a list that lead somewhere, each with the value there
and nothing else. -/
def Projects (paths : List String) (item shown : Json) : Prop :=
  ∃ fields, shown = .obj fields ∧ InOrder fields ∧
    ∀ path v, (path, v) ∈ fields ↔ path ∈ paths ∧ item.atPath? path = some v

/-- **A projection has exactly the selected paths that are present**, each with its value. -/
theorem project_eq_iff {paths : List String} {item shown : Json} :
    item.project paths = shown ↔ Projects paths item shown := by
  have hfound : ∀ p : String × Json, p ∈ (paths.filterMap fun path =>
      (item.atPath? path).map fun v => (path, v)) ↔ p.1 ∈ paths ∧ item.atPath? p.1 = some p.2 := by
    rintro ⟨path, v⟩
    simp only [List.mem_filterMap, Option.map_eq_some_iff, Prod.mk.injEq]
    constructor
    · rintro ⟨_, hpath, _, hv, rfl, rfl⟩
      exact ⟨hpath, hv⟩
    · rintro ⟨hpath, hv⟩
      exact ⟨path, hpath, v, hv, rfl, rfl⟩
  have hmem : ∀ p : String × Json, p ∈ sortFields (paths.filterMap fun path =>
      (item.atPath? path).map fun v => (path, v)) ↔ p.1 ∈ paths ∧ item.atPath? p.1 = some p.2 := by
    intro p
    rw [mem_sortFields, hfound]
    -- The value of a name is the one at that path, so no name has two of them.
    intro p hp q hq hname
    have hp := ((hfound p).mp hp).2
    rw [hname, ((hfound q).mp hq).2] at hp
    exact Prod.ext hname (Option.some.inj hp).symm
  constructor
  · rintro rfl
    exact ⟨_, rfl, inOrder_sortFields _, fun path v => hmem (path, v)⟩
  · rintro ⟨fields, rfl, horder, hfields⟩
    refine congrArg Json.obj ((inOrder_sortFields _).eq_of_mem_iff horder fun p => ?_)
    rw [hmem p, hfields p.1 p.2]

/-! ## Filters -/

/-- What a filter finds in a field of an item. A field that is missing counts as null. -/
inductive Holds (item : Json) (path : String) : Json → Prop where
  | present {v : Json} (h : item.atPath? path = some v) : Holds item path v
  | missing (h : item.atPath? path = none) : Holds item path .null

theorem exists_holds (item : Json) (path : String) : ∃ v, item.Holds path v := by
  cases h : item.atPath? path with
  | none => exact ⟨_, .missing h⟩
  | some v => exact ⟨v, .present h⟩

end Json

namespace FilterDefinition

variable {filter : FilterDefinition}

/-- A value passes a filter when it is equal to the one value that is given, or when it differs from
the other. -/
inductive Passes (filter : FilterDefinition) (v : Json) : Prop where
  | equal {value : Json} (given : filter.equals = some value) (h : v == value)
  | different {value : Json} (given : filter.notEquals = some value) (h : ¬ v == value)

/-- **A filter keeps the items whose field passes it.** -/
theorem Sound.keeps_iff (h : filter.Sound) {item v : Json} (hv : item.Holds filter.field v) :
    filter.keeps item ↔ filter.Passes v := by
  have hactual : (item.atPath? filter.field).getD .null = v := by
    cases hv with
    | present hpath | missing hpath => rw [hpath]; rfl
  have hcompares := h.compares
  rw [keeps, hactual]
  cases hequals : filter.equals with
  | some value =>
    have hnone : filter.notEquals = none := by simpa [hequals] using hcompares
    constructor
    · exact fun hkept => .equal hequals hkept
    · rintro (⟨hgiven, hequal⟩ | ⟨hgiven, -⟩)
      · obtain rfl := Option.some.inj (hequals.symm.trans hgiven)
        exact hequal
      · cases hnone.symm.trans hgiven
  | none =>
    obtain ⟨value, hvalue⟩ : ∃ value, filter.notEquals = some value :=
      Option.ne_none_iff_exists'.mp (by simpa [hequals] using hcompares)
    rw [hvalue]
    constructor
    · exact fun hkept => .different hvalue (by simpa using hkept)
    · rintro (⟨hgiven, -⟩ | ⟨hgiven, hdiffers⟩)
      · cases hequals.symm.trans hgiven
      · obtain rfl := Option.some.inj (hvalue.symm.trans hgiven)
        simpa using hdiffers

end FilterDefinition

/-! ## The sequence of a definition -/

namespace Definition

variable {definition : Definition}

/-- The definition shows an item as another value: the item itself, or its projection to the paths
that are selected. -/
inductive ShowsAs (definition : Definition) (item : Json) : Json → Prop where
  | whole (h : definition.select = none) : ShowsAs definition item item
  | selected {paths : List String} {shown : Json} (h : definition.select = some paths)
      (projects : item.Projects paths shown) : ShowsAs definition item shown

theorem shows_eq_iff {item shown : Json} :
    definition.shows item = shown ↔ definition.ShowsAs item shown := by
  rw [shows]
  cases hselect : definition.select with
  | none =>
    constructor
    · rintro rfl
      exact .whole hselect
    · rintro (- | ⟨h, -⟩)
      · rfl
      · cases hselect.symm.trans h
  | some paths =>
    dsimp only
    rw [Json.project_eq_iff]
    constructor
    · exact .selected hselect
    · rintro (h | ⟨h, projects⟩)
      · cases hselect.symm.trans h
      · obtain rfl := Option.some.inj (hselect.symm.trans h)
        exact projects

/-- An item is kept when its field passes the filter, if there is one. -/
theorem keeps_iff (hvalid : definition.check = .ok ()) {item : Json} : definition.keeps item ↔
    ∀ filter ∈ definition.filter, ∃ v, item.Holds filter.field v ∧ filter.Passes v := by
  rw [keeps]
  cases hfilter : definition.filter with
  | none => simp
  | some filter =>
    have hsound := (check_eq_ok_iff.mp hvalid).filter filter hfilter
    simp only [Option.mem_some_iff, forall_eq']
    constructor
    · intro hkept
      obtain ⟨v, hv⟩ := item.exists_holds filter.field
      exact ⟨v, hv, (hsound.keeps_iff hv).mp hkept⟩
    · rintro ⟨v, hv, hpasses⟩
      exact (hsound.keeps_iff hv).mpr hpasses

/-- **What the sequence of a definition holds**: what is shown of the items whose field passes the
filter. -/
theorem mem_sequence_iff (hvalid : definition.check = .ok ()) {items : List Json} {shown : Json} :
    shown ∈ definition.sequence items ↔ ∃ item ∈ items,
      (∀ filter ∈ definition.filter, ∃ v, item.Holds filter.field v ∧ filter.Passes v) ∧
        definition.ShowsAs item shown := by
  simp only [sequence, List.mem_map, List.mem_filter, List.mem_mergeSort, keeps_iff hvalid,
    shows_eq_iff, and_assoc]

end Definition

end KeysetPaging
