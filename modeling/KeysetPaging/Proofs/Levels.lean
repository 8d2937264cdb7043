import KeysetPaging.Bookmark.Form
import Mathlib.Data.List.Basic
import Mathlib.Order.Lattice

/-! # How deep bookmarks nest

A bookmark nests as deep as the brackets and braces of its written form. Every joint in a collection
adds a few levels to the bookmarks of its sources, and the reader of bookmarks goes down to a fixed
depth only.
-/

namespace KeysetPaging

namespace Json

mutual

/-- How deep the brackets and braces of a value nest. -/
def levels : Json → Nat
  | .arr items => itemLevels items + 1
  | .obj fields => fieldLevels fields + 1
  | _ => 0

/-- How deep the deepest item of a list nests. -/
def itemLevels : List Json → Nat
  | [] => 0
  | v :: rest => max v.levels (itemLevels rest)

/-- How deep the deepest value of a list of fields nests. -/
def fieldLevels : List (String × Json) → Nat
  | [] => 0
  | (_, v) :: rest => max v.levels (fieldLevels rest)

end

end Json

namespace Document

mutual

/-- How deep the lists and records of a document nest. -/
def levels : Document → Nat
  | .scalar _ _ => 0
  | .list items => itemLevels items + 1
  | .record fields => fieldLevels fields + 1

/-- How deep the deepest item of a list nests. -/
def itemLevels : List Document → Nat
  | [] => 0
  | d :: rest => max d.levels (itemLevels rest)

/-- How deep the deepest part of a list of fields nests, their names included. -/
def fieldLevels : List (Document × Document) → Nat
  | [] => 0
  | (k, d) :: rest => max (max k.levels d.levels) (fieldLevels rest)

end

theorem levels_le_itemLevels {d : Document} : ∀ {items : List Document}, d ∈ items →
    d.levels ≤ itemLevels items
  | e :: rest, h => by
    rw [itemLevels]
    cases h with
    | head => exact Nat.le_max_left _ _
    | tail _ h => exact Nat.le_trans (levels_le_itemLevels h) (Nat.le_max_right _ _)

theorem levels_le_fieldLevels {d : Document} : ∀ {fields : List (Document × Document)},
    d ∈ fields.map (·.2) → d.levels ≤ fieldLevels fields
  | (k, e) :: rest, h => by
    rw [fieldLevels]
    obtain rfl | h := List.mem_cons.mp h
    · exact Nat.le_trans (Nat.le_max_right _ _) (Nat.le_max_left _ _)
    · exact Nat.le_trans (levels_le_fieldLevels h) (Nat.le_max_right _ _)

mutual

/-- The document of a value nests as deep as the value. -/
@[simp] theorem levels_ofJson : ∀ v : Json, (ofJson v).levels = v.levels
  | .null | .bool _ | .int _ | .float _ | .str _ => by simp [ofJson, levels, Json.levels]
  | .arr items => by simp [ofJson, levels, Json.levels, itemLevels_ofItems items]
  | .obj fields => by simp [ofJson, levels, Json.levels, fieldLevels_ofFields fields]

theorem itemLevels_ofItems : ∀ items : List Json,
    itemLevels (ofItems items) = Json.itemLevels items
  | [] => rfl
  | v :: rest => by
    simp [ofItems, itemLevels, Json.itemLevels, levels_ofJson v, itemLevels_ofItems rest]

theorem fieldLevels_ofFields : ∀ fields : List (String × Json),
    fieldLevels (ofFields fields) = Json.fieldLevels fields
  | [] => rfl
  | (_, v) :: rest => by
    simp [ofFields, ofText, levels, fieldLevels, Json.fieldLevels, levels_ofJson v,
      fieldLevels_ofFields rest]

end

/-- Naming the fields of a record leaves their values as they are. -/
theorem map_snd_of_named? : ∀ {fields : List (Document × Document)}
    {named : List (String × Document)}, named? fields = some named →
      named.map (·.2) = fields.map (·.2)
  | [], _, h => by
    obtain rfl : [] = _ := by simpa [named?] using h
    rfl
  | field :: rest, _, h => by
    simp only [named?, List.mapM_cons, Option.bind_eq_bind, Option.bind_eq_some_iff,
      Option.map_eq_some_iff, Option.pure_def, Option.some.injEq] at h
    obtain ⟨_, ⟨_, _, rfl⟩, named, hrest, rfl⟩ := h
    rw [List.map_cons, List.map_cons, map_snd_of_named? hrest]

/-- A value that a record gives to a name nests no deeper than the deepest of its fields. -/
theorem levels_le_of_mem_valuesOf {fields : List (Document × Document)}
    {named : List (String × Document)} (hnamed : named? fields = some named) {name : String}
    {d : Document} (h : d ∈ valuesOf name named) : d.levels ≤ fieldLevels fields := by
  obtain ⟨field, hfield, rfl⟩ := List.mem_map.mp h
  have hvalue : field.2 ∈ named.map (·.2) := List.mem_map_of_mem (List.mem_of_mem_filter hfield)
  rw [map_snd_of_named? hnamed] at hvalue
  exact levels_le_fieldLevels hvalue

end Document

namespace Bookmark

/-- How deep the written form of a bookmark nests. -/
def levels (b : Bookmark) : Nat :=
  b.toJson.levels

/-! ## How deep a bookmark of each shape nests -/

/-- A scalar nests one level deep. -/
theorem levels_eq_one {b : Bookmark} (h : b.isScalar) : b.levels = 1 := by
  cases b <;> simp_all [isScalar, levels, toJson, tagged, Json.levels, Json.fieldLevels]

theorem itemLevels_partsToJson_le {n : Nat} : ∀ bs : List Bookmark,
    Json.itemLevels (partsToJson bs) ≤ n ↔ ∀ b ∈ bs, b.levels ≤ n
  | [] => by simp [partsToJson, Json.itemLevels]
  | b :: bs => by
    simp [partsToJson, Json.itemLevels, itemLevels_partsToJson_le bs, levels]

/-- A tuple nests two levels deeper than its parts. -/
theorem levels_tuple_le {bs : List Bookmark} {n : Nat} :
    (tuple bs).levels ≤ n + 2 ↔ ∀ b ∈ bs, b.levels ≤ n := by
  rw [← itemLevels_partsToJson_le]
  simp [levels, toJson, tagged, Json.levels, Json.fieldLevels]

theorem levels_positionToJson_le {p : Option Bookmark} {n : Nat} :
    (positionToJson p).levels ≤ n ↔ ∀ b ∈ p, b.levels ≤ n := by
  cases p <;> simp [positionToJson, Json.levels, levels]

/-- A place in a source nests two levels deeper than the place there. -/
theorem levels_concat_le {source : String} {p : Option Bookmark} {n : Nat} :
    (concat source p).levels ≤ n + 2 ↔ ∀ b ∈ p, b.levels ≤ n := by
  rw [← levels_positionToJson_le]
  simp [levels, toJson, tagged, Json.levels, Json.fieldLevels]

theorem itemLevels_positionsToJson_le {n : Nat} : ∀ ps : List (String × Option Bookmark),
    Json.itemLevels (positionsToJson ps) ≤ n ↔
      ∀ p ∈ ps, 1 ≤ n ∧ ∀ b ∈ p.2, b.levels + 1 ≤ n
  | [] => by simp [positionsToJson, Json.itemLevels]
  | (source, p) :: ps => by
    cases n with
    | zero =>
      refine iff_of_false (by simp [positionsToJson, Json.itemLevels, Json.levels]) fun h => ?_
      exact Nat.not_succ_le_zero 0 (h _ List.mem_cons_self).1
    | succ n =>
      simp [positionsToJson, Json.itemLevels, itemLevels_positionsToJson_le ps,
        Json.levels, Json.fieldLevels, levels_positionToJson_le]

/-- The list of the places of a merge stands two levels in, and takes a level for every place. -/
theorem levels_merge_le_add_two {ps : List (String × Option Bookmark)} {n : Nat} :
    (merge ps).levels ≤ n + 2 ↔ ∀ p ∈ ps, 1 ≤ n ∧ ∀ b ∈ p.2, b.levels + 1 ≤ n := by
  rw [← itemLevels_positionsToJson_le]
  simp [levels, toJson, tagged, Json.levels, Json.fieldLevels]

/-- The places of a merge nest three levels deeper than the places in its sources. -/
theorem levels_merge_le {ps : List (String × Option Bookmark)} {n : Nat} :
    (merge ps).levels ≤ n + 3 ↔ ∀ p ∈ ps, ∀ b ∈ p.2, b.levels ≤ n := by
  rw [levels_merge_le_add_two (n := n + 1)]
  simp

/-! ## A bookmark that is read nests no deeper than what it is read from -/

/-- What is read from the items of a list is read from one of them. -/
theorem exists_mem_of_mapM {α β : Type} {read : α → Option β} :
    ∀ {as : List α} {bs : List β}, as.mapM read = some bs →
      ∀ b ∈ bs, ∃ a ∈ as, read a = some b
  | [], bs, h => by
    obtain rfl : [] = bs := by simpa using h
    simp
  | a :: as, bs, h => by
    simp only [List.mapM_cons, Option.bind_eq_bind, Option.bind_eq_some_iff, Option.pure_def,
      Option.some.injEq] at h
    obtain ⟨b, hb, rest, hrest, rfl⟩ := h
    simp only [List.mem_cons, forall_eq_or_imp, exists_eq_or_imp]
    exact ⟨.inl hb, fun c hc => .inr (exists_mem_of_mapM hrest c hc)⟩

/-- The place in a part that may be null is read from it. -/
theorem reads_of_orNull {read : Document → Option Bookmark} {d : Document} {p : Option Bookmark}
    (h : Document.orNull read d = some p) : ∀ b ∈ p, read d = some b := by
  rintro b rfl
  rw [Document.orNull] at h
  split at h
  · cases h
  · simpa using h

/-- The place of a labelled place is read from one of its fields. -/
theorem reads_of_placeOfFields? {read : Document → Option Bookmark}
    {fields : List (Document × Document)} {source : String} {p : Option Bookmark}
    (h : placeOfFields? read fields = some (source, p)) :
    ∀ b ∈ p, ∃ d : Document, d.levels ≤ Document.fieldLevels fields ∧ read d = some b := by
  simp only [placeOfFields?, Option.bind_eq_bind, Option.bind_eq_some_iff] at h
  obtain ⟨named, hnamed, h⟩ := h
  split at h
  · simp only [Option.bind_eq_some_iff, Option.some.injEq, Prod.mk.injEq] at h
    obtain ⟨_, _, _, rfl⟩ := h
    simp
  next position _ hposition =>
    simp only [Option.bind_eq_some_iff, Option.some.injEq, Prod.mk.injEq] at h
    obtain ⟨_, _, _, hread, _, rfl⟩ := h
    have hmem : position ∈ Document.valuesOf "position" named := by
      rw [hposition]
      exact List.mem_singleton_self _
    intro b hb
    exact ⟨position, Document.levels_le_of_mem_valuesOf hnamed hmem, reads_of_orNull hread b hb⟩
  · cases h

/-- A document of a merge that names a place is a list or a record, and the place is read from a
part of it. -/
theorem reads_of_place? {read : Document → Option Bookmark} {d : Document} {source : String}
    {p : Option Bookmark} (h : place? read d = some (source, p)) :
    1 ≤ d.levels ∧ ∀ b ∈ p, ∃ part : Document, part.levels + 1 ≤ d.levels ∧
      read part = some b := by
  rw [place?.eq_def] at h
  split at h
  · refine ⟨Nat.succ_pos _, fun b hb => ?_⟩
    obtain ⟨part, hpart, hread⟩ := reads_of_placeOfFields? h b hb
    exact ⟨part, Nat.succ_le_succ hpart, hread⟩
  · simp only [Option.bind_eq_bind, Option.bind_eq_some_iff, Option.some.injEq,
      Prod.mk.injEq] at h
    obtain ⟨_, _, _, rfl⟩ := h
    simp [Document.levels]
  next position =>
    simp only [Option.bind_eq_bind, Option.bind_eq_some_iff, Option.some.injEq,
      Prod.mk.injEq] at h
    obtain ⟨_, _, _, hread, _, rfl⟩ := h
    refine ⟨Nat.succ_pos _, fun b hb => ⟨position, ?_, reads_of_orNull hread b hb⟩⟩
    exact Nat.succ_le_succ (Document.levels_le_itemLevels (by simp))
  · cases h

/-- What is read without parts is a scalar. -/
theorem isScalar_of_scalar? {kind : String} {content : Document} {b : Bookmark}
    (h : scalar? kind content = some b) : b.isScalar := by
  rw [scalar?.eq_def] at h
  split at h
  · split at h
    · obtain rfl := Option.some.inj h
      rfl
    · cases h
  · obtain ⟨_, _, rfl⟩ := Option.map_eq_some_iff.mp h
    rfl
  · obtain ⟨_, _, rfl⟩ := Option.map_eq_some_iff.mp h
    rfl
  · obtain ⟨_, _, rfl⟩ := Option.map_eq_some_iff.mp h
    rfl
  · obtain ⟨_, _, rfl⟩ := Option.map_eq_some_iff.mp h
    rfl
  · cases h

/-- A document that has a shape is a list or a record, and its content is a part of it. -/
theorem levels_of_split? {n : Nat} {d : Document} {kind : String} {content : Option Document}
    (h : split? n d = some (kind, content)) :
    1 ≤ d.levels ∧ ∀ c ∈ content, c.levels + 1 ≤ d.levels := by
  rw [split?.eq_def] at h
  split at h
  · simp only [Option.bind_eq_bind, Option.bind_eq_some_iff, Option.some.injEq,
      Prod.mk.injEq] at h
    obtain ⟨_, _, _, rfl⟩ := h
    refine ⟨Nat.succ_pos _, fun c hc => ?_⟩
    obtain rfl := Option.mem_some_iff.mp hc
    exact Nat.succ_le_succ (Document.levels_le_itemLevels (by simp))
  · simp only [Option.bind_eq_bind, Option.bind_eq_some_iff] at h
    obtain ⟨named, hnamed, h⟩ := h
    refine ⟨Nat.succ_pos _, ?_⟩
    split at h
    · simp only [Option.bind_eq_some_iff, Option.some.injEq, Prod.mk.injEq] at h
      obtain ⟨_, _, _, rfl⟩ := h
      simp
    next value _ hvalue =>
      have hmem : value ∈ Document.valuesOf "value" named := by
        rw [hvalue]
        exact List.mem_singleton_self _
      simp only [Option.bind_eq_some_iff] at h
      obtain ⟨_, _, h⟩ := h
      split at h
      · cases h
      · simp only [Option.some.injEq, Prod.mk.injEq] at h
        obtain ⟨_, rfl⟩ := h
        intro c hc
        obtain rfl := Option.mem_some_iff.mp hc
        exact Nat.succ_le_succ (Document.levels_le_of_mem_valuesOf hnamed hmem)
    · cases h
  · cases h

/-- A reader that goes down some levels reads no bookmark that nests deeper than that, nor one
that nests deeper than the document. -/
theorem levels_le_min_of_ofDocument? (n : Nat) {d : Document} {b : Bookmark}
    (h : ofDocument? n d = some b) : b.levels ≤ min n d.levels := by
  -- The parts of a bookmark are read two or three levels further in, so the induction is strong.
  induction n using Nat.strongRecOn generalizing d b with
  | ind n ih =>
    cases n with
    | zero => simp [ofDocument?] at h
    | succ n =>
      rw [ofDocument?] at h
      split at h
      · cases h
      next hsplit =>
        have hd := (levels_of_split? hsplit).1
        split at h
        · obtain rfl := Option.some.inj h
          rw [levels_eq_one (b := .null) rfl]
          omega
        · cases h
      next kind content hsplit =>
        have hcontent := (levels_of_split? hsplit).2 content rfl
        split at h
        next inner items =>
          rw [Document.levels] at hcontent
          have hd : min inner (Document.itemLevels items) + 2 ≤ min (inner + 1 + 1) d.levels := by
            omega
          split at h
          · -- The parts of a tuple stand two levels further in.
            obtain ⟨parts, hparts, rfl⟩ := Option.map_eq_some_iff.mp h
            refine Nat.le_trans (levels_tuple_le.mpr fun part hpart => ?_) hd
            obtain ⟨item, hitem, hread⟩ := exists_mem_of_mapM hparts part hpart
            have := ih inner (by omega) hread
            have := Document.levels_le_itemLevels hitem
            omega
          · split at h
            · refine Nat.le_trans ?_ hd
              split at h
              · split at h
                · obtain rfl := Option.some.inj h
                  exact levels_merge_le_add_two.mpr (by simp)
                · cases h
              next deepest =>
                -- The places of a merge stand three levels further in.
                obtain ⟨ps, hps, rfl⟩ := Option.map_eq_some_iff.mp h
                refine levels_merge_le_add_two.mpr fun ⟨source, p⟩ hp => ?_
                obtain ⟨item, hitem, hread⟩ := exists_mem_of_mapM hps (source, p) hp
                obtain ⟨hpos, hplace⟩ := reads_of_place? hread
                have := Document.levels_le_itemLevels hitem
                refine ⟨by omega, fun c hc => ?_⟩
                obtain ⟨part, hpart, hc⟩ := hplace c hc
                have := ih deepest (by omega) hc
                omega
            · cases h
        next inner fields =>
          rw [Document.levels] at hcontent
          split_ifs at h
          obtain ⟨⟨source, p⟩, hp, rfl⟩ := Option.map_eq_some_iff.mp h
          have hd : min inner (Document.fieldLevels fields) + 2
              ≤ min (inner + 1 + 1) d.levels := by omega
          refine Nat.le_trans (levels_concat_le.mpr fun c hc => ?_) hd
          obtain ⟨part, hpart, hc⟩ := reads_of_placeOfFields? hp c hc
          have := ih inner (by omega) hc
          omega
        · rw [levels_eq_one (isScalar_of_scalar? h)]
          omega

/-- A reader that goes down some levels reads no bookmark that nests deeper. -/
theorem levels_le_of_ofDocument? (n : Nat) {d : Document} {b : Bookmark}
    (h : ofDocument? n d = some b) : b.levels ≤ n :=
  Nat.le_trans (levels_le_min_of_ofDocument? n h) (Nat.min_le_left _ _)

/-- A bookmark nests no deeper than the document it is read from. -/
theorem levels_le_levels_of_ofDocument? {n : Nat} {d : Document} {b : Bookmark}
    (h : ofDocument? n d = some b) : b.levels ≤ d.levels :=
  Nat.le_trans (levels_le_min_of_ofDocument? n h) (Nat.min_le_right _ _)

end Bookmark

end KeysetPaging
