import KeysetPaging.Proofs.Bookmarker
import KeysetPaging.Proofs.Levels
import Mathlib.Data.List.Forall2

/-! # Keys of sort fields

A key of several sort fields is a tuple with a part for each, and a key of one field is the part
itself. Seen as a list of parts, both kinds are derived, accepted and compared field by field.
-/

namespace KeysetPaging

/-- Steps that may fail succeed together when each of them does. -/
theorem mapM_eq_ok_iff {α β : Type} {f : α → Except Error β} {xs : List α} {ys : List β} :
    xs.mapM f = .ok ys ↔ List.Forall₂ (fun x y => f x = .ok y) xs ys := by
  induction xs generalizing ys with
  | nil => cases ys <;> simp [pure, Except.pure, List.forall₂_nil_left_iff]
  | cons x xs ih =>
    rw [List.mapM_cons]
    cases hx : f x with
    | error e => cases ys <;> simp [bind, Except.bind, hx, List.forall₂_nil_right_iff]
    | ok y =>
      cases hxs : xs.mapM f with
      | error e => cases ys <;> simp [bind, Except.bind, ← ih, hx, hxs, List.forall₂_nil_right_iff]
      | ok rest =>
        cases ys <;>
          simp [bind, Except.bind, pure, Except.pure, ← ih, hx, hxs, List.forall₂_nil_right_iff]

/-- Steps of which each succeeds succeed together. -/
theorem exists_mapM_eq_ok {α β : Type} {f : α → Except Error β} : ∀ {xs : List α},
    (∀ x ∈ xs, ∃ y, f x = .ok y) → ∃ ys, xs.mapM f = .ok ys
  | [], _ => ⟨[], rfl⟩
  | x :: xs, h => by
    obtain ⟨y, hy⟩ := h x List.mem_cons_self
    obtain ⟨ys, hys⟩ := exists_mapM_eq_ok fun x hx => h x (List.mem_cons_of_mem _ hx)
    exact ⟨y :: ys, mapM_eq_ok_iff.mpr (.cons hy (mapM_eq_ok_iff.mp hys))⟩

/-! ## Single fields -/

/-- A value of no fixed kind is read as a single value. -/
theorem FieldKind.isScalar_of_readAny {v : Json} {b : Bookmark} (h : readAny v = .ok b) :
    b.isScalar := by
  unfold readAny at h
  split at h
  case h_3 | h_4 =>
    split at h
    · obtain rfl := Except.ok.inj h
      rfl
    · cases h
  all_goals
    first
      | obtain rfl := Except.ok.inj h
        rfl
      | cases h

/-- What a kind reads is null or a value of the kind. -/
theorem FieldKind.accepts_of_read {kind : FieldKind} {v : Json} {b : Bookmark}
    (h : kind.read v = .ok b) (hnull : b.isNull = false) : kind.accepts b := by
  unfold read at h
  dsimp only at h
  split_ifs at h with hv
  · obtain rfl := Except.ok.inj h
    cases hnull
  · cases kind with
    | any => simp [accepts, isScalar_of_readAny h, hnull]
    | _ =>
      dsimp only at h
      split at h
      next c hc =>
        obtain rfl := Except.ok.inj h
        obtain ⟨x, -, rfl⟩ := Option.map_eq_some_iff.mp hc
        rfl
      · cases h

/-- A field accepts what it derives. -/
theorem SortField.accepts_of_bookmarkFor {field : SortField} {record : Json} {b : Bookmark}
    (h : field.bookmarkFor record = .ok b) : field.accepts b := by
  unfold bookmarkFor at h
  rw [accepts]
  split at h
  · split_ifs at h with hnullable
    obtain rfl := Except.ok.inj h
    exact hnullable
  · split at h
    · cases h
    next c hread =>
      split_ifs at h with hrefused
      obtain rfl := Except.ok.inj h
      split_ifs with hnull
      · simpa [hnull] using hrefused
      · exact FieldKind.accepts_of_read hread (by simpa using hnull)

/-- What a field accepts is a single value. -/
theorem SortField.isScalar_of_accepts {field : SortField} {b : Bookmark} (h : field.accepts b) :
    b.isScalar := by
  cases b with
  | null | bool | int | text | time => rfl
  | tuple | concat | merge =>
    obtain ⟨_, kind, _, _⟩ := field
    cases kind <;> cases h

/-! ## Lists of fields -/

/-- The parts of a key: those of a tuple, and of a single value the value itself. -/
def Bookmark.keyParts : Bookmark → List Bookmark
  | .tuple parts => parts
  | b => [b]

theorem Bookmark.keyParts_of_isScalar {b : Bookmark} (h : b.isScalar) : b.keyParts = [b] := by
  cases b <;> first | rfl | cases h

namespace Bookmarker

/-- The bookmarker of a list of fields is that of the only field, or that of a tuple. -/
theorem ofFields_eq (fields : List SortField) :
    (∃ field, fields = [field] ∧ ofFields fields = simple field) ∨
      ofFields fields = composite fields := by
  unfold ofFields
  split
  next field => exact .inl ⟨field, rfl, rfl⟩
  · exact .inr rfl

theorem ofFields_standard (fields : List SortField) : (ofFields fields).Standard := by
  rcases ofFields_eq fields with ⟨field, -, h⟩ | h <;> rw [h]
  · exact .simple field
  · exact .composite fields

/-- A tuple is derived from a record when each of its parts is. -/
theorem composite_bookmarkFor {fields : List SortField} {record : Json} {b : Bookmark}
    (h : (composite fields).bookmarkFor record = .ok b) :
    ∃ parts, b = .tuple parts ∧
      List.Forall₂ (fun field part => field.bookmarkFor record = .ok part) fields parts := by
  change (fields.mapM fun f => SortField.bookmarkFor f record).map Bookmark.tuple = .ok b at h
  cases hparts : fields.mapM fun f => SortField.bookmarkFor f record with
  | error e =>
    rw [hparts] at h
    cases h
  | ok parts =>
    rw [hparts] at h
    exact ⟨parts, (Except.ok.inj h).symm, mapM_eq_ok_iff.mp hparts⟩

/-- The parts of a key are derived for their fields. -/
theorem ofFields_bookmarkFor {fields : List SortField} {record : Json} {b : Bookmark}
    (h : (ofFields fields).bookmarkFor record = .ok b) :
    List.Forall₂ (fun field part => field.bookmarkFor record = .ok part) fields b.keyParts := by
  rcases ofFields_eq fields with ⟨field, rfl, hfields⟩ | hfields <;> rw [hfields] at h
  · have hfield : field.bookmarkFor record = .ok b := h
    rw [Bookmark.keyParts_of_isScalar
      (SortField.isScalar_of_accepts (SortField.accepts_of_bookmarkFor hfield))]
    exact .cons hfield .nil
  · obtain ⟨parts, rfl, hparts⟩ := composite_bookmarkFor h
    exact hparts

/-- A tuple has a value of every field when each part is accepted by the field it stands beside. -/
theorem acceptsParts_iff : ∀ {fields : List SortField} {parts : List Bookmark},
    acceptsParts fields parts ↔ List.Forall₂ (fun field part => field.accepts part) fields parts
  | [], [] => by simp [acceptsParts]
  | field :: fields, part :: parts => by
    rw [acceptsParts, Bool.and_eq_true, acceptsParts_iff, List.forall₂_cons]
  | [], _ :: _ => by simp [acceptsParts, List.forall₂_nil_left_iff]
  | _ :: _, [] => by simp [acceptsParts, List.forall₂_nil_right_iff]

/-- The parts that stand beside fields that accept them are single values. -/
theorem isScalar_of_forall₂ {fields : List SortField} {parts : List Bookmark}
    (h : List.Forall₂ (fun field part => field.accepts part) fields parts) :
    ∀ part ∈ parts, part.isScalar := by
  induction h with
  | nil => simp
  | cons haccepts _ ih =>
    simp only [List.mem_cons, forall_eq_or_imp]
    exact ⟨SortField.isScalar_of_accepts haccepts, ih⟩

/-- A tuple that is accepted has single values for parts, so it nests three levels deep at most. -/
theorem levels_le_of_composite_accepts {fields : List SortField} {b : Bookmark}
    (h : (composite fields).accepts b) : b.levels ≤ 3 := by
  obtain ⟨parts, rfl, hparts⟩ := eq_tuple_of_accepts h
  refine Bookmark.levels_tuple_le.mpr fun part hpart => ?_
  have hscalar := isScalar_of_forall₂ (acceptsParts_iff.mp hparts) part hpart
  exact Nat.le_of_eq (Bookmark.levels_eq_one hscalar)

/-- A key that is accepted is a single value or a tuple of such, so it nests three levels deep at
most. -/
theorem levels_le_of_ofFields_accepts {fields : List SortField} {b : Bookmark}
    (h : (ofFields fields).accepts b) : b.levels ≤ 3 := by
  rcases ofFields_eq fields with ⟨field, rfl, hfields⟩ | hfields <;> rw [hfields] at h
  · have hfield : field.accepts b := h
    rw [Bookmark.levels_eq_one (SortField.isScalar_of_accepts hfield)]
    omega
  · exact levels_le_of_composite_accepts h

/-- A record that has a value of every field has a key. -/
theorem exists_ofFields_bookmarkFor {fields : List SortField} {record : Json}
    (h : ∀ field ∈ fields, ∃ b, field.bookmarkFor record = .ok b) :
    ∃ b, (ofFields fields).bookmarkFor record = .ok b := by
  rcases ofFields_eq fields with ⟨field, rfl, hfields⟩ | hfields <;> rw [hfields]
  · exact h field (List.mem_singleton_self _)
  · obtain ⟨parts, hparts⟩ := exists_mapM_eq_ok h
    exact ⟨.tuple parts, congrArg (Except.map Bookmark.tuple) hparts⟩

/-- A key that is accepted has a part for each field, and the field accepts it. -/
theorem ofFields_accepts {fields : List SortField} {b : Bookmark}
    (h : (ofFields fields).accepts b) :
    List.Forall₂ (fun field part => field.accepts part) fields b.keyParts := by
  rcases ofFields_eq fields with ⟨field, rfl, hfields⟩ | hfields <;> rw [hfields] at h
  · have hfield : field.accepts b := h
    rw [Bookmark.keyParts_of_isScalar (SortField.isScalar_of_accepts hfield)]
    exact .cons hfield .nil
  · obtain ⟨parts, rfl, hparts⟩ := eq_tuple_of_accepts h
    exact acceptsParts_iff.mp hparts

/-- Every tuple that is derived for a record is one that may be asked for. -/
theorem composite_accepts_of_bookmarkFor {fields : List SortField} {record : Json} {b : Bookmark}
    (h : (composite fields).bookmarkFor record = .ok b) : (composite fields).accepts b := by
  obtain ⟨parts, rfl, hparts⟩ := composite_bookmarkFor h
  exact acceptsParts_iff.mpr (hparts.imp fun _ _ => SortField.accepts_of_bookmarkFor)

/-- **Keys of sort fields are accepted.** Every key that is derived for a record is one that may be
asked for. -/
theorem ofFields_accepts_of_bookmarkFor {fields : List SortField} {record : Json} {b : Bookmark}
    (h : (ofFields fields).bookmarkFor record = .ok b) : (ofFields fields).accepts b := by
  rcases ofFields_eq fields with ⟨field, rfl, hfields⟩ | hfields <;> rw [hfields] at h ⊢
  · have hfield : field.bookmarkFor record = .ok b := h
    exact SortField.accepts_of_bookmarkFor hfield
  · exact composite_accepts_of_bookmarkFor h

/-- Keys that are accepted are compared field by field. -/
theorem ofFields_compare {fields : List SortField} {a b : Bookmark}
    (ha : (ofFields fields).accepts a) (hb : (ofFields fields).accepts b) :
    (ofFields fields).compare a b = compareFields fields a.keyParts b.keyParts := by
  rcases ofFields_eq fields with ⟨field, rfl, hfields⟩ | hfields <;> rw [hfields] at ha hb ⊢
  · have hfa : field.accepts a := ha
    have hfb : field.accepts b := hb
    rw [Bookmark.keyParts_of_isScalar (SortField.isScalar_of_accepts hfa),
      Bookmark.keyParts_of_isScalar (SortField.isScalar_of_accepts hfb), compareFields_cons]
    exact (Ordering.then_eq (o := field.direction.order a b)).symm
  · obtain ⟨as, rfl, -⟩ := eq_tuple_of_accepts ha
    obtain ⟨bs, rfl, -⟩ := eq_tuple_of_accepts hb
    rfl

end Bookmarker

end KeysetPaging
