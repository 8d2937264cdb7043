import KeysetPaging.Proofs.SortKeys
import KeysetPaging.Proofs.Token

/-! # What is derived from a record

Each kind of sort field reads some values and refuses all others. A field that takes no null fails
where its value is missing or null, and any field fails on a value that its kind refuses. A key is
derived for a record when no field fails, and if some do, the first of them in the order of the
fields is the one that is named. What is derived is accepted again, and so is its token.
-/

namespace KeysetPaging

/-- Steps that may fail fail together at the first of them that does. -/
theorem mapM_eq_error_iff {α β : Type} {f : α → Except Error β} {xs : List α} {e : Error} :
    xs.mapM f = .error e ↔ ∃ before x after, xs = before ++ x :: after ∧
      (∀ y ∈ before, ∃ z, f y = .ok z) ∧ f x = .error e := by
  induction xs with
  | nil => simp [pure, Except.pure]
  | cons x xs ih =>
    have hcons : (x :: xs).mapM f = .error e ↔
        f x = .error e ∨ (∃ y, f x = .ok y) ∧ xs.mapM f = .error e := by
      rw [List.mapM_cons]
      cases f x <;> cases xs.mapM f <;> simp [bind, Except.bind, pure, Except.pure]
    rw [hcons, ih]
    constructor
    · rintro (hx | ⟨hx, before, y, after, rfl, hbefore, hy⟩)
      · exact ⟨[], x, xs, rfl, by simp, hx⟩
      · exact ⟨x :: before, y, after, rfl, by simpa using ⟨hx, hbefore⟩, hy⟩
    · rintro ⟨before, y, after, heq, hbefore, hy⟩
      cases before with
      | nil =>
        obtain ⟨rfl, -⟩ := List.cons.inj heq
        exact .inl hy
      | cons z before =>
        obtain ⟨rfl, rfl⟩ := List.cons.inj heq
        obtain ⟨hx, hbefore⟩ := List.forall_mem_cons.mp hbefore
        exact .inr ⟨hx, before, y, after, rfl, hbefore, hy⟩

namespace Json

/-- Only a whole number of 64 bits is one. -/
theorem int64?_eq_some_iff {v : Json} {i : Int64} : v.int64? = some i ↔ v = .int i.toInt := by
  have hmin := i.le_toInt
  have hmax := i.toInt_lt
  constructor
  · intro h
    cases v with
    | int n =>
      rw [int64?] at h
      split_ifs at h with hrange
      simp only [minInt, maxInt] at hrange
      rw [← Option.some.inj h, Int64.toInt_ofInt_of_le (by omega) (by omega)]
    | _ => cases h
  · rintro rfl
    rw [int64?, if_pos (by simp only [minInt, maxInt]; omega), Int64.ofInt_toInt]

theorem text?_eq_some_iff {v : Json} {s : String} : v.text? = some s ↔ v = .str s := by
  cases v <;> simp [text?]

theorem bool?_eq_some_iff {v : Json} {b : Bool} : v.bool? = some b ↔ v = .bool b := by
  cases v <;> simp [bool?]

end Json

namespace FieldKind

/-- What a kind reads: null, the values of the kind, and for instants the texts that write one and
the whole seconds since the start of 1970. A kind that is not fixed reads truth values, whole
numbers and texts. -/
inductive Reads : FieldKind → Json → Bookmark → Prop
  | null (kind : FieldKind) : Reads kind .null .null
  | integer (i : Int64) : Reads .integer (.int i.toInt) (.int i)
  | text (s : String) : Reads .text (.str s) (.text s)
  | boolean (b : Bool) : Reads .boolean (.bool b) (.bool b)
  | written {s : String} {t : Instant} (h : Instant.ofTimestamp? s = some t) :
      Reads .timestamp (.str s) (.time t)
  | seconds {i : Int64} {t : Instant} (h : Instant.ofSeconds? i.toInt = some t) :
      Reads .timestamp (.int i.toInt) (.time t)
  | anyInteger (i : Int64) : Reads .any (.int i.toInt) (.int i)
  | anyText (s : String) : Reads .any (.str s) (.text s)
  | anyBoolean (b : Bool) : Reads .any (.bool b) (.bool b)

/-- Only null is read as null. -/
theorem Reads.eq_null {kind : FieldKind} {v : Json} {b : Bookmark} (h : kind.Reads v b)
    (hnull : b.isNull) : v = .null := by
  cases h with
  | null => rfl
  | _ => cases hnull

/-- Why a kind refuses a value that it does not read. -/
def refusal (kind : FieldKind) (v : Json) : ValueFault :=
  match kind, v with
  | .any, .int _ | .any, .float _ => .unsupportedNumber v
  | .any, _ => .unsupportedValue v
  | kind, _ => .expected kind v

/-- An instant is named by a text that writes it, or by its whole seconds. -/
theorem instant?_eq_some_iff {v : Json} {t : Instant} :
    v.instant? = some t ↔ Reads .timestamp v (.time t) := by
  constructor
  · intro h
    unfold Json.instant? at h
    split at h
    · exact .written h
    · obtain ⟨i, hi, hseconds⟩ := Option.bind_eq_some_iff.mp h
      obtain rfl := Json.int64?_eq_some_iff.mp hi
      exact .seconds hseconds
  · intro h
    cases h with
    | written h => exact h
    | @seconds i _ h =>
      change ((Json.int i.toInt).int64?.bind fun i => Instant.ofSeconds? i.toInt) = some t
      rw [Json.int64?_eq_some_iff.mpr rfl]
      exact h

/-- What a kind makes of a value that is not null. -/
def value? (kind : FieldKind) (v : Json) : Option Bookmark :=
  match kind, v with
  | .integer, v => v.int64?.map .int
  | .text, v => v.text?.map .text
  | .boolean, v => v.bool?.map .bool
  | .timestamp, v => v.instant?.map .time
  | .any, .bool b => some (.bool b)
  | .any, .str s => some (.text s)
  | .any, v => v.int64?.map .int

/-- A value that is not null is read or refused. -/
theorem read_eq (kind : FieldKind) (v : Json) : kind.read v =
    if v.isNull then .ok .null
    else match kind.value? v with
      | some b => .ok b
      | none => .error (kind.refusal v) := by
  unfold read
  cases kind with
  | integer | text | boolean | timestamp => rfl
  | any =>
    cases v with
    | int n =>
      simp only [readAny, value?]
      cases (Json.int n).int64? <;> rfl
    | _ => rfl

/-- What a kind makes of a value that is not null is what it reads. -/
theorem value?_eq_some_iff {kind : FieldKind} {v : Json} {b : Bookmark} (hnull : v.isNull = false) :
    kind.value? v = some b ↔ kind.Reads v b := by
  constructor
  · intro h
    unfold value? at h
    split at h
    · obtain ⟨i, hi, rfl⟩ := Option.map_eq_some_iff.mp h
      rw [Json.int64?_eq_some_iff.mp hi]
      exact .integer i
    · obtain ⟨s, hs, rfl⟩ := Option.map_eq_some_iff.mp h
      rw [Json.text?_eq_some_iff.mp hs]
      exact .text s
    · obtain ⟨b, hb, rfl⟩ := Option.map_eq_some_iff.mp h
      rw [Json.bool?_eq_some_iff.mp hb]
      exact .boolean b
    · obtain ⟨t, ht, rfl⟩ := Option.map_eq_some_iff.mp h
      exact instant?_eq_some_iff.mp ht
    · rw [← Option.some.inj h]
      exact .anyBoolean _
    · rw [← Option.some.inj h]
      exact .anyText _
    · obtain ⟨i, hi, rfl⟩ := Option.map_eq_some_iff.mp h
      rw [Json.int64?_eq_some_iff.mp hi]
      exact .anyInteger i
  · intro h
    have hint (i : Int64) : (Json.int i.toInt).int64? = some i := Json.int64?_eq_some_iff.mpr rfl
    cases h with
    | null => cases hnull
    | text | boolean | anyText | anyBoolean => rfl
    | integer i | anyInteger i => simp only [value?, hint, Option.map_some]
    | written h => simp only [value?, instant?_eq_some_iff.mpr (.written h), Option.map_some]
    | seconds h => simp only [value?, instant?_eq_some_iff.mpr (.seconds h), Option.map_some]

/-- **A kind reads just what it says.** -/
theorem read_eq_ok_iff {kind : FieldKind} {v : Json} {b : Bookmark} :
    kind.read v = .ok b ↔ kind.Reads v b := by
  rw [read_eq]
  split_ifs with hnull
  · obtain rfl : v = .null := by cases v <;> first | rfl | cases hnull
    constructor
    · rintro ⟨⟩
      exact .null kind
    · rintro ⟨⟩
      rfl
  · rw [← value?_eq_some_iff (by simpa using hnull)]
    cases kind.value? v <;> simp

/-- **A kind refuses just what it does not read**, and says why. -/
theorem read_eq_error_iff {kind : FieldKind} {v : Json} {fault : ValueFault} :
    kind.read v = .error fault ↔ (∀ b, ¬ kind.Reads v b) ∧ fault = kind.refusal v := by
  simp only [← read_eq_ok_iff]
  rw [read_eq]
  split_ifs
  · simp
  · cases kind.value? v <;> simp [eq_comm]

end FieldKind

namespace SortField

variable {record : Json} {b : Bookmark} {e : Error}

/-- How a field fails on a record: its value is missing or null although it takes no null, or its
kind refuses the value. -/
inductive Fails (field : SortField) (record : Json) : Error → Prop
  | missing (hpath : record.atPath? field.name = none) (hnull : field.nullable = false) :
      Fails field record (.missingSortField field.name)
  | null (hpath : record.atPath? field.name = some .null) (hnull : field.nullable = false) :
      Fails field record (.invalidSortValue field.name .nullRefused)
  | refused {v : Json} (hpath : record.atPath? field.name = some v)
      (hreads : ∀ b, ¬ field.kind.Reads v b) :
      Fails field record (.invalidSortValue field.name (field.kind.refusal v))

/-- **Nothing is derived for a field exactly when it fails.** -/
theorem bookmarkFor_eq_error_iff {field : SortField} :
    field.bookmarkFor record = .error e ↔ field.Fails record e := by
  constructor
  · intro h
    unfold bookmarkFor at h
    split at h
    next hpath =>
      split_ifs at h with hnullable
      rw [← Except.error.inj h]
      exact .missing hpath (by simpa using hnullable)
    next v hpath =>
      split at h
      next fault hread =>
        obtain ⟨hreads, rfl⟩ := FieldKind.read_eq_error_iff.mp hread
        rw [← Except.error.inj h]
        exact .refused hpath hreads
      next b hread =>
        split_ifs at h with hnull
        simp only [Bool.and_eq_true, Bool.not_eq_true'] at hnull
        rw [← Except.error.inj h]
        rw [(FieldKind.read_eq_ok_iff.mp hread).eq_null hnull.1] at hpath
        exact .null hpath hnull.2
  · intro h
    cases h with
    | missing hpath hnull | null hpath hnull =>
      rw [bookmarkFor, hpath, hnull]
      rfl
    | refused hpath hreads =>
      have hread := FieldKind.read_eq_error_iff.mpr ⟨hreads, rfl⟩
      simp only [bookmarkFor, hpath, hread]

/-- The first field that fails on a record, in the order of the fields, fails with an error. -/
def FirstFails (fields : List SortField) (record : Json) (e : Error) : Prop :=
  ∃ before field after, fields = before ++ field :: after ∧
    (∀ earlier ∈ before, ∀ e, ¬ earlier.Fails record e) ∧ field.Fails record e

/-- Something is derived for a field unless it fails. -/
theorem exists_bookmarkFor_iff {field : SortField} :
    (∃ b, field.bookmarkFor record = .ok b) ↔ ∀ e, ¬ field.Fails record e := by
  simp only [← bookmarkFor_eq_error_iff]
  cases field.bookmarkFor record <;> simp

/-- Of a single field the first is that field. -/
theorem firstFails_singleton {field : SortField} :
    FirstFails [field] record e ↔ field.Fails record e := by
  constructor
  · rintro ⟨before, first, after, heq, -, hfails⟩
    obtain ⟨rfl, rfl, rfl⟩ | ⟨-, h⟩ := List.append_eq_singleton_iff.mp heq.symm
    · exact hfails
    · cases h
  · intro hfails
    exact ⟨[], field, [], rfl, by simp, hfails⟩

/-- When any field fails, some field is the first that does. -/
theorem exists_firstFails_iff {fields : List SortField} :
    (∃ e, FirstFails fields record e) ↔ ∃ field ∈ fields, ∃ e, field.Fails record e := by
  constructor
  · rintro ⟨e, before, field, after, rfl, -, hfails⟩
    exact ⟨field, by simp, e, hfails⟩
  · rintro ⟨field, hfield, hfails⟩
    induction fields with
    | nil => cases hfield
    | cons first rest ih =>
      by_cases hfirst : ∃ e, first.Fails record e
      · obtain ⟨e, hfirst⟩ := hfirst
        exact ⟨e, [], first, rest, rfl, by simp, hfirst⟩
      · have hrest : field ∈ rest := by
          rcases List.mem_cons.mp hfield with rfl | hrest
          · exact absurd hfails hfirst
          · exact hrest
        obtain ⟨e, before, later, after, rfl, hbefore, hlater⟩ := ih hrest
        exact ⟨e, first :: before, later, after, rfl,
          by simpa using ⟨by simpa using hfirst, hbefore⟩, hlater⟩

end SortField

namespace Bookmarker

/-- How a bookmarker derives the keys of records from sort fields: what it derives it accepts again,
as a bookmark and as a token, and it fails just when a field does, with the error of the first. -/
structure DerivesFrom (bookmarker : Bookmarker Json) (fields : List SortField) : Prop where
  accepts : ∀ {record b}, bookmarker.bookmarkFor record = .ok b → bookmarker.accepts b
  readToken : ∀ {record b}, bookmarker.bookmarkFor record = .ok b →
    Bookmark.readToken b.token = .ok b
  fails_iff : ∀ {record}, (∃ e, bookmarker.bookmarkFor record = .error e) ↔
    ∃ field ∈ fields, ∃ e, field.Fails record e
  error_iff : ∀ {record e}, bookmarker.bookmarkFor record = .error e ↔
    SortField.FirstFails fields record e

/-- A tuple is derived unless a field fails, and then with the error of the first. -/
theorem composite_eq_error_iff {fields : List SortField} {record : Json} {e : Error} :
    (composite fields).bookmarkFor record = .error e ↔ SortField.FirstFails fields record e := by
  have hparts : (composite fields).bookmarkFor record = .error e ↔
      (fields.mapM fun f => SortField.bookmarkFor f record) = .error e := by
    change (fields.mapM fun f => SortField.bookmarkFor f record).map Bookmark.tuple = .error e ↔ _
    cases fields.mapM fun f => SortField.bookmarkFor f record <;> simp [Except.map]
  rw [hparts, mapM_eq_error_iff]
  simp only [SortField.exists_bookmarkFor_iff, SortField.bookmarkFor_eq_error_iff,
    SortField.FirstFails]

/-- What is accepted nests little enough for a token, and of the fields that fail one is the
first. -/
theorem DerivesFrom.of_error_iff {bookmarker : Bookmarker Json} {fields : List SortField}
    (haccepts : ∀ {record b}, bookmarker.bookmarkFor record = .ok b → bookmarker.accepts b)
    (hlevels : ∀ {b}, bookmarker.accepts b → b.levels ≤ 3)
    (herror : ∀ {record e}, bookmarker.bookmarkFor record = .error e ↔
      SortField.FirstFails fields record e) : bookmarker.DerivesFrom fields where
  accepts := haccepts
  readToken h :=
    Bookmark.readToken_of_levels_le (Nat.le_trans (hlevels (haccepts h)) (by decide))
  fails_iff := (exists_congr fun _ => herror).trans SortField.exists_firstFails_iff
  error_iff := herror

theorem composite_derivesFrom (fields : List SortField) : (composite fields).DerivesFrom fields :=
  .of_error_iff composite_accepts_of_bookmarkFor levels_le_of_composite_accepts
    composite_eq_error_iff

theorem simple_derivesFrom (field : SortField) : (simple field).DerivesFrom [field] := by
  refine .of_error_iff SortField.accepts_of_bookmarkFor (fun h => ?_)
    (SortField.bookmarkFor_eq_error_iff.trans SortField.firstFails_singleton.symm)
  have hlevels := Bookmark.levels_eq_one (SortField.isScalar_of_accepts h)
  omega

theorem ofFields_derivesFrom (fields : List SortField) : (ofFields fields).DerivesFrom fields := by
  rcases ofFields_eq fields with ⟨field, rfl, h⟩ | h <;> rw [h]
  · exact simple_derivesFrom field
  · exact composite_derivesFrom fields

/-- **Keys are derived from sort fields, or fail at the first field that fails.** This holds of
tuples of any fields and of single values of any field: what is derived is accepted again, and its
token names it. Nothing is derived exactly when some field fails, because its value is missing or
null although it takes no null, or because its kind refuses the value, and the error is that of the
first such field. -/
theorem derivesFrom (fields : List SortField) :
    (composite fields).DerivesFrom fields ∧ ∀ field, (simple field).DerivesFrom [field] :=
  ⟨composite_derivesFrom fields, simple_derivesFrom⟩

/-- A score that may be missing, a time and the name of an author. -/
def postFields : List SortField :=
  [{ name := "score", kind := .integer, nullable := true },
    { name := "at", kind := .timestamp, direction := .descending }, { name := "author.name" }]

/-- A post that was not scored has a key, and the score of one that is scored in words is named
before the time that it lacks. -/
theorem postFields_derived :
    (∃ b, (composite postFields).bookmarkFor
        (.obj [("at", .str "2024-02-29 23:59:59+05:30"), ("author", .obj [("name", .str "ada")])])
          = .ok b ∧
      (composite postFields).accepts b ∧ Bookmark.readToken b.token = .ok b) ∧
    (composite postFields).bookmarkFor
        (.obj [("author", .obj [("name", .str "bob")]), ("score", .str "seven")])
      = .error (.invalidSortValue "score" (.expected .integer (.str "seven"))) := by
  have hderives := (derivesFrom postFields).1
  constructor
  · obtain ⟨b, hb⟩ : ∃ b, (composite postFields).bookmarkFor (.obj
        [("at", .str "2024-02-29 23:59:59+05:30"), ("author", .obj [("name", .str "ada")])])
          = .ok b := ⟨_, rfl⟩
    exact ⟨b, hb, hderives.accepts hb, hderives.readToken hb⟩
  · refine hderives.error_iff.mpr ⟨[], _, _, rfl, by simp, ?_⟩
    exact .refused (v := .str "seven") rfl nofun

end Bookmarker

end KeysetPaging
