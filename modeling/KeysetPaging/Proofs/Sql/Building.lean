import KeysetPaging.Proofs.Deriving
import KeysetPaging.Proofs.Paginate
import KeysetPaging.Proofs.Sql.After

/-! # Every accepted place has a query

A bookmarker says which places may be asked for, and a source of rows builds a query for a place.
Each of the two checks the place in its own way, part by part. They agree: for every place that the
bookmarker of the sort fields accepts there is a query, and so no request ends because a key does
not fit the fields.
-/

namespace KeysetPaging

variable {σ α : Type}

/-- A key does not fit the fields of a query: it has another number of parts, or a part of it is no
single value. -/
inductive Error.Misfit : Error → Prop
  | parts (parts fields : Nat) : Misfit (.config (.partsMismatch parts fields))
  | unbindable (field kind : String) : Misfit (.invalidSortValue field (.unbindable kind))

/-- A value of a record is never refused as something that cannot be bound. -/
theorem FieldKind.refusal_ne_unbindable (kind : FieldKind) (v : Json) (name : String) :
    kind.refusal v ≠ .unbindable name := by
  unfold refusal
  split <;> simp

/-- No field fails on a record because of the shape of a key. -/
theorem SortField.Fails.not_misfit {field : SortField} {record : Json} {e : Error}
    (h : field.Fails record e) : ¬ e.Misfit := by
  intro hmisfit
  generalize he : e = fault at hmisfit
  cases hmisfit with
  | parts => cases h <;> cases he
  | unbindable =>
    cases h with
    | missing => cases he
    | null => cases he
    | refused => exact FieldKind.refusal_ne_unbindable _ _ _ (Error.invalidSortValue.inj he).2

/-! ## Why a page fails -/

/-- When deriving the bookmarks of items stops, one of the items has none. -/
theorem Page.exists_of_derive {bookmarkFor : α → Except Error Bookmark} {e : Error} :
    ∀ {items : List α}, (derive bookmarkFor items).2 = some e →
      ∃ item ∈ items, bookmarkFor item = .error e
  | item :: rest, h => by
    rw [derive] at h
    split at h
    next fault hfault =>
      obtain rfl := Option.some.inj h
      exact ⟨item, List.mem_cons_self, hfault⟩
    next =>
      obtain ⟨other, hother, hfails⟩ := exists_of_derive h
      exact ⟨other, List.mem_cons_of_mem _ hother, hfails⟩

/-- A source fails to fill a page when it gives up, or when an item has no bookmark. -/
theorem Source.fill_fails {bookmarker : Bookmarker α} {source : Source σ α} {page : Page α}
    {P : Error → Prop}
    (hfetch : Run.Ensures (source.fetch page) fun fetched => ∀ e ∈ fetched.failure, P e)
    (hderive : ∀ item e, bookmarker.bookmarkFor item = .error e → P e) :
    Run.Ensures (source.fill bookmarker page) fun filled => ∀ e ∈ filled.failure, P e := by
  have hassign (page : Page α) : ∀ e ∈ (page.assign bookmarker.bookmarkFor).2, P e := by
    intro e he
    obtain ⟨item, -, hitem⟩ := Page.exists_of_derive he
    exact hderive item e hitem
  rw [fill]
  refine hfetch.bind fun fetched hfails => ?_
  dsimp only
  split
  next e he => exact .pure (by simpa [he] using hfails)
  next =>
    split
    · exact .note (.pure (hassign _))
    · exact .pure (hassign _)

/-- A supply fails as its way of filling pages does, or for want of a size. -/
theorem Supply.ofFill_fails {fill : Page α → Run σ (Filled α)} {perPage : Nat}
    {place : Option Bookmark} (hperPage : 0 < perPage) {P : Error → Prop}
    (h : ∀ page : Page α, page.current = place →
      Run.Ensures (fill page) fun filled => ∀ e ∈ filled.failure, P e) :
    Run.Ensures (Supply.ofFill fill perPage place) fun answer => ∀ e, answer = .error e → P e := by
  rw [ofFill, Page.start?, dif_pos hperPage]
  refine (h _ rfl).bind fun filled hfails => ?_
  split
  next e he =>
    refine .pure fun _ heq => ?_
    rw [← Except.error.inj heq]
    exact hfails e he
  next =>
    refine .pure ?_
    rintro _ ⟨⟩

namespace Sql.RowSource

/-- Rows are read up to the first that the database does not give or that is no JSON. -/
theorem readRows_fails {e : Error} : ∀ {answer : List (Except String String)},
    (readRows answer).failure = some e → (∃ text, e = .database text) ∨ e = .jsonParse
  | [], h => by cases h
  | .error text :: _, h => .inl ⟨text, (Option.some.inj h).symm⟩
  | .ok row :: rest, h => by
    rw [readRows] at h
    split at h
    · exact .inr (Option.some.inj h).symm
    · exact readRows_fails h

/-- Why a page of rows fails: it has no size, the database gives up, a row is no JSON, or a row has
no key because of the first field that fails. -/
inductive Fault (fields : List SortField) : Error → Prop
  | size : Fault fields .invalidPerPage
  | database (text : String) : Fault fields (.database text)
  | unreadable : Fault fields .jsonParse
  | keyless {record : Json} {e : Error} (h : SortField.FirstFails fields record e) : Fault fields e

theorem Fault.not_misfit {fields : List SortField} {e : Error} (h : Fault fields e) :
    ¬ e.Misfit := by
  cases h with
  | size | database | unreadable => nofun
  | keyless h =>
    obtain ⟨-, field, -, -, -, hfails⟩ := h
    exact hfails.not_misfit

/-! ## Queries for all places -/

variable {rows : RowSource}

/-- A query can be built for a place, whatever the limit. Its text and its values are read back as
the rows of the base in the order of the fields, no more than the limit. -/
def Builds (rows : RowSource) (place : Option Bookmark) : Prop :=
  ∀ limit, ∃ query : Query, rows.query? place limit = .ok query ∧
    query.text = String.ofList (rows.base.opening ++ query.tail) ∧
    readStatement query.tail query.values = some query.statement ∧
    query.statement.keys = rows.fields.map SortKey.ofField ∧
    query.statement.limit = min limit maxLimit

/-- Rows that are sorted by something have a query for every place that their bookmarker accepts. -/
theorem builds_of_accepts (hfields : rows.fields ≠ []) {place : Option Bookmark}
    (h : ∀ b ∈ place, (Bookmarker.ofFields rows.fields).accepts b) : rows.Builds place := by
  intro limit
  cases place with
  | none =>
    let query : Query := ⟨rows.base, rows.fields, none, min limit maxLimit⟩
    exact ⟨query, rfl, query.text_eq, readStatement_tail hfields nofun, rfl, rfl⟩
  | some b =>
    obtain ⟨bounds, hbind, hbounds, -⟩ := bind_of_accepts (h b rfl)
    let query : Query := ⟨rows.base, rows.fields, some bounds, min limit maxLimit⟩
    refine ⟨query, ?_, query.text_eq, readStatement_tail hfields ?_, rfl, rfl⟩
    · rw [query?, hbind]
      rfl
    · rintro _ ⟨⟩ rfl
      exact hfields hbounds.symm

/-- Where there is a query, asking for rows fails only as the database and its rows do. -/
theorem fetch_fails (connection : Connection σ) {page : Page Json}
    (h : rows.Builds page.current) :
    Run.Ensures ((rows.source connection).fetch page) fun fetched =>
      ∀ e ∈ fetched.failure, Fault rows.fields e := by
  obtain ⟨query, hquery, -⟩ := h (page.perPage + 1)
  simp only [source, hquery]
  refine .note (.bind_any fun answer => ?_)
  cases answer with
  | error text =>
    refine .pure ?_
    rintro e ⟨⟩
    exact .database text
  | ok answer =>
    refine .pure fun e he => ?_
    rcases readRows_fails he with ⟨text, rfl⟩ | rfl
    · exact .database text
    · exact .unreadable

/-- Whatever the token and the size of a request for rows, only so much can be the matter. -/
theorem paginate_fails (hfields : rows.fields ≠ []) (connection : Connection σ)
    (request : PageRequest) :
    Run.Ensures ((rows.collection connection).paginate request) fun answer =>
      ∀ e, answer = .error e → Fault rows.fields e := by
  match hsize : request.perPage with
  | none | some 0 =>
    rw [Collection.paginate, hsize]
    refine .pure ?_
    rintro e ⟨⟩
    exact .size
  | some (perPage + 1) =>
    refine Collection.paginate_ensures request hsize (Nat.succ_pos perPage) ?_
    rw [collection, Collection.supply_leaf]
    refine Supply.ofFill_fails (Nat.succ_pos perPage) fun page hpage => ?_
    refine Source.fill_fails (fetch_fails connection (builds_of_accepts hfields ?_)) ?_
    · rw [hpage]
      exact fun b hb => (Collection.accepts_startOf b hb).1
    · exact fun record e h => .keyless ((Bookmarker.ofFields_derivesFrom _).error_iff.mp h)

/-- A source of rows is sorted by something. -/
theorem fields_ne_nil_of_make? {base : Base} {fields : List SortField}
    (h : make? base fields = .ok rows) : rows.fields ≠ [] := by
  rw [make?] at h
  split_ifs at h with hempty
  split at h
  · cases h
  · rw [← Except.ok.inj h]
    simpa using hempty

/-- **No accepted place is without a query.** For the rows of a base, sorted by any columns, a query
can be built for every place that the collection accepts, whatever the limit. The keys of rows are
such places. So no request, whatever its token, ends because a key does not fit the fields, and the
next page of every page can be queried too. -/
theorem accepted_builds {base : Base} {fields : List SortField}
    (h : make? base fields = .ok rows) (connection : Connection σ) :
    (∀ b, (rows.collection connection).accepts b → rows.Builds (some b)) ∧
      (∀ record b, (Bookmarker.ofFields rows.fields).bookmarkFor record = .ok b →
        (rows.collection connection).accepts b ∧ rows.Builds (some b)) ∧
      ∀ request, Run.Ensures ((rows.collection connection).paginate request) fun answer =>
        (∀ e, answer = .error e → ¬ e.Misfit) ∧
          ∀ page, answer = .ok page → rows.Builds page.nextBookmark := by
  have hfields := fields_ne_nil_of_make? h
  have haccepts (b : Bookmark) : (rows.collection connection).accepts b
      = (Bookmarker.ofFields rows.fields).accepts b := by
    simp only [collection, Collection.accepts]
  have hkeeps : (rows.collection connection).supply.Keeps
      fun b => (Bookmarker.ofFields rows.fields).accepts b := by
    rw [collection, Collection.supply_leaf]
    exact Source.keeps _ fun record b => Bookmarker.ofFields_accepts_of_bookmarkFor
  have hbuilds (b : Bookmark) (hb : (Bookmarker.ofFields rows.fields).accepts b) :
      rows.Builds (some b) := by
    refine builds_of_accepts hfields ?_
    rintro _ ⟨⟩
    exact hb
  simp only [haccepts]
  refine ⟨hbuilds, fun record b hb => ?_, fun request => ?_⟩
  · have hb := Bookmarker.ofFields_accepts_of_bookmarkFor hb
    exact ⟨hb, hbuilds b hb⟩
  · have hstart : ∀ b ∈ (rows.collection connection).startOf request.page,
        (Bookmarker.ofFields rows.fields).accepts b := by
      intro b hb
      rw [← haccepts]
      exact (Collection.accepts_startOf b hb).1
    refine ((paginate_fails hfields connection request).and
      (Collection.paginate_keeps hkeeps request hstart)).mono ?_
    rintro answer ⟨hfails, hwithin⟩
    refine ⟨fun e he => (hfails e he).not_misfit, fun page hpage => ?_⟩
    exact builds_of_accepts hfields (hwithin page hpage).1.next

/-- The rows of scores are asked for at a place after a missing score, and a token whose place has
too few parts does not end a request for them. -/
theorem scores_builds :
    let connection := Connection.ofRows Unit (.table "scores") [unscored "bob"]
    ∃ rows : RowSource, make? (.table "scores") scoreFields = .ok rows ∧
      rows.Builds (some (.tuple [.null, .text "ada"])) ∧
      Run.Ensures ((rows.collection connection).paginate
        { page := some (Bookmark.token (.tuple [.int 7])), perPage := some 2 }) fun answer =>
          ∀ e, answer = .error e → ¬ e.Misfit := by
  have hmake : make? (.table "scores") scoreFields = .ok ⟨.table "scores", scoreFields⟩ := by
    cbv
  intro connection
  obtain ⟨hplaces, -, hrequests⟩ := accepted_builds hmake connection
  exact ⟨_, hmake, hplaces _ rfl, (hrequests _).mono fun answer h => h.1⟩

end Sql.RowSource

end KeysetPaging
