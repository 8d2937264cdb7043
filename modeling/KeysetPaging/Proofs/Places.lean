import KeysetPaging.Collection.Fill
import KeysetPaging.Proofs.Run
import Mathlib.Tactic.SplitIfs

/-! # Places that a page holds

A page may resume at a place that was fixed, after its last item, or where it started. `Page.Within`
says that all these places have a property, and `Supply.Keeps` that a collection asked at a place
with the property answers with such pages. Each way of building a collection from others keeps a
property of places that fits the way it writes its own.
-/

namespace KeysetPaging

variable {σ α β : Type} {P Q : Bookmark → Prop}

/-- Every place that a page holds has a property. -/
structure Page.Within (P : Bookmark → Prop) (page : Page α) : Prop where
  marks : ∀ b ∈ page.bookmarks, P b
  resumed : ∀ b ∈ page.resumeAt, P b
  starts : ∀ b ∈ page.current, P b

namespace Page.Within

variable {page : Page α}

/-- The place at which the next page resumes is one of those that the page holds. -/
theorem next (h : page.Within P) : ∀ b ∈ page.nextBookmark, P b := by
  intro b hb
  rw [nextBookmark] at hb
  split at hb
  · rw [Option.mem_def, Option.or_eq_some_iff, Option.or_eq_some_iff] at hb
    rcases hb with hfixed | ⟨-, hlast | ⟨-, hcurrent⟩⟩
    · exact h.resumed b hfixed
    · exact h.marks b (List.mem_of_getLast? hlast)
    · exact h.starts b hcurrent
  · cases hb

/-- The bookmark beside an item is one of those that the page holds. -/
theorem entry (h : page.Within P) {e : α × Bookmark} (he : e ∈ page.entries) : P e.2 :=
  h.marks e.2 (List.of_mem_zip he).2

theorem start {perPage : Nat} {place : Option Bookmark} (hperPage : 0 < perPage)
    (h : ∀ b ∈ place, P b) :
    ({ perPage, current := place, perPage_pos := hperPage } : Page α).Within P :=
  ⟨by simp, by simp, h⟩

theorem append (h : page.Within P) {es : List (α × Bookmark)} (hes : ∀ e ∈ es, P e.2) :
    (page.append es).Within P where
  marks b hb := by
    rcases List.mem_append.mp hb with hb | hb
    · exact h.marks b hb
    · obtain ⟨e, he, rfl⟩ := List.mem_map.mp hb
      exact hes e he
  resumed := h.resumed
  starts := h.starts

theorem markMore (h : page.Within P) : page.markMore.Within P :=
  ⟨h.marks, h.resumed, h.starts⟩

theorem resume (h : page.Within P) {place : Option Bookmark} (hplace : ∀ b ∈ place, P b) :
    (page.resume place).Within P :=
  ⟨h.marks, hplace, h.starts⟩

/-- No change that a source makes adds a place to a page. -/
theorem edits (h : page.Within P) (changes : List (Edit α)) : (page.edits changes).Within P := by
  induction changes generalizing page with
  | nil => exact h
  | cons change changes ih =>
    refine ih ?_
    cases change with
    | push | extend | markMore => exact ⟨h.marks, h.resumed, h.starts⟩
    | replace => exact ⟨by simp [Page.edit, Page.replace], h.resumed, h.starts⟩

theorem truncate (h : page.Within P) : page.truncate.Within P := by
  rw [Page.truncate]
  split
  · exact ⟨fun b hb => h.marks b (List.mem_of_mem_take hb), h.resumed, h.starts⟩
  · exact h

end Page.Within

/-- The changes of a source leave the start of a page alone. -/
@[simp] theorem Page.current_edits (page : Page α) (changes : List (Edit α)) :
    (page.edits changes).current = page.current := by
  induction changes generalizing page with
  | nil => rfl
  | cons change changes ih => rw [show page.edits (change :: changes) =
      (page.edit change).edits changes from rfl, ih]; cases change <;> rfl

@[simp] theorem Page.current_truncate (page : Page α) : page.truncate.current = page.current := by
  rw [Page.truncate]
  split <;> rfl

/-- Dropping an overflow keeps the first items, as many as were asked for. -/
theorem Page.items_truncate (page : Page α) :
    page.truncate.items = page.items.take page.perPage := by
  rw [truncate]
  split
  · rfl
  next hfits =>
    simp only [overflows, decide_eq_true_eq, Nat.not_lt] at hfits
    rw [List.take_of_length_le hfits]

/-- Every bookmark that is derived for a list of items belongs to one of them. -/
theorem Page.mem_derive {bookmarkFor : α → Except Error Bookmark} :
    ∀ {items : List α} {b : Bookmark}, b ∈ (derive bookmarkFor items).1 →
      ∃ item ∈ items, bookmarkFor item = .ok b
  | item :: rest, b, hb => by
    rw [derive] at hb
    split at hb
    · cases hb
    next c hc =>
      rcases List.mem_cons.mp hb with rfl | hb
      · exact ⟨item, by simp, hc⟩
      · obtain ⟨other, hmem, hother⟩ := mem_derive hb
        exact ⟨other, List.mem_cons_of_mem item hmem, hother⟩

/-- Deriving the missing bookmarks keeps a property that every derived bookmark has. -/
theorem Page.Within.assign {page : Page α} {bookmarkFor : α → Except Error Bookmark}
    (h : page.Within P) (hderived : ∀ item ∈ page.items, ∀ b, bookmarkFor item = .ok b → P b) :
    (page.assign bookmarkFor).1.Within P where
  marks b hb := by
    rcases List.mem_append.mp hb with hb | hb
    · exact h.marks b (List.mem_of_mem_take hb)
    · obtain ⟨item, hmem, hitem⟩ := Page.mem_derive hb
      exact hderived item (List.mem_of_mem_drop hmem) b hitem
  resumed := h.resumed
  starts := h.starts

/-! ## Supplies that keep a property of places -/

/-- Asked at a place with the property, or at the start, the supply answers with pages that start
there and hold only places with the property. -/
def Supply.Keeps (P : Bookmark → Prop) (supply : Supply σ α) : Prop :=
  ∀ perPage place, (∀ b ∈ place, P b) → Run.Ensures (supply perPage place) fun answer =>
    ∀ page, answer = .ok page → page.Within P ∧ page.current = place

/-- A filled page holds only places with the property, and starts where it did before. -/
def Filled.Keeps (P : Bookmark → Prop) (before : Page α) (filled : Filled α) : Prop :=
  filled.page.Within P ∧ filled.page.current = before.current

/-- A page can be started when it has a size, and holds nothing but its place then. -/
theorem Page.start?_eq_ok {perPage : Nat} {place : Option Bookmark} {page : Page α}
    (h : start? perPage place = .ok page) :
    ∃ hperPage, page = { perPage, current := place, perPage_pos := hperPage } := by
  rw [start?] at h
  split at h
  next hperPage => exact ⟨hperPage, (Except.ok.inj h).symm⟩
  · cases h

/-- What is ensured of every page that is filled without failure from an empty one is ensured of
every page that the supply answers with. -/
theorem Supply.ofFill_ensures {fill : Page α → Run σ (Filled α)} {perPage : Nat}
    {place : Option Bookmark} {T : Page α → Prop}
    (h : ∀ hperPage : 0 < perPage,
      Run.Ensures (fill { perPage, current := place, perPage_pos := hperPage }) fun filled =>
        filled.failure = none → T filled.page) :
    Run.Ensures (Supply.ofFill fill perPage place) fun answer =>
      ∀ page, answer = .ok page → T page := by
  rw [Supply.ofFill, Page.start?]
  split_ifs with hperPage
  · refine (h hperPage).bind fun filled hfilled => ?_
    split
    · exact .pure (by simp)
    next hfailure =>
      refine .pure fun page hpage => ?_
      obtain rfl := Except.ok.inj hpage
      exact hfilled hfailure
  · exact .pure (by simp)

/-- A way of filling pages that keeps a property makes a supply that does. -/
theorem Supply.Keeps.ofFill {fill : Page α → Run σ (Filled α)}
    (h : ∀ page : Page α, page.Within P → Run.Ensures (fill page) (Filled.Keeps P page)) :
    (Supply.ofFill fill).Keeps P :=
  fun _ _ hplace => Supply.ofFill_ensures fun hperPage =>
    (h _ (.start hperPage hplace)).mono fun _ hfilled _ => hfilled

/-- Two properties that are kept are kept together. -/
theorem Supply.Keeps.and {supply : Supply σ α} (hP : supply.Keeps P) (hQ : supply.Keeps Q) :
    supply.Keeps fun b => P b ∧ Q b := by
  intro perPage place hplace
  refine ((hP perPage place fun b hb => (hplace b hb).1).and
    (hQ perPage place fun b hb => (hplace b hb).2)).mono ?_
  rintro answer ⟨hP, hQ⟩ page hpage
  obtain ⟨⟨hmarksP, hresumedP, hstartsP⟩, hcurrent⟩ := hP page hpage
  obtain ⟨⟨hmarksQ, hresumedQ, hstartsQ⟩, -⟩ := hQ page hpage
  exact ⟨⟨fun b hb => ⟨hmarksP b hb, hmarksQ b hb⟩, fun b hb => ⟨hresumedP b hb, hresumedQ b hb⟩,
    fun b hb => ⟨hstartsP b hb, hstartsQ b hb⟩⟩, hcurrent⟩

/-- Dropping an overflow adds no items. -/
theorem Page.mem_items_of_truncate {page : Page α} {item : α} (h : item ∈ page.truncate.items) :
    item ∈ page.items := by
  rw [items_truncate] at h
  exact List.mem_of_mem_take h

/-- A source keeps a property on a page when all the bookmarks have it that are derived for the
items it puts there. -/
theorem Source.fill_keeps {bookmarker : Bookmarker α} {source : Source σ α} {page : Page α}
    (hpage : page.Within P)
    (h : Run.Ensures (source.fetch page) fun fetched =>
      ∀ item ∈ (page.edits fetched.edits).items, ∀ b, bookmarker.bookmarkFor item = .ok b → P b) :
    Run.Ensures (source.fill bookmarker page) (Filled.Keeps P page) := by
  rw [fill]
  refine h.bind fun fetched hitems => ?_
  have hedited := hpage.edits fetched.edits
  dsimp only
  split
  · exact .pure ⟨hedited, by simp⟩
  · have hassigned := hedited.truncate.assign fun item hitem =>
      hitems item (Page.mem_items_of_truncate hitem)
    split
    · exact .note (.pure ⟨hassigned, by simp [Page.assign]⟩)
    · exact .pure ⟨hassigned, by simp [Page.assign]⟩

/-- A source keeps a property that all the bookmarks have that are derived for its items. -/
theorem Source.keeps {bookmarker : Bookmarker α} (source : Source σ α)
    (h : ∀ item b, bookmarker.bookmarkFor item = .ok b → P b) :
    (Supply.ofFill (source.fill bookmarker)).Keeps P :=
  .ofFill fun _ hpage => source.fill_keeps hpage fun _ item _ => h item

end KeysetPaging
