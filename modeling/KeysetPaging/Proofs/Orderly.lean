import KeysetPaging.Proofs.Gathering
import KeysetPaging.Proofs.Handing

/-! # Collections whose walks are sorted by a key

A collection is orderly when every walk through it, from its beginning or from any place that it
hands out, gives its items in the order of a key. The key need not be what the bookmarks compare. An
orderly collection follows a course that promises as much of everything that is read.
-/

namespace KeysetPaging

variable {σ α : Type} {direction : Direction} {key : α → Bookmark}

/-- The items stand in the order of their keys. Keys may be level. -/
def Direction.SortsBy (direction : Direction) (key : α → Bookmark) (items : List α) : Prop :=
  items.Pairwise fun x y => direction.order (key x) (key y) ≠ .gt

/-- The end of a sorted list can be put in another order that is sorted. -/
theorem Direction.SortsBy.append_of_perm {front back items : List α}
    (h : direction.SortsBy key (front ++ back)) (hperm : items.Perm back)
    (hitems : direction.SortsBy key items) : direction.SortsBy key (front ++ items) := by
  obtain ⟨hfront, -, hacross⟩ := List.pairwise_append.mp h
  exact List.pairwise_append.mpr
    ⟨hfront, hitems, fun x hx y hy => hacross x hx y (hperm.mem_iff.mp hy)⟩

/-- A walk to the end, with pages of any one size, gives sorted items, wherever it starts among the
places that the collection hands out. -/
def Collection.Orderly (direction : Direction) (key : α → Bookmark) (c : Collection σ α) : Prop :=
  ∀ place, c.Hands place → ∀ perPage most, 0 < perPage →
    Run.Ensures (c.walk perPage most (place.map Bookmark.token)) fun walk =>
      walk.finished = true → direction.SortsBy key walk.items

/-- What is read of a collection along a course, with the promise that from places which it hands
out only sorted items are read, and only such as it shows. -/
def Course.orderly (direction : Direction) (key : α → Bookmark) (c : Collection σ α)
    (course : Course α) : Course α :=
  fun place =>
    ⟨fun zs => (course place).Reads zs ∧
        (c.Hands place → direction.SortsBy key (zs.map (·.1)) ∧ ∀ e ∈ zs, c.Shows e),
      (course place).left⟩

namespace Course

variable {c : Collection σ α} {course : Course α} {next : Option Bookmark}

/-- What is read after a page is sorted and shown if the page resumes at a place that is handed
out. -/
theorem reads_ahead_orderly {zs : List (α × Bookmark)}
    (h : ((course.orderly direction key c).ahead next).Reads zs) :
    (course.ahead next).Reads zs ∧ ((∀ b ∈ next, c.Hands (some b)) →
      direction.SortsBy key (zs.map (·.1)) ∧ ∀ e ∈ zs, c.Shows e) := by
  cases next with
  | none =>
    obtain rfl : zs = [] := h
    exact ⟨rfl, fun _ => ⟨.nil, by simp⟩⟩
  | some b => exact ⟨h.1, fun hhands => h.2 (hhands b rfl)⟩

theorem left_ahead_orderly :
    ((course.orderly direction key c).ahead next).left = (course.ahead next).left := by
  cases next <;> rfl

end Course

namespace Collection

variable {c : Collection σ α} {course : Course α} {P : Bookmark → Prop} {place : Option Bookmark}

/-- A collection is orderly when all that can be read from the places it hands out is sorted. -/
theorem orderly_of_reads (hgives : c.supply.Gives P fun place page => page.Answers course place)
    (hkeeps : c.supply.Keeps P) (hP : ∀ b, P b → c.accepts b ∧ b.levels ≤ Document.maxLevels)
    (h : ∀ place, c.Hands place → ∀ zs, (course place).Reads zs →
      direction.SortsBy key (zs.map (·.1))) : c.Orderly direction key := by
  intro place hhands perPage most hperPage
  have hplace := hhands.of_keeps hkeeps
  have hstart := startOf_map_token fun b hb => hP b (hplace b hb)
  rw [walk_eq_walkBy]
  refine (walkBy_reads hgives hP (fun _ => hperPage) most (by rwa [hstart])).mono ?_
  intro walk hwalk hfinished
  obtain ⟨zs, hzs, hitems⟩ := hwalk hfinished
  rw [hstart] at hzs
  rw [hitems]
  exact h place hhands zs hzs

/-- A page of an orderly collection is sorted together with what may be read after it. -/
theorem Orderly.page (h : c.Orderly direction key) (hfollows : c.supply.Follows course)
    (hkeeps : c.supply.Keeps P) (hP : ∀ b, P b → c.accepts b ∧ b.levels ≤ Document.maxLevels)
    (hhands : c.Hands place) {perPage : Nat} {j : Journal σ} {page : Page α}
    (hpage : (c.supply perPage place j).1 = .ok page) :
    ∃ ws, (course.ahead page.nextBookmark).Reads ws ∧
      direction.SortsBy key (page.items ++ ws.map (·.1)) := by
  have hplace := hhands.of_keeps hkeeps
  have hperPage := perPage_pos_of_page hpage
  obtain ⟨hwithin, -⟩ := hkeeps perPage place hplace j page hpage
  -- A walk with pages of this size starts with this page, and enough pages are allowed after it.
  have hwalk := h place hhands perPage ((course.ahead page.nextBookmark).left + 1 + 1) hperPage j
  obtain ⟨after, hafter⟩ := walk_of_page (fun b hb => hP b (hplace b hb)) hperPage hpage
    ((course.ahead page.nextBookmark).left + 1)
  rw [hafter] at hwalk
  cases hnext : page.nextBookmark with
  | none =>
    rw [hnext] at hwalk
    exact ⟨[], rfl, by simpa [Walk.items] using hwalk rfl⟩
  | some b =>
    rw [hnext] at hwalk
    have hb : P b := hwithin.next b hnext
    have hstart : c.startOf (some b.token) = some b := startOf_token (hP b hb).1 (hP b hb).2
    have hrest : Walk.ReadsAll (course (some b))
        (c.walk perPage ((course (some b)).left + 1) (some b.token) after).1 := by
      rw [walk_eq_walkBy, ← hstart]
      refine walkBy_ensures hfollows hkeeps hP (fun _ => hperPage) ?_ (by simp) after
      rw [hstart]
      rintro _ ⟨⟩
      exact hb
    obtain ⟨-, hfinished, -, ws, hws, hitems⟩ := hrest
    refine ⟨ws, hws, ?_⟩
    rw [← hitems]
    exact hwalk hfinished

/-- Some items of a page, and then sorted items that may be read after them, are read in order. -/
theorem Orderly.reads_append (h : c.Orderly direction key) (hsettled : course.Settled)
    (hfollows : c.supply.Follows course) (hkeeps : c.supply.Keeps P)
    (hP : ∀ b, P b → c.accepts b ∧ b.levels ≤ Document.maxLevels) {perPage : Nat} {j : Journal σ}
    {page : Page α} (hpage : (c.supply perPage place j).1 = .ok page)
    (hanswers : page.Answers course place) {front back zs : List (α × Bookmark)}
    (hentries : page.entries = front ++ back) {there : Remainder α}
    (hreaches : (course place).Reaches front there) (hzs : there.Reads zs)
    (hpromise : c.Hands place →
      direction.SortsBy key (zs.map (·.1)) ∧ ∀ e ∈ zs, c.Shows e) :
    (course.orderly direction key c place).Reads (front ++ zs) := by
  have hreads := hreaches.goes zs hzs
  refine ⟨hreads, fun hhands => ?_⟩
  obtain ⟨hsorts, hshown⟩ := hpromise hhands
  constructor
  · -- The rest of the page and what a walk reads after it are the same items as these.
    obtain ⟨ws, hws, hpages⟩ := h.page hfollows hkeeps hP hhands hpage
    rw [hanswers.items_eq, hentries, List.map_append, List.append_assoc] at hpages
    have hwalked := hanswers.covers.goes ws hws
    rw [hentries, List.append_assoc] at hwalked
    obtain ⟨items, hitems⟩ := hsettled place
    have hperm := (hitems _ hreads).trans (hitems _ hwalked).symm
    simp only [List.map_append, List.perm_append_left_iff] at hperm
    rw [List.map_append]
    exact hpages.append_of_perm hperm hsorts
  · intro e he
    rcases List.mem_append.mp he with he | he
    · exact ⟨place, perPage, j, page, hhands, hpage, hentries ▸ List.mem_append_left back he⟩
    · exact hshown e he

/-- **An orderly collection follows the course that promises it**, if from every place it reads the
same items in every case. -/
theorem Orderly.follows (h : c.Orderly direction key) (hsettled : course.Settled)
    (hfollows : c.supply.Follows course) (hkeeps : c.supply.Keeps P)
    (hP : ∀ b, P b → c.accepts b ∧ b.levels ≤ Document.maxLevels) :
    c.supply.Follows (course.orderly direction key c) := by
  intro perPage place hperPage j
  obtain ⟨page, hpage, hanswers⟩ := hfollows perPage place hperPage j
  have hcovers := hanswers.covers
  have hwithin : c.Hands place → page.Within fun b => c.Hands (some b) := by
    intro hhands
    refine (keeps_hands hkeeps perPage place ?_ j page hpage).1
    rintro b rfl
    exact hhands
  refine ⟨page, hpage, hanswers.paired, hanswers.goesOn, ⟨⟨?_, ?_, ?_⟩, ?_⟩, hanswers.gains⟩
  · intro zs hzs
    obtain ⟨hraw, hpromise⟩ := Course.reads_ahead_orderly hzs
    exact h.reads_append hsettled hfollows hkeeps hP hpage hanswers
      (List.append_nil page.entries).symm hcovers.toReaches hraw
      fun hhands => hpromise (hwithin hhands).next
  · rw [Course.left_ahead_orderly]
    exact hcovers.le
  · rw [Course.left_ahead_orderly]
    exact hcovers.lt
  · intro before e after heq
    have hmark := hcovers.marks before e after heq
    have hentries : page.entries = (before ++ [e]) ++ after := by simp [heq]
    refine ⟨fun zs hzs => ?_, hmark.le, hmark.lt⟩
    refine h.reads_append hsettled hfollows hkeeps hP hpage hanswers hentries hmark hzs.1
      fun hhands => hzs.2 ((hwithin hhands).entry ?_)
    simp [heq]

end Collection

end KeysetPaging
