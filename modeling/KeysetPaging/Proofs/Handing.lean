import KeysetPaging.Proofs.Steady
import KeysetPaging.Proofs.Walk

/-! # Places that a collection hands out

A collection hands out places in its answers: one beside every item of a page, and one where the
page resumes on purpose. Asked at such a place it hands out more of them. A collection that is built
on it, like a merge, asks it at no other place. It may be the place of an item in the middle of a
page, at which no walk of the collection itself would ever ask.
-/

namespace KeysetPaging

variable {σ α : Type}

/-! ## Pages as single answers -/

/-- The pages that a supply gives one after another, each asked for where the one before it goes on.
All of them are asked for in the same journal. -/
def Supply.pagesFrom (supply : Supply σ α) (j : Journal σ) (perPage : Nat) :
    (most : Nat) → (place : Option Bookmark) → List (Page α)
  | 0, _ => []
  | most + 1, place =>
      match (supply perPage place j).1 with
      | .error _ => []
      | .ok page =>
          page :: match page.nextBookmark with
            | none => []
            | some b => supply.pagesFrom j perPage most (some b)

/-- Where more pages are allowed, the same pages come first. -/
theorem Supply.pagesFrom_prefix {supply : Supply σ α} {j : Journal σ} {perPage : Nat} (more : Nat) :
    ∀ (most : Nat) (place : Option Bookmark),
      supply.pagesFrom j perPage most place <+: supply.pagesFrom j perPage (most + more) place
  | 0, _ => List.nil_prefix
  | most + 1, place => by
    rw [Nat.add_right_comm, pagesFrom, pagesFrom]
    split
    · exact List.prefix_rfl
    · rw [List.prefix_cons_inj]
      split
      · exact List.prefix_rfl
      · exact pagesFrom_prefix more most _

/-! ## Places that are handed out -/

namespace Collection

/-- The places that a collection hands out: its beginning, and of every page that it answers with at
such a place those beside the items and the one that is fixed for the next page. -/
inductive Hands (c : Collection σ α) : Option Bookmark → Prop where
  | start : c.Hands none
  | mark {place : Option Bookmark} {perPage : Nat} {j : Journal σ} {page : Page α} {b : Bookmark} :
      c.Hands place → (c.supply perPage place j).1 = .ok page → b ∈ page.bookmarks →
        c.Hands (some b)
  | resume {place : Option Bookmark} {perPage : Nat} {j : Journal σ} {page : Page α}
      {b : Bookmark} :
      c.Hands place → (c.supply perPage place j).1 = .ok page → b ∈ page.resumeAt →
        c.Hands (some b)

/-- The collection shows an item with its bookmark, on a page at a place that it hands out. -/
def Shows (c : Collection σ α) (e : α × Bookmark) : Prop :=
  ∃ (place : Option Bookmark) (perPage : Nat) (j : Journal σ) (page : Page α),
    c.Hands place ∧ (c.supply perPage place j).1 = .ok page ∧ e ∈ page.entries

variable {c : Collection σ α} {P : Bookmark → Prop} {place : Option Bookmark}

/-- What a collection hands out has every property that it keeps. -/
theorem Hands.of_keeps (hkeeps : c.supply.Keeps P) (h : c.Hands place) : ∀ b ∈ place, P b := by
  induction h with
  | start => simp
  | mark _ hpage hb ih =>
    rintro _ ⟨⟩
    exact (hkeeps _ _ ih _ _ hpage).1.marks _ hb
  | resume _ hpage hb ih =>
    rintro _ ⟨⟩
    exact (hkeeps _ _ ih _ _ hpage).1.resumed _ hb

/-- A collection keeps to the places that it hands out. -/
theorem keeps_hands (hkeeps : c.supply.Keeps P) : c.supply.Keeps fun b => c.Hands (some b) := by
  intro perPage place hplace j page hpage
  have hhands : c.Hands place := by
    cases place with
    | none => exact .start
    | some b => exact hplace b rfl
  obtain ⟨-, hcurrent⟩ := hkeeps perPage place (hhands.of_keeps hkeeps) j page hpage
  refine ⟨⟨fun b hb => hhands.mark hpage hb, fun b hb => hhands.resume hpage hb, ?_⟩, hcurrent⟩
  rw [hcurrent]
  exact hplace

/-- What a collection shows stands beside a bookmark with every property that it keeps. -/
theorem Shows.of_keeps (hkeeps : c.supply.Keeps P) {e : α × Bookmark} (h : c.Shows e) : P e.2 := by
  obtain ⟨place, perPage, j, page, hhands, hpage, he⟩ := h
  exact (hkeeps perPage place (hhands.of_keeps hkeeps) j page hpage).1.entry he

/-! ## The walk from a place -/

/-- The token of an accepted place names it, and nothing is noted. -/
theorem placeOf_token (h : ∀ b ∈ place, c.accepts b ∧ b.levels ≤ Document.maxLevels) :
    c.placeOf (place.map Bookmark.token) = (pure place : Run σ (Option Bookmark)) := by
  cases place with
  | none => rfl
  | some b =>
    obtain ⟨haccepts, hlevels⟩ := h b rfl
    rw [Option.map_some, placeOf, readToken, Bookmark.readToken_of_levels_le hlevels]
    simp only [pure_bind, haccepts, if_true]

/-- The token of an accepted place starts a page there. -/
theorem startOf_map_token (h : ∀ b ∈ place, c.accepts b ∧ b.levels ≤ Document.maxLevels) :
    c.startOf (place.map Bookmark.token) = place := by
  cases place with
  | none => rfl
  | some b => exact startOf_token (h b rfl).1 (h b rfl).2

/-- A request for a page at an accepted place is answered as the collection answers there. -/
theorem paginate_of_page (h : ∀ b ∈ place, c.accepts b ∧ b.levels ≤ Document.maxLevels)
    {perPage : Nat} (hperPage : 0 < perPage) {j : Journal σ} {page : Page α}
    (hpage : (c.supply perPage place j).1 = .ok page) :
    ∃ after, c.paginate { page := place.map Bookmark.token, perPage := some perPage } j
      = (.ok page, after) := by
  obtain ⟨size, rfl⟩ := Nat.exists_eq_add_one_of_ne_zero (Nat.ne_of_gt hperPage)
  have hanswer : Supply.ofFill c.fill (size + 1) place j = (.ok page, _) := Prod.ext hpage rfl
  simp only [paginate, placeOf_token h, pure_bind]
  exact ⟨_, Run.bind_of_eq hanswer⟩

/-- A walk from an accepted place begins with the page that the collection answers with there, and
goes on where that page leaves off. -/
theorem walk_of_page (h : ∀ b ∈ place, c.accepts b ∧ b.levels ≤ Document.maxLevels) {perPage : Nat}
    (hperPage : 0 < perPage) {j : Journal σ} {page : Page α}
    (hpage : (c.supply perPage place j).1 = .ok page) (most : Nat) :
    ∃ after : Journal σ, (c.walk perPage (most + 1) (place.map Bookmark.token) j).1 =
      match page.nextBookmark with
      | none => { pages := [page], finished := true }
      | some b =>
          let walk := (c.walk perPage most (some b.token) after).1
          { walk with pages := page :: walk.pages } := by
  obtain ⟨after, hafter⟩ := paginate_of_page h hperPage hpage
  refine ⟨after, ?_⟩
  rw [walk, Run.bind_of_eq hafter]
  dsimp only
  cases hnext : page.nextBookmark with
  | none =>
    simp only [Page.nextToken, hnext, Option.map_none]
    rfl
  | some b =>
    simp only [Page.nextToken, hnext, Option.map_some]
    rfl

/-- A walk through a collection that always answers alike goes through the pages that it gives as
single answers. -/
theorem walk_pages (hsteady : c.supply.Steady) (hkeeps : c.supply.Keeps P)
    (hP : ∀ b, P b → c.accepts b ∧ b.levels ≤ Document.maxLevels) {perPage : Nat}
    (hperPage : 0 < perPage) (j : Journal σ) (most : Nat) : ∀ place : Option Bookmark,
    (∀ b ∈ place, P b) → Run.Ensures (c.walk perPage most (place.map Bookmark.token)) fun walk =>
      walk.pages = c.supply.pagesFrom j perPage most place := by
  induction most with
  | zero => exact fun _ _ => .pure rfl
  | succ most ih =>
    intro place hplace
    obtain ⟨answer, hanswer⟩ := hsteady perPage place
    have hstart := startOf_map_token fun b hb => hP b (hplace b hb)
    have hasked := paginate_ensures { page := place.map Bookmark.token, perPage := some perPage }
      rfl hperPage (hstart ▸ hanswer)
    rw [walk, Supply.pagesFrom, hanswer j]
    cases answer with
    | error e =>
      refine hasked.bind ?_
      rintro _ rfl
      exact .pure rfl
    | ok page =>
      obtain ⟨hwithin, -⟩ := hkeeps perPage place hplace j page (hanswer j)
      refine hasked.bind ?_
      rintro _ rfl
      cases hnext : page.nextBookmark with
      | none =>
        simp only [Page.nextToken, hnext, Option.map_none]
        exact .pure rfl
      | some b =>
        simp only [Page.nextToken, hnext, Option.map_some]
        refine (ih (some b) ?_).bind ?_
        · rintro _ ⟨⟩
          exact hwithin.next b hnext
        · intro walk hwalk
          exact .pure (by rw [hwalk])

/-! ## What is read from a place -/

variable {course : Course α}

/-- From every place that a collection keeps something is read, if only nothing at all. -/
theorem exists_reads [Nonempty σ] (hfollows : c.supply.Follows course) (hkeeps : c.supply.Keeps P)
    (hP : ∀ b, P b → c.accepts b ∧ b.levels ≤ Document.maxLevels) (hplace : ∀ b ∈ place, P b) :
    ∃ zs, (course place).Reads zs := by
  obtain ⟨state⟩ := ‹Nonempty σ›
  have hstart := startOf_map_token fun b hb => hP b (hplace b hb)
  have hwalk := walkBy_ensures hfollows hkeeps hP (fun _ => Nat.one_pos)
    (by rw [hstart]; exact hplace) (Nat.lt_succ_self _) ⟨[], state⟩
  obtain ⟨zs, hzs, -⟩ := hwalk.reads
  rw [hstart] at hzs
  exact ⟨zs, hzs⟩

/-- Something is read after every page that resumes at a place which is kept. -/
theorem exists_reads_ahead [Nonempty σ] (hfollows : c.supply.Follows course)
    (hkeeps : c.supply.Keeps P) (hP : ∀ b, P b → c.accepts b ∧ b.levels ≤ Document.maxLevels)
    (hplace : ∀ b ∈ place, P b) : ∃ zs, (course.ahead place).Reads zs := by
  cases place with
  | none => exact ⟨[], rfl⟩
  | some b =>
    change ∃ zs, (course (some b)).Reads zs
    exact exists_reads hfollows hkeeps hP hplace

/-- Pages of no size are not answered. -/
theorem perPage_pos_of_page {perPage : Nat} {j : Journal σ} {page : Page α}
    (hpage : (c.supply perPage place j).1 = .ok page) : 0 < perPage := by
  cases perPage with
  | zero => cases hpage
  | succ size => exact Nat.succ_pos size

/-- What a collection shows is read from some place that it hands out. -/
theorem Shows.exists_reads {e : α × Bookmark} (h : c.Shows e) (hfollows : c.supply.Follows course)
    (hkeeps : c.supply.Keeps P) (hP : ∀ b, P b → c.accepts b ∧ b.levels ≤ Document.maxLevels) :
    ∃ place zs, c.Hands place ∧ (course place).Reads zs ∧ e ∈ zs := by
  obtain ⟨place, perPage, j, page, hhands, hpage, he⟩ := h
  have : Nonempty σ := ⟨j.state⟩
  have hplace := hhands.of_keeps hkeeps
  obtain ⟨hwithin, -⟩ := hkeeps perPage place hplace j page hpage
  obtain ⟨answer, hanswer, hpages⟩ := hfollows perPage place (perPage_pos_of_page hpage) j
  obtain rfl : answer = page := Except.ok.inj (hanswer.symm.trans hpage)
  obtain ⟨ws, hws⟩ := exists_reads_ahead hfollows hkeeps hP hwithin.next
  exact ⟨place, answer.entries ++ ws, hhands, hpages.covers.goes ws hws,
    List.mem_append_left ws he⟩

end Collection

end KeysetPaging
