import KeysetPaging.Proofs.Walk

/-! # Walks through lists that change

Items come and go between the pages of a walk, and a page reads the list as it is when the page is
asked for. A place is a bookmark, not a position, so it means the same in every list of one
bookmarker, also when its own item is gone. Each page therefore reads the items between the place
where it starts and the place where the next one resumes. These spans follow each other without
overlap and without a gap, and an item that stays is found in the one span that it belongs to.
-/

namespace KeysetPaging

open Std

variable {σ α β : Type}

/-! ## Filters and transformations on top of a list -/

/-- Filters and transformations on top of each other, from items of one type to images of
another. -/
inductive Pipe (α : Type) : Type → Type 1 where
  | source : Pipe α α
  | filter {β : Type} (inner : Pipe α β) (keep : β → Bool) (options : FilterOptions)
      (rounds_pos : 0 < options.maxRounds) : Pipe α β
  | transform {β γ : Type} (inner : Pipe α β) (f : β → γ) : Pipe α γ

namespace Pipe

/-- A list of items with filters and transformations on top of it. -/
def tree (shelf : Shelf α) : {β : Type} → Pipe α β → Tree β
  | _, .source => .leaf shelf
  | _, .filter inner keep options rounds_pos => .filter (inner.tree shelf) keep options rounds_pos
  | _, .transform inner f => .transform (inner.tree shelf) f

/-- The image of an item, unless a filter leaves it out. -/
def image : {β : Type} → Pipe α β → α → Option β
  | _, .source, item => some item
  | _, .filter inner keep _ _, item => (inner.image item).filter keep
  | _, .transform inner f, item => (inner.image item).map f

/-- The image of an item with the bookmark of the item. -/
def entry (pipe : Pipe α β) (e : α × Bookmark) : Option (β × Bookmark) :=
  (pipe.image e.1).map fun image => (image, e.2)

theorem entry_eq_some {pipe : Pipe α β} {e : α × Bookmark} {f : β × Bookmark} :
    pipe.entry e = some f ↔ pipe.image e.1 = some f.1 ∧ e.2 = f.2 := by
  obtain ⟨image, b⟩ := f
  simp [entry]

/-- Nothing on top of a list changes which bookmarks are its places. -/
theorem accepts_tree (shelf : Shelf α) : ∀ {β : Type} (pipe : Pipe α β) (b : Bookmark),
    ((pipe.tree shelf).collection σ).accepts b = shelf.bookmarker.accepts b
  | _, .source, _ => rfl
  | _, .filter inner _ _ _, b => accepts_tree shelf inner b
  | _, .transform inner _, b => accepts_tree shelf inner b

/-- Nothing on top of a list changes how deep its bookmarks nest. -/
theorem levels_tree (shelf : Shelf α) : ∀ {β : Type} (pipe : Pipe α β),
    (pipe.tree shelf).levels = shelf.levels
  | _, .source => rfl
  | _, .filter inner _ _ _ => levels_tree shelf inner
  | _, .transform inner _ => levels_tree shelf inner

/-- What is read from a place on: the images of the items after it that pass. -/
theorem reads_iff (shelf : Shelf α) (place : Option Bookmark) :
    ∀ {β : Type} (pipe : Pipe α β) {zs : List (β × Bookmark)},
      ((pipe.tree shelf).course place).Reads zs ↔
        zs = (shelf.list.after place).filterMap pipe.entry
  | _, .source, zs => by
    rw [tree, Tree.course, shelf.course_eq]
    show zs = shelf.list.after place ↔ _
    have hentry : (source : Pipe α α).entry = some := rfl
    rw [hentry, List.filterMap_some]
  | _, .filter inner keep options rounds_pos, zs => by
    have hentry : (inner.filter keep options rounds_pos).entry
        = fun e => (inner.entry e).filter fun f => keep f.1 := by
      funext e
      simp only [entry, image]
      cases inner.image e.1 with
      | none => rfl
      | some b =>
        rw [Option.filter_some, Option.map_some, Option.filter_some]
        split <;> rfl
    rw [hentry, ← List.filter_filterMap]
    show (∃ es, ((inner.tree shelf).course place).Reads es ∧ _) ↔ _
    simp only [reads_iff shelf place inner, exists_eq_left]
  | _, .transform inner f, zs => by
    have hentry : (inner.transform f).entry
        = fun e => (inner.entry e).map fun g => (f g.1, g.2) := by
      funext e
      simp only [entry, image, Option.map_map]
      rfl
    rw [hentry, ← List.map_filterMap]
    show (∃ es, ((inner.tree shelf).course place).Reads es ∧ _) ↔ _
    simp only [reads_iff shelf place inner, exists_eq_left]

/-- As many items are left from a place on as come after it, whether they pass or not. -/
theorem left_tree (shelf : Shelf α) (place : Option Bookmark) : ∀ {β : Type} (pipe : Pipe α β),
    ((pipe.tree shelf).course place).left = (shelf.list.after place).length
  | _, .source => by
    rw [tree, Tree.course, shelf.course_eq]
    rfl
  | _, .filter inner _ _ _ => left_tree shelf place inner
  | _, .transform inner _ => left_tree shelf place inner

end Pipe

/-! ## The span of a page -/

/-- A bookmark comes after a place. Every bookmark comes after the start. -/
def Bookmarker.Past (bookmarker : Bookmarker α) (place : Option Bookmark) (b : Bookmark) : Prop :=
  ∀ c ∈ place, bookmarker.compare b c = .gt

/-- A list whose items have a property, up to one from which on none has, is those with the
property and then the others. -/
theorem filter_append_filter_not {p : α → Bool} : ∀ {l : List α},
    l.Pairwise (fun a b => p b → p a) → l.filter p ++ l.filter (fun a => !p a) = l
  | [], _ => rfl
  | a :: l, h => by
    obtain ⟨hfirst, hrest⟩ := List.pairwise_cons.mp h
    by_cases ha : p a = true
    · simp [ha, filter_append_filter_not hrest]
    · -- The first item does not have the property, so none of the others has it.
      have hnone : ∀ b ∈ l, p b = false := fun b hb => by
        have := mt (hfirst b hb) ha
        simpa using this
      have hkept : l.filter p = [] := List.filter_eq_nil_iff.mpr fun b hb => by simp [hnone b hb]
      have hrest : l.filter (fun b => !p b) = l :=
        List.filter_eq_self.mpr fun b hb => by simp [hnone b hb]
      simp [ha, hkept, hrest]

namespace Shelf

variable (shelf : Shelf α) {place : Option Bookmark} {b : Bookmark}

/-- The items after a place are those of the list whose bookmarks come after it. -/
theorem mem_after {e : α × Bookmark} : e ∈ shelf.list.after place ↔
    e ∈ shelf.list.entries ∧ shelf.bookmarker.Past place e.2 := by
  cases place with
  | none => simp [ItemList.after, Bookmarker.Past]
  | some c => simp [shelf.after_some, Bookmarker.Past]

/-- The items after a place stand strictly in order. -/
theorem after_pairwise (place : Option Bookmark) :
    (shelf.list.after place).Pairwise fun e f => shelf.bookmarker.compare e.2 f.2 = .lt := by
  obtain ⟨before, hbefore⟩ := shelf.list.after_suffix place
  have hsorted := shelf.entries_pairwise
  rw [hbefore] at hsorted
  exact (List.pairwise_append.mp hsorted).2.1

/-- A place after which fewer items come is further on. -/
theorem past_of_length_lt
    (h : (shelf.list.after (some b)).length < (shelf.list.after place).length) :
    shelf.bookmarker.Past place b := by
  have := shelf.standard.transCmp
  rintro c rfl
  by_contra hle
  have hge : (shelf.bookmarker.compare c b).isGE :=
    OrientedCmp.isGE_of_isLE (Ordering.isLE_iff_ne_gt.mpr hle)
  -- What comes after the second place would come after the first one too.
  have hsub : (shelf.list.after (some c)).Sublist (shelf.list.after (some b)) := by
    rw [shelf.after_some, shelf.after_some]
    refine List.monotone_filter_right _ fun e he => ?_
    rw [beq_iff_eq] at he ⊢
    exact TransCmp.gt_of_gt_of_isGE he hge
  have := hsub.length_le
  omega

/-- What comes after a place is what comes up to a place further on, and then what comes after
that one. -/
theorem after_split (h : shelf.bookmarker.Past place b) : shelf.list.after place
    = (shelf.list.after place).filter (fun e => shelf.bookmarker.compare e.2 b != .gt)
        ++ shelf.list.after (some b) := by
  have := shelf.standard.transCmp
  have hrest : (shelf.list.after place).filter
      (fun e => !(shelf.bookmarker.compare e.2 b != .gt)) = shelf.list.after (some b) := by
    rw [shelf.after_some]
    cases place with
    | none => simp [ItemList.after, bne]
    | some c =>
      rw [shelf.after_some, List.filter_filter]
      refine List.filter_congr fun e _ => ?_
      rw [Bool.eq_iff_iff]
      simp only [bne, Bool.not_not, Bool.and_eq_true, beq_iff_eq]
      exact ⟨fun he => he.1, fun he => ⟨he, TransCmp.gt_trans he (h c rfl)⟩⟩
  rw [← hrest, filter_append_filter_not]
  refine (shelf.after_pairwise place).imp fun {e f} hef hf => ?_
  rw [bne_iff_ne] at hf ⊢
  exact fun he => hf (TransCmp.gt_trans (OrientedCmp.gt_of_lt hef) he)

end Shelf

/-- The page of a changing list: it holds the images of the items between the place where it starts
and the place where the next page resumes, which is further on. -/
structure Page.Spans (shelf : Shelf α) (pipe : Pipe α β) (place : Option Bookmark)
    (page : Page β) : Prop where
  items_eq : page.items = page.entries.map (·.1)
  advances : ∀ b ∈ page.nextBookmark, shelf.bookmarker.Past place b
  last : page.nextBookmark = none →
    page.entries = (shelf.list.after place).filterMap pipe.entry
  upTo : ∀ b ∈ page.nextBookmark, page.entries
    = ((shelf.list.after place).filter fun e =>
        shelf.bookmarker.compare e.2 b != .gt).filterMap pipe.entry

/-- A page that follows the course of a list spans the items up to where the next page resumes. -/
theorem Page.Answers.spans {shelf : Shelf α} {pipe : Pipe α β} {place : Option Bookmark}
    {page : Page β} (h : page.Answers (pipe.tree shelf).course place) :
    page.Spans shelf pipe place where
  items_eq := h.items_eq
  advances b hb := by
    have hgains := h.gains b hb
    rw [pipe.left_tree, pipe.left_tree] at hgains
    exact shelf.past_of_length_lt hgains
  last hnext := by
    have hcovers := h.covers
    rw [hnext] at hcovers
    have hreads := hcovers.goes [] rfl
    rwa [List.append_nil, pipe.reads_iff] at hreads
  upTo b hb := by
    have hgains := h.gains b hb
    rw [pipe.left_tree, pipe.left_tree] at hgains
    have hcovers := h.covers
    rw [hb] at hcovers
    -- What the page holds, and what is read after it, is what is read from its start.
    have hreads := hcovers.goes _ ((pipe.reads_iff shelf (some b)).mpr rfl)
    rw [pipe.reads_iff, shelf.after_split (shelf.past_of_length_lt hgains),
      List.filterMap_append] at hreads
    exact List.append_cancel_right hreads

namespace Page.Spans

variable {shelf : Shelf α} {pipe : Pipe α β} {place : Option Bookmark} {page : Page β}

/-- Every entry of a page is the image of an item after its start, and no further on than where the
next page resumes. -/
theorem exists_entry (h : page.Spans shelf pipe place) {f : β × Bookmark} (hf : f ∈ page.entries) :
    ∃ e ∈ shelf.list.after place, pipe.entry e = some f ∧
      ∀ b ∈ page.nextBookmark, shelf.bookmarker.compare f.2 b ≠ .gt := by
  cases hnext : page.nextBookmark with
  | none =>
    rw [h.last hnext] at hf
    obtain ⟨e, he, hentry⟩ := List.mem_filterMap.mp hf
    exact ⟨e, he, hentry, by simp⟩
  | some b =>
    rw [h.upTo b hnext] at hf
    obtain ⟨e, he, hentry⟩ := List.mem_filterMap.mp hf
    obtain ⟨he, hupTo⟩ := List.mem_filter.mp he
    refine ⟨e, he, hentry, ?_⟩
    rintro _ ⟨⟩
    rw [← (Pipe.entry_eq_some.mp hentry).2]
    simpa using hupTo

/-- Every item between the start of a page and the place where the next one resumes is on the page,
if it passes. -/
theorem mem_entries (h : page.Spans shelf pipe place) {e : α × Bookmark} {f : β × Bookmark}
    (he : e ∈ shelf.list.after place) (hentry : pipe.entry e = some f)
    (hupTo : ∀ b ∈ page.nextBookmark, shelf.bookmarker.compare e.2 b ≠ .gt) :
    f ∈ page.entries := by
  cases hnext : page.nextBookmark with
  | none =>
    rw [h.last hnext]
    exact List.mem_filterMap.mpr ⟨e, he, hentry⟩
  | some b =>
    rw [h.upTo b hnext]
    refine List.mem_filterMap.mpr ⟨e, List.mem_filter.mpr ⟨he, ?_⟩, hentry⟩
    simpa using hupTo b hnext

/-- The bookmarks on a page are strictly in order. -/
theorem pairwise (h : page.Spans shelf pipe place) :
    page.entries.Pairwise fun e f => shelf.bookmarker.compare e.2 f.2 = .lt := by
  have hafter := shelf.after_pairwise place
  have hmap : ∀ {l : List (α × Bookmark)},
      (l.Pairwise fun e f => shelf.bookmarker.compare e.2 f.2 = .lt) →
        (l.filterMap pipe.entry).Pairwise fun e f => shelf.bookmarker.compare e.2 f.2 = .lt := by
    intro l hl
    refine List.Pairwise.filterMap _ ?_ hl
    intro e e' hlt f hf g hg
    rw [← (Pipe.entry_eq_some.mp hf).2, ← (Pipe.entry_eq_some.mp hg).2]
    exact hlt
  cases hnext : page.nextBookmark with
  | none =>
    rw [h.last hnext]
    exact hmap hafter
  | some b =>
    rw [h.upTo b hnext]
    exact hmap (hafter.filter _)

end Page.Spans

/-! ## Walks -/

/-- Walks through at most `most` pages from a token on. Each page is asked of the next of the given
collections, and has the next of the given sizes. -/
def Collection.walkAcross : (cs : Nat → Collection σ α) → (sizes : Nat → Nat) → (most : Nat) →
    (token : Option String) → Run σ (Walk α)
  | _, _, 0, _ => return {}
  | cs, sizes, most + 1, token => do
      match ← (cs 0).paginate { page := token, perPage := some (sizes 0) } with
      | .error e => return { failure := some e }
      | .ok page =>
          match page.nextToken with
          | none => return { pages := [page], finished := true }
          | some next =>
              let walk ← walkAcross (fun n => cs (n + 1)) (fun n => sizes (n + 1)) most (some next)
              return { walk with pages := page :: walk.pages }

/-- The items of a walk with their bookmarks, page after page. -/
def Walk.entries (walk : Walk α) : List (α × Bookmark) :=
  walk.pages.flatMap Page.entries

/-- What a walk through changing lists has read from a place on. -/
structure Walk.Stable (bookmarker : Bookmarker α) (lists : Nat → Shelf α) (pipe : Pipe α β)
    (place : Option Bookmark) (walk : Walk β) : Prop where
  unfailing : walk.failure = none
  sorted : walk.entries.Pairwise fun e f => bookmarker.compare e.2 f.2 = .lt
  past : ∀ f ∈ walk.entries, bookmarker.Past place f.2
  found : ∀ n page, walk.pages[n]? = some page → page.items = page.entries.map (·.1) ∧
    ∀ f ∈ page.entries, ∃ e ∈ (lists n).list.entries, pipe.entry e = some f
  asked : walk.finished → 0 < walk.pages.length
  complete : walk.finished → ∀ e f, (∀ n < walk.pages.length, e ∈ (lists n).list.entries) →
    bookmarker.Past place e.2 → pipe.entry e = some f → f ∈ walk.entries

namespace Walk.Stable

variable {bookmarker : Bookmarker α} {lists : Nat → Shelf α} {pipe : Pipe α β}
  {place : Option Bookmark} {page : Page β}

/-- A walk that ends at its first page. -/
theorem last (hsame : (lists 0).bookmarker = bookmarker) (h : page.Spans (lists 0) pipe place)
    (hnext : page.nextBookmark = none) :
    Walk.Stable bookmarker lists pipe place { pages := [page], finished := true } := by
  subst hsame
  have hentries : Walk.entries { pages := [page], finished := true } = page.entries := by
    simp [Walk.entries]
  refine ⟨rfl, ?_, ?_, ?_, fun _ => Nat.one_pos, ?_⟩
  · rw [hentries]
    exact h.pairwise
  · rw [hentries]
    intro f hf
    obtain ⟨e, he, hentry, -⟩ := h.exists_entry hf
    rw [← (Pipe.entry_eq_some.mp hentry).2]
    exact ((lists 0).mem_after.mp he).2
  · intro n other hother
    obtain ⟨rfl, rfl⟩ : n = 0 ∧ page = other := by
      cases n with
      | zero => exact ⟨rfl, Option.some.inj hother⟩
      | succ n => cases hother
    refine ⟨h.items_eq, fun f hf => ?_⟩
    obtain ⟨e, he, hentry, -⟩ := h.exists_entry hf
    exact ⟨e, ((lists 0).mem_after.mp he).1, hentry⟩
  · intro _ e f hstays hpast hentry
    rw [hentries]
    refine h.mem_entries ((lists 0).mem_after.mpr ⟨hstays 0 Nat.one_pos, hpast⟩) hentry ?_
    simp [hnext]

/-- A page in front of a walk from the place where it resumes. -/
theorem cons {b : Bookmark} {walk : Walk β} (hsame : (lists 0).bookmarker = bookmarker)
    (h : page.Spans (lists 0) pipe place) (hnext : page.nextBookmark = some b)
    (hwalk : walk.Stable bookmarker (fun n => lists (n + 1)) pipe (some b)) :
    Walk.Stable bookmarker lists pipe place { walk with pages := page :: walk.pages } := by
  subst hsame
  have := (lists 0).standard.transCmp
  have hentries : Walk.entries { walk with pages := page :: walk.pages }
      = page.entries ++ walk.entries := by
    simp [Walk.entries]
  have hadvances := h.advances b hnext
  refine ⟨hwalk.unfailing, ?_, ?_, ?_, fun _ => by simp, ?_⟩
  · rw [hentries, List.pairwise_append]
    refine ⟨h.pairwise, hwalk.sorted, fun f hf g hg => ?_⟩
    -- The page reads up to the place from which the rest of the walk reads.
    obtain ⟨-, -, -, hupTo⟩ := h.exists_entry hf
    have hg := hwalk.past g hg b rfl
    exact TransCmp.lt_of_isLE_of_lt (Ordering.isLE_iff_ne_gt.mpr (hupTo b hnext))
      (OrientedCmp.lt_of_gt hg)
  · rw [hentries]
    intro f hf
    rcases List.mem_append.mp hf with hf | hf
    · obtain ⟨e, he, hentry, -⟩ := h.exists_entry hf
      rw [← (Pipe.entry_eq_some.mp hentry).2]
      exact ((lists 0).mem_after.mp he).2
    · exact fun c hc => TransCmp.gt_trans (hwalk.past f hf b rfl) (hadvances c hc)
  · intro n other hother
    cases n with
    | zero =>
      obtain rfl := Option.some.inj hother
      refine ⟨h.items_eq, fun f hf => ?_⟩
      obtain ⟨e, he, hentry, -⟩ := h.exists_entry hf
      exact ⟨e, ((lists 0).mem_after.mp he).1, hentry⟩
    | succ n => exact hwalk.found n other hother
  · intro hfinished e f hstays hpast hentry
    rw [hentries, List.mem_append]
    by_cases hlater : (lists 0).bookmarker.compare e.2 b = .gt
    · refine Or.inr (hwalk.complete hfinished e f (fun n hn => hstays (n + 1) ?_) ?_ hentry)
      · simpa using hn
      · rintro _ ⟨⟩
        exact hlater
    · refine Or.inl (h.mem_entries ((lists 0).mem_after.mpr ⟨hstays 0 ?_, hpast⟩) hentry ?_)
      · simp
      · rw [hnext]
        rintro _ ⟨⟩
        exact hlater

end Walk.Stable

/-- **A walk through changing lists reads from any place on what stays.** -/
theorem Pipe.walkAcross_ensures (pipe : Pipe α β) {bookmarker : Bookmarker α} (most : Nat)
    {lists : Nat → Shelf α} {sizes : Nat → Nat} {token : Option String} {place : Option Bookmark}
    (hsame : ∀ n, (lists n).bookmarker = bookmarker) (hlevels : ∀ n, (lists n).levels ≤ 127)
    (hsizes : ∀ n, 0 < sizes n)
    (hstart : (((pipe.tree (lists 0)).collection σ).startOf token) = place) :
    Run.Ensures
      (Collection.walkAcross (fun n => (pipe.tree (lists n)).collection σ) sizes most token)
      (Walk.Stable bookmarker lists pipe place) := by
  induction most generalizing lists sizes token place with
  | zero =>
    refine .pure ⟨rfl, ?_, ?_, ?_, ?_, ?_⟩ <;> simp [Walk.entries]
  | succ most ih =>
    subst hstart
    have htree : (pipe.tree (lists 0)).levels ≤ 127 := by
      rw [pipe.levels_tree]
      exact hlevels 0
    have hanswer := ((pipe.tree (lists 0)).follows σ (sizes 0)
      (((pipe.tree (lists 0)).collection σ).startOf token) (hsizes 0)).and
        ((pipe.tree (lists 0)).keeps σ htree (sizes 0) _ Collection.accepts_startOf)
    rw [Collection.walkAcross]
    refine (Collection.paginate_ensures { page := token, perPage := some (sizes 0) } rfl
      (hsizes 0) hanswer).bind ?_
    rintro _ ⟨⟨page, rfl, hpage⟩, hwithin⟩
    obtain ⟨hwithin, -⟩ := hwithin page rfl
    have hspans := hpage.spans
    cases hnext : page.nextBookmark with
    | none =>
      simp only [Page.nextToken, hnext, Option.map_none]
      exact .pure (.last (hsame 0) hspans hnext)
    | some b =>
      obtain ⟨haccepts, hlevels'⟩ := hwithin.next b hnext
      simp only [Page.nextToken, hnext, Option.map_some]
      -- The next list has the same bookmarker, so it accepts the place too.
      have htoken : (((pipe.tree (lists 1)).collection σ).startOf (some b.token)) = some b := by
        refine Collection.startOf_token ?_ hlevels'
        rw [pipe.accepts_tree, hsame] at haccepts ⊢
        exact haccepts
      have hrest := ih (fun n => hsame (n + 1)) (fun n => hlevels (n + 1))
        (fun n => hsizes (n + 1)) htoken
      exact hrest.bind fun walk hwalk => .pure (.cons (hsame 0) hspans hnext hwalk)

/-- An item of a list stands in it with its bookmark. -/
theorem Shelf.mem_entries_iff (shelf : Shelf α) {item : α} {b : Bookmark}
    (hb : shelf.bookmarker.bookmarkFor item = .ok b) :
    (item, b) ∈ shelf.list.entries ↔ item ∈ shelf.items := by
  rw [shelf.entries_perm.mem_iff, ← shelf.items_marked, List.mem_map]
  refine ⟨fun h => ⟨_, h, rfl⟩, ?_⟩
  rintro ⟨e, he, rfl⟩
  have hmark := ItemList.bookmarkFor_of_mark shelf.mark_eq e he
  obtain rfl := Except.ok.inj (hb.symm.trans hmark)
  exact he

/-- **A walk is stable under changes of its list.** Page after page is asked of filters and
transformations on top of a list of items, and the list may be another one for every page, as long
as its bookmarker stays. Then the bookmarks of all items that are read are strictly in the order of
the bookmarker, so nothing is read twice. What is read on a page is the image of an item that the
list has for that page. When the walk comes to its end, every item that all lists have, and that
passes the filters, has been read just once. -/
theorem Pipe.walk_stable (pipe : Pipe α β) {bookmarker : Bookmarker α} {lists : Nat → Shelf α}
    (hsame : ∀ n, (lists n).bookmarker = bookmarker) (hlevels : ∀ n, (lists n).levels ≤ 127)
    {sizes : Nat → Nat} (hsizes : ∀ n, 0 < sizes n) (most : Nat) :
    Run.Ensures
      (Collection.walkAcross (fun n => (pipe.tree (lists n)).collection σ) sizes most none)
      fun walk => walk.failure = none ∧
        (walk.entries.map (·.2)).Pairwise (fun b c => bookmarker.compare b c = .lt) ∧
          (∀ n page, walk.pages[n]? = some page → page.items = page.entries.map (·.1) ∧
            ∀ f ∈ page.entries, ∃ item ∈ (lists n).items,
              bookmarker.bookmarkFor item = .ok f.2 ∧ pipe.image item = some f.1) ∧
            (walk.finished → ∀ item image, (∀ n < walk.pages.length, item ∈ (lists n).items) →
              pipe.image item = some image → ∃ b before after,
                bookmarker.bookmarkFor item = .ok b ∧
                  walk.entries = before ++ (image, b) :: after ∧
                    ∀ f ∈ before ++ after, f.2 ≠ b) := by
  have hstart : ((pipe.tree (lists 0)).collection σ).startOf none = none := rfl
  refine (pipe.walkAcross_ensures most hsame hlevels hsizes hstart).mono ?_
  intro walk hwalk
  have := (lists 0).standard.transCmp
  rw [hsame] at this
  have hsorted : (walk.entries.map (·.2)).Pairwise fun b c => bookmarker.compare b c = .lt :=
    List.pairwise_map.mpr hwalk.sorted
  refine ⟨hwalk.unfailing, hsorted, fun n page hpage => ?_,
    fun hfinished item image hstays himage => ?_⟩
  · obtain ⟨hitems, hfound⟩ := hwalk.found n page hpage
    refine ⟨hitems, fun f hf => ?_⟩
    obtain ⟨e, he, hentry⟩ := hfound f hf
    obtain ⟨himage, hmark⟩ := Pipe.entry_eq_some.mp hentry
    have hb := (lists n).bookmarkFor_eq he
    refine ⟨e.1, ((lists n).mem_entries_iff hb).mp he, ?_, himage⟩
    rw [← hmark, ← hsame n]
    exact hb
  · -- The item has a bookmark, since the first list has it.
    obtain ⟨e, he, rfl⟩ : ∃ e ∈ (lists 0).list.entries, e.1 = item := by
      have hmem := hstays 0 (hwalk.asked hfinished)
      rw [← (lists 0).items_marked, List.mem_map] at hmem
      obtain ⟨e, he, hitem⟩ := hmem
      exact ⟨e, (lists 0).entries_perm.mem_iff.mpr he, hitem⟩
    have hb : bookmarker.bookmarkFor e.1 = .ok e.2 := by
      rw [← hsame 0]
      exact (lists 0).bookmarkFor_eq he
    have hread : (image, e.2) ∈ walk.entries := by
      refine hwalk.complete hfinished e _ (fun n hn => ?_) (by simp [Bookmarker.Past])
        (Pipe.entry_eq_some.mpr ⟨himage, rfl⟩)
      have hb' : (lists n).bookmarker.bookmarkFor e.1 = .ok e.2 := by
        rw [hsame n]
        exact hb
      exact ((lists n).mem_entries_iff hb').mpr (hstays n hn)
    obtain ⟨before, after, hsplit⟩ := List.append_of_mem hread
    refine ⟨e.2, before, after, hb, hsplit, fun f hf heq => ?_⟩
    have hself : bookmarker.compare e.2 e.2 = .eq := ReflCmp.compare_self
    have hpairs := hwalk.sorted
    rw [hsplit, List.pairwise_append, List.pairwise_cons] at hpairs
    obtain ⟨-, ⟨hafter, -⟩, hbefore⟩ := hpairs
    -- A second item with the bookmark would come strictly before or after it.
    rcases List.mem_append.mp hf with hf | hf
    · have hlt := hbefore f hf _ List.mem_cons_self
      rw [heq, hself] at hlt
      cases hlt
    · have hlt := hafter f hf
      rw [heq, hself] at hlt
      cases hlt

/-- A list of two letters of which one is gone after the first page, and another has come. -/
def Shelf.changing : Nat → Shelf String
  | 0 => .letters "a" "c" (by decide)
  | _ + 1 => .letters "b" "c" (by decide)

/-- The letter that stays is read once, doubled, by a walk that lets through what is not "b". -/
theorem Pipe.changing_walk_stable :
    Run.Ensures (Collection.walkAcross (fun n => ((Pipe.transform (.filter .source (· != "b")
        { mode := .sifting, maxRounds := 1 } (by decide)) fun s => s ++ s).tree
          (Shelf.changing n)).collection Unit) (fun _ => 1) 9 none) fun walk =>
      walk.failure = none ∧ (walk.finished → ∃ before after,
        walk.entries = before ++ ("cc", .text "c") :: after ∧
          ∀ f ∈ before ++ after, f.2 ≠ .text "c") := by
  have hsame : ∀ n, (Shelf.changing n).bookmarker
      = .key .text Bookmarker.acceptsKey .ascending := by
    rintro (_ | n) <;> rfl
  have hlevels : ∀ n, (Shelf.changing n).levels ≤ 127 := by
    rintro (_ | n)
    · show (Shelf.letters "a" "c" (by decide)).levels ≤ 127
      decide
    · show (Shelf.letters "b" "c" (by decide)).levels ≤ 127
      decide
  refine (Pipe.walk_stable _ hsame hlevels (fun _ => Nat.one_pos) 9).mono ?_
  rintro walk ⟨hunfailing, -, -, hcomplete⟩
  refine ⟨hunfailing, fun hfinished => ?_⟩
  have hstays : ∀ n < walk.pages.length, "c" ∈ (Shelf.changing n).items := by
    rintro (_ | n) - <;> simp [Shelf.changing, Shelf.letters]
  obtain ⟨b, before, after, hb, hsplit, honce⟩ := hcomplete hfinished "c" "cc" hstays rfl
  obtain rfl := Except.ok.inj hb
  exact ⟨before, after, hsplit, honce⟩

end KeysetPaging
