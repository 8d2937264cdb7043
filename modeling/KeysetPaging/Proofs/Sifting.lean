import KeysetPaging.Proofs.Growth
import KeysetPaging.Proofs.Steady
import KeysetPaging.Proofs.Walk

/-! # Sifting page by page

A filter in the sifting mode passes on what is left of one page of the inner collection, and skips
pages of which nothing is left without handing out their tokens. A walk through the inner collection
follows these tokens one by one. Since the inner collection always answers alike, its pages from a
place on are one trail. Every page of the filter uses up the next pages of the trail, and keeps
what is left of the last of them.
-/

namespace KeysetPaging

variable {σ α : Type} {P : Bookmark → Prop}

/-! ## Trails -/

/-- The supply always answers with the page. Each item has a bookmark, and a page that goes on says
where. -/
structure Supply.AlwaysAnswers (supply : Supply σ α) (size : Nat) (place : Option Bookmark)
    (page : Page α) : Prop where
  always : Run.Ensures (supply size place) fun answer => answer = .ok page
  paired : page.items.length = page.bookmarks.length
  goesOn : page.hasMore = page.nextBookmark.isSome

/-- From the place on, these are the pages of one size to the end. Each starts where the one before
it goes on, which is at a place with the property `P`. -/
inductive Supply.Trail (P : Bookmark → Prop) (supply : Supply σ α) (size : Nat) :
    Option Bookmark → List (Page α) → Prop where
  | last {place : Option Bookmark} {page : Page α} (answers : supply.AlwaysAnswers size place page)
      (ends : page.nextBookmark = none) : Trail P supply size place [page]
  | next {place : Option Bookmark} {page : Page α} {b : Bookmark} {pages : List (Page α)}
      (answers : supply.AlwaysAnswers size place page) (goes : page.nextBookmark = some b)
      (kept : P b) (rest : Trail P supply size (some b) pages) :
      Trail P supply size place (page :: pages)

/-- The pages that are still to come after a page: none when the page is the last, and otherwise
those from where it goes on. -/
def Supply.Ahead (P : Bookmark → Prop) (supply : Supply σ α) (size : Nat) :
    Option Bookmark → List (Page α) → Prop
  | none, pages => pages = []
  | some b, pages => P b ∧ supply.Trail P size (some b) pages

/-- A supply that follows a course, keeps its places and always answers alike has a trail from every
place on, with at most one page more than there are items of leaves left. -/
theorem Supply.exists_trail [Nonempty (Journal σ)] {supply : Supply σ α} {course : Course α}
    (hgives : supply.Gives P fun place page => page.Answers course place)
    (hsteady : supply.Steady) {size : Nat} (hsize : 0 < size) (place : Option Bookmark)
    (hplace : ∀ b ∈ place, P b) :
    ∃ pages, supply.Trail P size place pages ∧ pages.length ≤ (course place).left + 1 := by
  -- Every page leaves less to read than there was at its start.
  induction hleft : (course place).left using Nat.strongRecOn generalizing place with
  | ind left ih =>
    obtain ⟨_, ⟨page, rfl, hwithin, -, hanswers⟩, halways⟩ :=
      (hsteady size place).exists_answer (hgives size place hsize hplace)
    have hpage : supply.AlwaysAnswers size place page :=
      ⟨halways, hanswers.paired, hanswers.goesOn⟩
    cases hnext : page.nextBookmark with
    | none => exact ⟨[page], .last hpage hnext, by simp⟩
    | some b =>
      have hkept : P b := hwithin.next b hnext
      have hgains := hanswers.gains b hnext
      obtain ⟨pages, htrail, hlength⟩ :=
        ih _ (hleft ▸ hgains) (some b) (by rintro _ ⟨⟩; exact hkept) rfl
      refine ⟨page :: pages, .next hpage hnext hkept htrail, ?_⟩
      simp only [List.length_cons]
      omega

/-- A walk goes along the trail from its start. -/
theorem Collection.walk_trail {c : Collection σ α}
    (hP : ∀ b, P b → c.accepts b ∧ b.levels ≤ Document.maxLevels) {size : Nat} (hsize : 0 < size)
    {place : Option Bookmark} {pages : List (Page α)} (htrail : c.supply.Trail P size place pages)
    {token : Option String} (hstart : c.startOf token = place) {most : Nat}
    (hmost : pages.length ≤ most) :
    Run.Ensures (c.walk size most token) fun walk => walk = { pages, finished := true } := by
  induction htrail generalizing token most with
  | @last place page hpage hends =>
    obtain ⟨most, rfl⟩ : ∃ m, most = m + 1 := ⟨most - 1, by simp at hmost; omega⟩
    rw [walk]
    refine (paginate_ensures { page := token, perPage := some size } rfl hsize
      (hstart ▸ hpage.always)).bind ?_
    rintro _ rfl
    simp only [Page.nextToken, hends, Option.map_none]
    exact .pure rfl
  | @next place page b pages hpage hgoes hkept htrail ih =>
    simp only [List.length_cons] at hmost
    obtain ⟨most, rfl⟩ : ∃ m, most = m + 1 := ⟨most - 1, by omega⟩
    obtain ⟨haccepts, hlevels⟩ := hP b hkept
    rw [walk]
    refine (paginate_ensures { page := token, perPage := some size } rfl hsize
      (hstart ▸ hpage.always)).bind ?_
    rintro _ rfl
    simp only [Page.nextToken, hgoes, Option.map_some]
    refine (ih (startOf_token haccepts hlevels) (by omega)).bind ?_
    rintro _ rfl
    exact .pure rfl

/-! ## What a page holds and where it goes on -/

/-- The items of a page, and where it goes on. -/
def Page.leg (page : Page α) : List α × Option Bookmark :=
  (page.items, page.nextBookmark)

/-- The items of a page that pass a test, and where it goes on. -/
def Page.sifted (keep : α → Bool) (page : Page α) : List α × Option Bookmark :=
  (page.items.filter keep, page.nextBookmark)

/-- Those legs that hold an item. -/
def held (legs : List (List α × Option Bookmark)) : List (List α × Option Bookmark) :=
  legs.filter fun leg => !leg.1.isEmpty

theorem held_append (legs more : List (List α × Option Bookmark)) :
    held (legs ++ more) = held legs ++ held more :=
  List.filter_append legs more

/-! ## Pages of the filter -/

/-- Of a trail, a page has used up the first pages: it holds what is left of the last one of them,
goes on where that one does, and nothing is left of those before. What is still to come follows. -/
structure Page.UsesUp (P : Bookmark → Prop) (keep : α → Bool) (supply : Supply σ α) (size : Nat)
    (pages used rest : List (Page α)) (page : Page α) : Prop where
  pages_eq : pages = used ++ rest
  held_eq : held [page.leg] = held (used.map (Page.sifted keep))
  ahead : supply.Ahead P size page.nextBookmark rest

namespace Page.UsesUp

variable {keep : α → Bool} {supply : Supply σ α} {size : Nat} {sub page : Page α}
  {pages used rest : List (Page α)}

/-- A page with what is left of the next page of a trail has used it up. -/
theorem one (hitems : page.items = sub.items.filter keep)
    (hnext : page.nextBookmark = sub.nextBookmark)
    (hahead : supply.Ahead P size sub.nextBookmark rest) :
    page.UsesUp P keep supply size (sub :: rest) [sub] rest :=
  ⟨rfl, by simp [leg, sifted, hitems, hnext], hnext ▸ hahead⟩

/-- Pages of which nothing is left are used up in passing. -/
theorem skip (hsub : sub.items.filter keep = [])
    (h : page.UsesUp P keep supply size pages used rest) :
    page.UsesUp P keep supply size (sub :: pages) (sub :: used) rest := by
  refine ⟨by simp [h.pages_eq], ?_, h.ahead⟩
  rw [h.held_eq]
  simp [held, sifted, hsub]

end Page.UsesUp

namespace Filter

variable {options : FilterOptions} {keep : α → Bool} {supply : Supply σ α}

/-- What passes of a page, added to a page without items. -/
theorem items_append_kept (keep : α → Bool) {sub page : Page α}
    (hsub : sub.items.length = sub.bookmarks.length) (hpage : page.items = []) :
    (page.append (sub.entries.filter fun e => keep e.1)).items = sub.items.filter keep := by
  rw [← (Page.map_entries hsub).1, List.filter_map]
  simp [Page.append, hpage, Function.comp_def]

/-- While nothing is left of the pages of a trail, one after another is used up. A page that may
still ask has used up at least one of them in the end. -/
theorem siftRounds_usesUp (left round : Nat) {place : Option Bookmark} {pages : List (Page α)}
    {page : Page α} (htrail : supply.Trail P page.perPage place pages)
    (hplace : left = 0 → ∃ b, place = some b ∧ P b) (hitems : page.items = [])
    (hmore : page.hasMore = false) :
    Run.Ensures (siftRounds options keep supply left round place page) fun filled =>
      filled.failure = none ∧ ∃ used rest, (0 < left → used ≠ []) ∧
        filled.page.UsesUp P keep supply page.perPage pages used rest := by
  induction left generalizing round place pages page with
  | zero =>
    -- The rounds are used up as well, and the page goes on where the trail does.
    obtain ⟨b, rfl, hkept⟩ := hplace rfl
    refine .note (.pure ⟨rfl, [], pages, by simp, rfl, ?_, hkept, htrail⟩)
    simp [held, Page.leg, Page.markMore, Page.resume, hitems]
  | succ left ih =>
    rw [siftRounds]
    cases htrail with
    | @last _ sub hpage hends =>
      have hsub : sub.hasMore = false := by simp [hpage.goesOn, hends]
      refine hpage.always.bind ?_
      rintro _ rfl
      refine .note ?_
      simp only [hsub, Bool.not_false, if_true]
      have hleft := items_append_kept keep hpage.paired hitems
      refine .pure ⟨rfl, [sub], [], by simp, .one hleft ?_ ?_⟩
      · simp [Page.nextBookmark, Page.append, hmore, hsub]
      · rw [hends]
        rfl
    | @next _ sub b pages hpage hgoes hkept htrail =>
      have hsub : sub.hasMore = true := by simp [hpage.goesOn, hgoes]
      have hleft := items_append_kept keep hpage.paired hitems
      have hahead : supply.Ahead P page.perPage sub.nextBookmark pages := by
        rw [hgoes]
        exact ⟨hkept, htrail⟩
      refine hpage.always.bind ?_
      rintro _ rfl
      refine .note ?_
      simp only [hsub, Bool.not_true, Bool.false_eq_true, if_false, hleft]
      split
      next hsome =>
        refine .pure ⟨rfl, [sub], pages, by simp, .one hleft ?_ hahead⟩
        rw [hgoes]
        simp [Page.nextBookmark, Page.markMore, Page.resume]
      next hnone =>
        have hempty : sub.items.filter keep = [] := by simpa using hnone
        rw [hgoes]
        refine (@ih _ _ _ (page.append _) htrail (fun _ => ⟨b, rfl, hkept⟩)
          (hleft.trans hempty) hmore).mono ?_
        rintro filled ⟨hfailure, used, rest, -, hused⟩
        exact ⟨hfailure, sub :: used, rest, by simp, hused.skip hempty⟩

/-- A page of a sifting filter uses up at least one page of a trail of the inner collection. -/
theorem fill_usesUp (keep : α → Bool) (hmode : options.mode = .sifting)
    (hrounds : 0 < options.maxRounds) {size : Nat} (hsize : 0 < size) {place : Option Bookmark}
    {pages : List (Page α)}
    (htrail : supply.Trail P size place pages) :
    Run.Ensures (Supply.ofFill (fill options keep supply) size place) fun answer =>
      ∃ page, answer = .ok page ∧ ∃ used rest, used ≠ [] ∧
        page.UsesUp P keep supply size pages used rest := by
  rw [Supply.ofFill, Page.start?, dif_pos hsize]
  simp only [fill, hmode]
  refine (siftRounds_usesUp options.maxRounds 0 htrail (by omega) rfl rfl).bind ?_
  rintro filled ⟨hfailure, used, rest, hne, hused⟩
  rw [hfailure]
  exact .pure ⟨filled.page, rfl, used, rest, hne hrounds, hused⟩

end Filter

/-! ## Walks through the filter -/

/-- A token names the same place in a filter as in the inner collection. -/
theorem Collection.startOf_filter (c : Collection σ α) (keep : α → Bool)
    (options : FilterOptions) (token : Option String) :
    (c.filter keep options).startOf token = c.startOf token := by
  have haccepts : (c.filter keep options).accepts = c.accepts := funext fun b => by rw [accepts]
  rw [startOf, startOf, haccepts]

/-- A walk through a sifting filter holds what is left of the pages of a trail. -/
theorem Collection.walk_filter_trail {c : Collection σ α} {keep : α → Bool}
    {options : FilterOptions} (hmode : options.mode = .sifting) (hrounds : 0 < options.maxRounds)
    (hP : ∀ b, P b → c.accepts b ∧ b.levels ≤ Document.maxLevels) {size : Nat} (hsize : 0 < size)
    {pages : List (Page α)} {place : Option Bookmark} (htrail : c.supply.Trail P size place pages)
    {token : Option String} (hstart : c.startOf token = place) {most : Nat}
    (hmost : pages.length ≤ most) :
    Run.Ensures ((c.filter keep options).walk size most token) fun walk =>
      walk.failure = none ∧ walk.finished = true ∧
        held (walk.pages.map Page.leg) = held (pages.map (Page.sifted keep)) := by
  induction most generalizing pages place token with
  | zero => cases htrail <;> simp at hmost
  | succ most ih =>
    have hanswer := Filter.fill_usesUp keep hmode hrounds hsize htrail
    rw [← supply_filter, ← hstart, ← c.startOf_filter keep options] at hanswer
    rw [walk]
    refine (paginate_ensures { page := token, perPage := some size } rfl hsize hanswer).bind ?_
    rintro _ ⟨page, rfl, used, rest, hne, rfl, hheld, hahead⟩
    rw [List.length_append] at hmost
    have hused := List.length_pos_iff.mpr hne
    cases hnext : page.nextBookmark with
    | none =>
      rw [hnext] at hahead
      obtain rfl : rest = [] := hahead
      simp only [Page.nextToken, hnext, Option.map_none]
      exact .pure ⟨rfl, rfl, by simpa using hheld⟩
    | some b =>
      rw [hnext] at hahead
      obtain ⟨hkept, htrail⟩ := hahead
      obtain ⟨haccepts, hlevels⟩ := hP b hkept
      simp only [Page.nextToken, hnext, Option.map_some]
      refine (ih htrail (startOf_token haccepts hlevels) (by omega)).bind ?_
      rintro walk ⟨hunfailing, hfinished, hrest⟩
      refine .pure ⟨hunfailing, hfinished, ?_⟩
      rw [List.map_append, held_append, ← hheld, ← hrest, ← held_append]
      rfl

/-- The walk through the filter and the walk through the inner collection both come to the end. The
pages of the first that hold an item are those of the second with the items that pass, without those
of which nothing is left, and each goes on where the inner page does. -/
structure Walk.Sifts (keep : α → Bool) (sifted inner : Walk α) : Prop where
  unfailing : sifted.failure = none
  finished : sifted.finished = true
  inner_unfailing : inner.failure = none
  inner_finished : inner.finished = true
  legs : held (sifted.pages.map Page.leg) = held (inner.pages.map (Page.sifted keep))

/-- **A sifting filter hands out the pages of the inner collection**, each with the items that pass.
For every tree, test, limit of rounds and size of pages, the pages with items of a walk through the
filter are in order just the pages of the walk through the tree itself, each with the items that
pass, without those of which nothing is left. Both walks may start from any token, and may take any
number of pages that allows for what is left. -/
theorem Tree.walk_sifts (t : Tree α) (hlevels : t.levels ≤ 127) (keep : α → Bool)
    {options : FilterOptions} (hmode : options.mode = .sifting) (hrounds : 0 < options.maxRounds)
    {size : Nat} (hsize : 0 < size) (token : Option String) {most innerMost : Nat}
    (hmost : (t.course ((t.collection σ).startOf token)).left < most)
    (hinnerMost : (t.course ((t.collection σ).startOf token)).left < innerMost) :
    Run.Agree (Walk.Sifts keep)
      (((t.filter keep options hrounds).collection σ).walk size most token)
      ((t.collection σ).walk size innerMost token) := by
  intro j k
  have : Nonempty (Journal σ) := ⟨j⟩
  have hP : ∀ b, (t.collection σ).accepts b ∧ b.levels ≤ 127 →
      (t.collection σ).accepts b ∧ b.levels ≤ Document.maxLevels := fun _ hb => hb
  obtain ⟨pages, htrail, hlength⟩ := Supply.exists_trail ((t.follows σ).gives (t.keeps σ hlevels))
    (t.steady σ) hsize ((t.collection σ).startOf token) fun b hb => Collection.accepts_startOf b hb
  obtain ⟨hunfailing, hfinished, hlegs⟩ := Collection.walk_filter_trail hmode hrounds hP hsize
    htrail rfl (Nat.le_trans hlength hmost) j
  have hinner := Collection.walk_trail hP hsize htrail rfl (Nat.le_trans hlength hinnerMost) k
  rw [Tree.collection, hinner]
  exact ⟨hunfailing, hfinished, rfl, rfl, hlegs⟩

/-- One letter that passes, sifted out of all the letters with pages of one item. A page of the
filter asks for no more than two of these, so it may be empty and go on. -/
theorem Tree.letters_sift :
    Run.Agree (Walk.Sifts (· == "d"))
      (((letters.filter (· == "d") { mode := .sifting, maxRounds := 2 } Nat.two_pos).collection
        Unit).walk 1 ((letters.course none).left + 1) none)
      ((letters.collection Unit).walk 1 ((letters.course none).left + 1) none) :=
  letters.walk_sifts (by decide) (· == "d") rfl Nat.two_pos Nat.one_pos none (Nat.lt_succ_self _)
    (Nat.lt_succ_self _)

end KeysetPaging
