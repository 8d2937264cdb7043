import KeysetPaging.Collection.Paginate
import KeysetPaging.Proofs.Joints
import KeysetPaging.Proofs.Token

/-! # The page that a token asks for

A token asks for the page after the place that it names, and a token that names no place of the
collection asks for the first page. The token of the next page names the place where that page
resumes. This place is one that the collection accepts, so no walk falls back to its beginning.
-/

namespace KeysetPaging

variable {σ α : Type}

namespace Collection

/-- The place in a collection at which the page of a token starts. -/
def startOf (c : Collection σ α) (token : Option String) : Option Bookmark :=
  token.bind fun token => (Bookmark.readToken token).toOption.filter c.accepts

/-- A page that is asked for by a token starts where the token says, whatever is noted. -/
theorem placeOf_ensures (c : Collection σ α) (token : Option String) :
    Run.Ensures (c.placeOf token) fun place => place = c.startOf token := by
  cases token with
  | none => exact .pure rfl
  | some token =>
    rw [placeOf]
    refine Run.Ensures.bind (P := fun b => b = (Bookmark.readToken token).toOption) ?_ ?_
    · rw [readToken]
      split
      next b hb => exact .pure (by simp [hb, Except.toOption])
      next fault hfault => exact .note (.pure (by simp [hfault, Except.toOption]))
    · rintro b hb
      cases b with
      | none => exact .pure (by simp [startOf, ← hb])
      | some b =>
        dsimp only
        split_ifs with haccepts
        · exact .pure (by simp [startOf, ← hb, Option.filter, haccepts])
        · exact .note (.pure (by simp [startOf, ← hb, Option.filter, haccepts]))

/-- A collection accepts the place at which the page of a token starts, and the place nests no
deeper than a token can. -/
theorem accepts_startOf {c : Collection σ α} {token : Option String} :
    ∀ b ∈ c.startOf token, c.accepts b ∧ b.levels ≤ Document.maxLevels := by
  intro b hb
  obtain ⟨text, -, hb⟩ := Option.bind_eq_some_iff.mp hb
  obtain ⟨hread, haccepts⟩ := Option.filter_eq_some_iff.mp hb
  have hread : Bookmark.readToken text = .ok b := by
    cases htoken : Bookmark.readToken text with
    | error fault => simp [htoken, Except.toOption] at hread
    | ok c => simpa [htoken, Except.toOption] using hread
  exact ⟨haccepts, Bookmark.levels_le_of_readToken hread⟩

/-- The token of an accepted bookmark asks for the page after it, unless it nests too deep. -/
theorem startOf_token {c : Collection σ α} {b : Bookmark} (haccepts : c.accepts b)
    (hlevels : b.levels ≤ Document.maxLevels) : c.startOf (some b.token) = some b := by
  simp [startOf, Bookmark.readToken_of_levels_le hlevels, haccepts, Except.toOption]

/-- A request for a page of some size is answered as the collection answers at the place that the
token names. -/
theorem paginate_ensures {c : Collection σ α} (request : PageRequest) {perPage : Nat}
    {P : Except Error (Page α) → Prop} (hsize : request.perPage = some perPage)
    (hperPage : 0 < perPage) (h : Run.Ensures (c.supply perPage (c.startOf request.page)) P) :
    Run.Ensures (c.paginate request) P := by
  obtain ⟨size, rfl⟩ := Nat.exists_eq_add_one_of_ne_zero (Nat.ne_of_gt hperPage)
  have hanswer : ∀ {next : Except Error (Page α) → Run σ (Except Error (Page α))},
      (∀ answer, P answer → Run.Ensures (next answer) P) →
        Run.Ensures (c.placeOf request.page >>= fun place => c.supply (size + 1) place >>= next)
          P := by
    intro next hnext
    refine (c.placeOf_ensures request.page).bind ?_
    rintro place rfl
    exact h.bind hnext
  rw [paginate, hsize]
  -- What is noted before and after the collection is asked changes no answer.
  cases request.totalEntries with
  | none =>
    refine hanswer fun answer hpage => ?_
    cases answer with
    | error e => exact .pure hpage
    | ok page => exact .note (.pure hpage)
  | some total =>
    refine .note (hanswer fun answer hpage => ?_)
    cases answer with
    | error e => exact .pure hpage
    | ok page => exact .note (.pure hpage)

/-- A request for a page of some size has an answer of the collection, from some journal. -/
theorem paginate_answer {c : Collection σ α} (request : PageRequest) {perPage : Nat}
    (hsize : request.perPage = some perPage) (hperPage : 0 < perPage) :
    Run.Ensures (c.paginate request) fun answer =>
      ∃ j, answer = (c.supply perPage (c.startOf request.page) j).1 :=
  paginate_ensures request hsize hperPage fun j => ⟨j, rfl⟩

/-- Requests for pages of some size agree when the answers of the collections do. -/
theorem paginate_agree {β : Type} {c : Collection σ α} {d : Collection σ β}
    {request other : PageRequest} {perPage size : Nat}
    {R : Except Error (Page α) → Except Error (Page β) → Prop}
    (hperPage : request.perPage = some perPage) (hsize : other.perPage = some size)
    (hpos : 0 < perPage) (hsizePos : 0 < size)
    (h : Run.Agree R (c.supply perPage (c.startOf request.page))
      (d.supply size (d.startOf other.page))) :
    Run.Agree R (c.paginate request) (d.paginate other) := by
  intro j k
  obtain ⟨j', hj⟩ := paginate_answer request hperPage hpos j
  obtain ⟨k', hk⟩ := paginate_answer other hsize hsizePos k
  rw [hj, hk]
  exact h j' k'

/-- A page that is answered starts where the token says, and holds only places that the collection
keeps. -/
theorem paginate_keeps {c : Collection σ α} {P : Bookmark → Prop} (hc : c.supply.Keeps P)
    (request : PageRequest) (hstart : ∀ b ∈ c.startOf request.page, P b) :
    Run.Ensures (c.paginate request) fun answer =>
      ∀ page, answer = .ok page → page.Within P ∧ page.current = c.startOf request.page := by
  match hsize : request.perPage with
  | none => rw [paginate, hsize]; exact .pure (by simp)
  | some 0 => rw [paginate, hsize]; exact .pure (by simp)
  | some (size + 1) => exact paginate_ensures request hsize (by omega) (hc (size + 1) _ hstart)

end Collection

/-! ## The next page resumes where the last one ended -/

/-- A bookmarker accepts every bookmark that it derives. -/
def Bookmarker.Honest (bookmarker : Bookmarker α) : Prop :=
  ∀ item b, bookmarker.bookmarkFor item = .ok b → bookmarker.accepts b

/-- Every leaf of the collection has a bookmarker that accepts the bookmarks it derives. Nothing is
asked of the source beside it. -/
def Collection.Honest (c : Collection σ α) : Prop :=
  c.EveryLeaf fun bookmarker _ => bookmarker.Honest

mutual

theorem Collection.EveryLeaf.imp {σ : Type} {T U : ∀ {α : Type}, Bookmarker α → Source σ α → Prop}
    (h : ∀ {α : Type} (bookmarker : Bookmarker α) (source : Source σ α),
      T bookmarker source → U bookmarker source) :
    ∀ {α : Type} (c : Collection σ α), c.EveryLeaf T → c.EveryLeaf U
  | _, .leaf bookmarker source => h bookmarker source
  | _, .filter inner _ _ => Collection.EveryLeaf.imp h inner
  | _, .transform inner _ => Collection.EveryLeaf.imp h inner
  | _, .concat sources => Sources.EveryLeaf.imp h sources
  | _, .merge sources _ => Sources.EveryLeaf.imp h sources

theorem Sources.EveryLeaf.imp {σ : Type} {T U : ∀ {α : Type}, Bookmarker α → Source σ α → Prop}
    (h : ∀ {α : Type} (bookmarker : Bookmarker α) (source : Source σ α),
      T bookmarker source → U bookmarker source) :
    ∀ {α : Type} (sources : Sources σ α), sources.EveryLeaf T → sources.EveryLeaf U
  | _, .nil => id
  | _, .cons _ c rest => fun hT =>
    ⟨Collection.EveryLeaf.imp h c hT.1, Sources.EveryLeaf.imp h rest hT.2⟩

end

/-- A collection with honest leaves keeps the places that it accepts, whatever its sources do. -/
theorem Collection.Honest.keeps {c : Collection σ α} (hlabelled : c.Labelled) (hc : c.Honest) :
    c.supply.Keeps fun b => c.accepts b :=
  c.keeps_accepts hlabelled (.imp (fun _ source hbookmarker => source.keeps hbookmarker) c hc)

/-- **Tokens never restart a walk.** When a page of a collection with honest leaves goes on, and its
next place nests no deeper than a token can, the token of the next page names that place, the
collection accepts it, and every page that is asked for with the token starts there. -/
theorem Collection.next_page_resumes {c : Collection σ α} (hlabelled : c.Labelled) (hc : c.Honest)
    (request : PageRequest) (j : Journal σ) {page : Page α}
    (hpage : (c.paginate request j).1 = .ok page) {token : String}
    (htoken : page.nextToken = some token) (hlevels : ∀ b ∈ page.nextBookmark, b.levels ≤ 127) :
    ∃ b, page.nextBookmark = some b ∧ Bookmark.readToken token = .ok b ∧ c.accepts b ∧
      Run.Ensures (c.placeOf (some token)) (fun place => place = some b) ∧
      ∀ next : PageRequest, next.page = some token →
        Run.Ensures (c.paginate next) fun answer =>
          ∀ page, answer = .ok page → page.current = some b := by
  have hkeeps := hc.keeps hlabelled
  -- The request starts at an accepted place, so the page resumes at one.
  obtain ⟨hwithin, -⟩ :=
    paginate_keeps hkeeps request (fun b hb => (accepts_startOf b hb).1) j page hpage
  obtain ⟨b, hb, rfl⟩ := Option.map_eq_some_iff.mp htoken
  have haccepts : c.accepts b := hwithin.next b hb
  have hread : Bookmark.readToken b.token = .ok b := Bookmark.readToken_of_levels_le (hlevels b hb)
  have hstart : c.startOf (some b.token) = some b := startOf_token haccepts (hlevels b hb)
  refine ⟨b, hb, hread, haccepts, ?_, fun next hnext => ?_⟩
  · exact (c.placeOf_ensures _).mono fun place hplace => hplace.trans hstart
  · refine (paginate_keeps hkeeps next fun b hb => (accepts_startOf b hb).1).mono ?_
    intro answer hanswer page hpage
    rw [(hanswer page hpage).2, hnext, hstart]

/-- A source without end: whatever it is asked, it adds three numbers and says that more follow. -/
def Source.endless : Source Unit Nat where
  fetch _ := pure { edits := [.push 1, .extend [2, 3], .markMore] }

/-- The source without end, marked by parity, in a concatenation that is merged and filtered. -/
def Collection.endlessOnes : Collection Unit Nat :=
  .filter
    (.merge
      (.cons "numbers" (.concat (.cons "odd" (.leaf
        (.key (fun n => .bool (n % 2 == 1)) Bookmarker.acceptsKey .ascending)
        Source.endless) .nil)) .nil)
      .ascending)
    (fun n => n == 1) { maxRounds := 1 }

/-- The filter gives up after one round, and its token still names a place of the merge. -/
theorem Collection.endlessOnes_resumes :
    ∃ page, (endlessOnes.paginate (.ofSize 2) ⟨[], ()⟩).1 = .ok page ∧
      page.nextBookmark
        = some (.merge [("numbers", some (.concat "odd" (some (.bool false))))]) ∧
      Run.Ensures (endlessOnes.placeOf page.nextToken) fun place => place = page.nextBookmark := by
  have hhonest : endlessOnes.Honest := by
    refine ⟨⟨?_, trivial⟩, trivial⟩
    rintro item b hb
    obtain rfl := Except.ok.inj hb
    rfl
  obtain ⟨page, hpage, hnext⟩ : ∃ page, (endlessOnes.paginate (.ofSize 2) ⟨[], ()⟩).1 = .ok page ∧
      page.nextBookmark = some (.merge [("numbers", some (.concat "odd" (some (.bool false))))]) :=
    ⟨_, rfl, rfl⟩
  obtain ⟨token, htoken⟩ : ∃ token, page.nextToken = some token :=
    ⟨_, congrArg (Option.map Bookmark.token) hnext⟩
  obtain ⟨b, hb, -, -, hplace, -⟩ := endlessOnes.next_page_resumes
    ⟨rfl, ⟨rfl, trivial, trivial⟩, trivial⟩ hhonest (.ofSize 2) ⟨[], ()⟩ hpage htoken
    (by rw [hnext]; rintro b ⟨⟩; decide)
  refine ⟨page, hpage, hnext, ?_⟩
  rw [htoken, hb]
  exact hplace

end KeysetPaging
