import KeysetPaging.Proofs.Growth
import KeysetPaging.Proofs.Steady

/-! # One row behind another

A row of collections behind another one takes over from it where a page is not full yet. In the
middle of a page it fills what is left just as it fills a page of its own, and a page that it has
not filled to its end resumes in one of its collections.
-/

namespace KeysetPaging

variable {σ α : Type}

/-! ## One row behind another -/

/-- Adding items does not say that there is more. -/
@[simp] theorem Page.hasMore_append (page : Page α) (es : List (α × Bookmark)) :
    (page.append es).hasMore = page.hasMore :=
  rfl

namespace Sources

/-- Two rows, one behind the other. -/
def append : Sources σ α → Sources σ α → Sources σ α
  | .nil, more => more
  | .cons label c rest, more => .cons label c (rest.append more)

@[simp] theorem labels_append (more : Sources σ α) :
    ∀ sources : Sources σ α, (sources.append more).labels = sources.labels ++ more.labels
  | .nil => rfl
  | .cons label c rest => by rw [append, labels, labels_append more rest, labels, List.cons_append]

/-- The label of the first collection is a label of the row. -/
theorem mem_labels_of_firstLabel? {sources : Sources σ α} {label : String}
    (h : sources.firstLabel? = some label) : label ∈ sources.labels := by
  cases sources with
  | nil => cases h
  | cons other c rest =>
    obtain rfl : other = label := Option.some.inj h
    simp [labels]

theorem firstLabel?_append {sources more : Sources σ α} {label : String}
    (h : sources.firstLabel? = some label) : (sources.append more).firstLabel? = some label := by
  cases sources with
  | nil => cases h
  | cons other c rest => exact h

/-- What becomes of a page behind a row: unless the row was left before its end, the next row fills
what is missing, and a page that is full goes on there. -/
def goOn (more : Sources σ α) (filled : Filled α) : Run σ (Filled α) :=
  if filled.failure.isSome || filled.page.hasMore then pure filled
  else if filled.page.isFull then
    match more.firstLabel? with
    | none => pure filled
    | some next => pure { page := filled.page.markMore.resume (some (.concat next none)) }
  else more.fill none none filled.page

/-- A page that has failed, or goes on before the end of the row, stays as it is. -/
theorem goOn_of_left (more : Sources σ α) {filled : Filled α}
    (h : filled.failure ≠ none ∨ filled.page.hasMore = true) : more.goOn filled = pure filled := by
  rw [goOn, if_pos]
  simpa [Option.isSome_iff_ne_none] using h

/-- A full page goes on at the front of the next row, if there is one. -/
theorem goOn_of_full (more : Sources σ α) {page : Page α} (hmore : page.hasMore = false)
    (hfull : page.isFull) : more.goOn { page } =
      match more.firstLabel? with
      | none => pure { page }
      | some next => pure { page := page.markMore.resume (some (.concat next none)) } := by
  simp [goOn, hmore, hfull]

/-- What is missing of a page the next row fills from its front on. -/
theorem goOn_of_room (more : Sources σ α) {page : Page α} (hmore : page.hasMore = false)
    (hroom : page.isFull = false) : more.goOn { page } = more.fill none none page := by
  simp [goOn, hmore, hroom]

/-- A row that begins with a label behind another row begins there whatever stands in front. -/
theorem fill_append_of_notMem (more : Sources σ α) {label : String} (position : Option Bookmark)
    (page : Page α) : ∀ {sources : Sources σ α}, label ∉ sources.labels →
      (sources.append more).fill (some label) position page = more.fill (some label) position page
  | .nil, _ => rfl
  | .cons other c rest, h => by
    rw [labels, List.mem_cons, not_or] at h
    rw [append, fill, if_pos (by simpa using h.1), fill_append_of_notMem more position page h.2]

/-- A row that begins with its first label begins at its front. -/
theorem fill_firstLabel {sources : Sources σ α} {label : String}
    (h : sources.firstLabel? = some label) (position : Option Bookmark) (page : Page α) :
    sources.fill (some label) position page = sources.fill none position page := by
  cases sources with
  | nil => cases h
  | cons other c rest =>
    obtain rfl : other = label := Option.some.inj h
    rw [fill, fill]
    simp

/-- **A row behind another one takes over from it.** -/
theorem fill_append (more : Sources σ α) : ∀ (sources : Sources σ α) (from? : Option String)
    (position : Option Bookmark) {page : Page α}, (∀ label ∈ from?, label ∈ sources.labels) →
      (from? = none → position = none) → page.isFull = false → page.hasMore = false →
        (sources.append more).fill from? position page
          = sources.fill from? position page >>= more.goOn
  | .nil, from?, position, page, hfrom, hposition, hfull, hmore => by
    obtain rfl : from? = none := by
      cases from? with
      | none => rfl
      | some label => simpa [labels] using hfrom label rfl
    rw [hposition rfl, append, fill, pure_bind]
    simp [goOn, hfull, hmore]
  | .cons label c rest, from?, position, page, hfrom, hposition, hfull, hmore => by
    rw [append, fill, fill]
    split
    next hskip =>
      refine fill_append more rest from? position (fun wanted hwanted => ?_) hposition hfull hmore
      obtain rfl := hwanted
      have hne : wanted ≠ label := by simpa using hskip
      simpa [labels, hne] using hfrom wanted rfl
    next hhere =>
      rw [bind_assoc]
      refine congrArg (_ >>= ·) (funext fun answer => ?_)
      cases answer with
      | error e => simp [goOn]
      | ok sub =>
        simp only [bind_assoc]
        refine congrArg (_ >>= ·) (funext fun _ => ?_)
        cases hsub : sub.hasMore with
        | true => simp [goOn, Page.markMore, Page.resume]
        | false =>
          simp only [Bool.false_eq_true, if_false]
          split
          next hfull =>
            -- The page is full behind this collection, which may be the last one of the row.
            cases rest with
            | nil =>
              have hnone : (nil : Sources σ α).firstLabel? = none := rfl
              rw [append, hnone]
              cases hnext : more.firstLabel? <;> simp [goOn, hfull, hmore, hnext]
            | cons next d later => simp [append, firstLabel?, goOn, Page.markMore, Page.resume]
          next hroom =>
            exact fill_append more rest none none (by simp) (fun _ => rfl) (by simpa using hroom)
              hmore

end Sources

/-! ## The rest of a page as a page of its own -/

/-- A page, and behind it a page that was filled for the rest of it. -/
def Page.followed (page sub : Page α) : Page α :=
  { page with
    items := page.items ++ sub.items
    bookmarks := page.bookmarks ++ sub.bookmarks
    hasMore := sub.hasMore
    resumeAt := sub.resumeAt }

/-- A page, and behind it what became of a page for the rest of it. -/
def Filled.behind (page : Page α) (filled : Filled α) : Filled α :=
  { filled with page := page.followed filled.page }

namespace Page

variable {page sub : Page α}

theorem followed_append (page sub : Page α) (es : List (α × Bookmark)) :
    page.followed (sub.append es) = (page.followed sub).append es := by
  simp [followed, append]

/-- Of the whole page as much is missing as of the page for its rest. -/
theorem remaining_followed (h : sub.perPage = page.remaining) :
    (page.followed sub).remaining = sub.remaining := by
  rw [remaining] at h
  simp only [remaining, followed, List.length_append]
  omega

/-- The whole page is full when the page for its rest is. -/
theorem isFull_followed (h : sub.perPage = page.remaining) :
    (page.followed sub).isFull = sub.isFull := by
  have hpos := sub.perPage_pos
  rw [remaining] at h
  simp only [isFull, followed, List.length_append, decide_eq_decide]
  omega

end Page

/-- **A row fills the rest of a page as it fills a page of its own.** -/
theorem Sources.fill_followed {base : Page α} : ∀ (sources : Sources σ α) (from? : Option String)
    (position : Option Bookmark) {sub : Page α}, sub.perPage = base.remaining →
      Run.InStep (· = Filled.behind base ·) (sources.fill from? position (base.followed sub))
        (sources.fill from? position sub)
  | .nil, from?, position, sub, _ => by
    rw [fill, fill]
    exact .pure rfl
  | .cons label c rest, from?, position, sub, hsize => by
    rw [fill, fill, Page.remaining_followed hsize]
    split
    · exact fill_followed rest from? position hsize
    · refine (Run.InStep.refl _).bind ?_
      rintro (e | inner) _ rfl
      · exact .pure rfl
      · have hfull : ∀ es, (base.followed (sub.append es)).isFull = (sub.append es).isFull :=
          fun es => Page.isFull_followed hsize
        refine .note ?_
        simp only [← Page.followed_append, hfull]
        split_ifs
        · exact .pure rfl
        · cases rest.firstLabel? with
          | none => exact .pure rfl
          | some next => exact .pure rfl
        · exact fill_followed rest none none hsize

/-- An empty page behind a page adds nothing to it. -/
theorem Page.followed_blank {page : Page α} {size : Nat} {place : Option Bookmark}
    {hsize : 0 < size} (hmore : page.hasMore = false) (hresume : page.resumeAt = none) :
    page.followed { perPage := size, current := place, perPage_pos := hsize } = page := by
  cases page
  simp_all [followed]

/-! ## Where a row goes on -/

/-- A page that goes on says where. -/
def Supply.GoesOn (supply : Supply σ α) : Prop :=
  ∀ perPage place, Run.Ensures (supply perPage place) fun answer =>
    ∀ page, answer = .ok page → page.hasMore → page.nextBookmark.isSome

/-- A page that a row has not filled to its end resumes in one of the collections of the row. -/
theorem Sources.fill_resumes : ∀ (sources : Sources σ α) (from? : Option String)
    (position : Option Bookmark) {page : Page α}, (sources.Each fun _ c => c.supply.GoesOn) →
      page.hasMore = false → Run.Ensures (sources.fill from? position page) fun filled =>
        filled.failure = none → filled.page.hasMore →
          ∃ label ∈ sources.labels, ∃ place, filled.page.resumeAt = some (.concat label place)
  | .nil, from?, position, page, _, hmore => by
    rw [fill]
    exact .pure (by simp [hmore])
  | .cons label c rest, from?, position, page, hgoes, hmore => by
    have hlater : ∀ {from? position} {page' : Page α}, page'.hasMore = false →
        Run.Ensures (rest.fill from? position page') fun filled =>
          filled.failure = none → filled.page.hasMore → ∃ other ∈ (cons label c rest).labels,
            ∃ place, filled.page.resumeAt = some (.concat other place) := by
      intro from? position page' hmore
      refine (fill_resumes rest from? position hgoes.2 hmore).mono ?_
      intro filled hfilled hfailure hmore
      obtain ⟨other, hother, hplace⟩ := hfilled hfailure hmore
      exact ⟨other, List.mem_cons_of_mem label hother, hplace⟩
    rw [fill]
    split
    · exact hlater hmore
    · refine (hgoes.1 _ _).bind ?_
      rintro (e | sub) hsub
      · exact .pure (by simp)
      · refine .note ?_
        dsimp only
        split_ifs with hgoesOn
        · obtain ⟨b, hb⟩ := Option.isSome_iff_exists.mp (hsub sub rfl hgoesOn)
          exact .pure fun _ _ => ⟨label, by simp [labels], some b, by simp [hb, Page.resume,
            Concat.place]⟩
        · cases rest with
          | nil => exact .pure (by simp [hmore])
          | cons next d later =>
            exact .pure fun _ _ => ⟨next, by simp [labels], none, rfl⟩
        · exact hlater hmore

end KeysetPaging
