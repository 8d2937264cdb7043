import KeysetPaging.Proofs.Following
import KeysetPaging.Proofs.Joints

/-! # Collections serve every place that they accept

A supply serves the places of a kind when it answers every request for a page after one of them, or
for the first page, as long as the page has a size. A collection that is built from others asks them
for pages of sizes that it computes and at places that it takes out of its own, so the obligations
are the same at every joint: the size of an inner page is never zero, and its place is one that the
inner collection serves. The state of the sources comes along, so that a property of it which every
answer of a leaf preserves is preserved by the whole collection.
-/

namespace KeysetPaging

variable {σ α β : Type} {I : σ → Prop} {P : Bookmark → Prop}

/-- Asked for a page of some size at a place with the property, or at the start, the supply answers
with a page, and the state of the sources keeps the property `I`. -/
def Supply.Serves (I : σ → Prop) (P : Bookmark → Prop) (supply : Supply σ α) : Prop :=
  ∀ perPage place, 0 < perPage → (∀ b ∈ place, P b) →
    Run.Upholds I (supply perPage place) fun answer => ∃ page, answer = .ok page

/-- A page could be filled. -/
def Filled.Succeeds (filled : Filled α) : Prop :=
  filled.failure = none

/-- A way of filling pages that have room, without a failure, makes a supply that serves. -/
theorem Supply.Serves.ofFill {fill : Page α → Run σ (Filled α)}
    (h : ∀ page : Page α, (∀ b ∈ page.current, P b) → page.isFull = false →
      Run.Upholds I (fill page) Filled.Succeeds) :
    (Supply.ofFill fill).Serves I P := by
  intro perPage place hperPage hplace
  rw [Supply.ofFill, Page.start?, dif_pos hperPage]
  refine (h _ hplace (Page.isFull_blank hperPage place)).bind fun filled hfilled => ?_
  rw [show filled.failure = none from hfilled]
  exact .pure ⟨filled.page, rfl⟩

/-- A supply that serves and keeps places answers with pages that hold only such places. -/
theorem Supply.Serves.within {supply : Supply σ α} (h : supply.Serves I P)
    (hkeeps : supply.Keeps P) {perPage : Nat} {place : Option Bookmark} (hperPage : 0 < perPage)
    (hplace : ∀ b ∈ place, P b) :
    Run.Upholds I (supply perPage place) fun answer => ∃ page, answer = .ok page ∧
      page.Within P := by
  refine ((h perPage place hperPage hplace).and (hkeeps perPage place hplace)).mono ?_
  rintro answer ⟨⟨page, hpage⟩, hwithin⟩
  exact ⟨page, hpage, (hwithin page hpage).1⟩

/-! ## Transformed and filtered collections -/

/-- A transformed collection passes its request on as it is. -/
theorem Transform.serves (f : α → β) {supply : Supply σ α} (h : supply.Serves I P) :
    (Supply.ofFill (Transform.fill f supply)).Serves I P := by
  refine .ofFill fun page hstart _ => ?_
  rw [fill]
  refine (h page.perPage page.current page.perPage_pos hstart).bind ?_
  rintro _ ⟨sub, rfl⟩
  exact .pure rfl

namespace Filter

variable {options : FilterOptions} {keep : α → Bool} {supply : Supply σ α}

/-- Every round of the filling mode asks for at least one item, at a place of the inner
collection. -/
theorem fillRounds_serves (hkeeps : supply.Keeps P) (h : supply.Serves I P) (left round : Nat)
    {place : Option Bookmark} {size : Nat} (page : Page α) (hsize : 0 < size)
    (hplace : ∀ b ∈ place, P b) :
    Run.Upholds I (fillRounds options keep supply left round place size page)
      Filled.Succeeds := by
  induction left generalizing round place size page with
  | zero => exact .note (.pure rfl)
  | succ left ih =>
    rw [fillRounds]
    refine (h.within hkeeps hsize hplace).bind ?_
    rintro _ ⟨sub, rfl, hsub⟩
    refine .note ?_
    dsimp only
    split
    · exact .pure rfl
    · exact ih (round + 1) _ (grow_pos (Page.perPage_pos _) hsize) hsub.next

/-- Every round of the sifting mode asks for as many items as the page has room for. -/
theorem siftRounds_serves (hkeeps : supply.Keeps P) (h : supply.Serves I P) (left round : Nat)
    {place : Option Bookmark} (page : Page α) (hplace : ∀ b ∈ place, P b) :
    Run.Upholds I (siftRounds options keep supply left round place page) Filled.Succeeds := by
  induction left generalizing round place page with
  | zero => exact .note (.pure rfl)
  | succ left ih =>
    rw [siftRounds]
    refine (h.within hkeeps page.perPage_pos hplace).bind ?_
    rintro _ ⟨sub, rfl, hsub⟩
    refine .note ?_
    dsimp only
    split_ifs
    · exact .pure rfl
    · exact .pure rfl
    · exact ih (round + 1) _ hsub.next

/-- A filter serves what its inner collection does, whatever its options. -/
theorem serves (options : FilterOptions) (keep : α → Bool) (hkeeps : supply.Keeps P)
    (h : supply.Serves I P) : (Supply.ofFill (fill options keep supply)).Serves I P := by
  refine .ofFill fun page hstart _ => ?_
  rw [fill]
  split
  · exact fillRounds_serves hkeeps h _ _ page page.perPage_pos hstart
  · exact siftRounds_serves hkeeps h _ _ page hstart

end Filter

/-! ## Collections in a row -/

namespace Sources

variable {Q : String → Option Bookmark → Prop}

/-- Every collection of a row serves the places that belong to its label. -/
def Serve (I : σ → Prop) (Q : String → Option Bookmark → Prop) : Sources σ α → Prop :=
  Each fun label c => c.supply.Serves I fun b => Q label (some b)

/-- A row asks one collection after another, as long as the page has room. The place it starts from
belongs to the label it begins with, and every later collection is asked from its start. -/
theorem fill_serves : ∀ (sources : Sources σ α) (from? : Option String)
    (position : Option Bookmark) (page : Page α), sources.Serve I Q →
      (∀ b ∈ position, ∀ label ∈ from?.or sources.firstLabel?, Q label (some b)) →
        page.isFull = false → Run.Upholds I (sources.fill from? position page) Filled.Succeeds
  | .nil, _, _, page => by
    intro _ _ _
    rw [fill]
    exact .pure rfl
  | .cons label c rest, from?, position, page => by
    rintro ⟨hc, hrest⟩ hposition hroom
    rw [fill]
    split
    next hskip =>
      rw [beginning_later hskip _ rest] at hposition
      exact fill_serves rest from? position page hrest hposition hroom
    next hhere =>
      refine (hc page.remaining position (page.remaining_pos hroom)
        fun b hb => hposition b hb label (beginning_here hhere)).bind ?_
      rintro _ ⟨sub, rfl⟩
      refine .note ?_
      dsimp only
      split_ifs with hmore hfull
      · exact .pure rfl
      · split <;> exact .pure rfl
      · exact fill_serves rest none none _ hrest (by simp) (by simpa using hfull)

/-- A row answers for all its lanes when the places that are known for the labels belong to them. -/
theorem lanes_serves : ∀ (sources : Sources σ α) (known : List (String × Option Bookmark))
    {perPage : Nat}, sources.Serve I Q → (∀ p ∈ known, ∀ b ∈ p.2, Q p.1 (some b)) → 0 < perPage →
      Run.Upholds I (sources.lanes known perPage) fun answer => ∃ lanes, answer = .ok lanes
  | .nil, known, perPage => by
    intro _ _ _
    rw [lanes]
    exact .pure ⟨[], rfl⟩
  | .cons label c rest, known, perPage => by
    rintro ⟨hc, hrest⟩ hknown hperPage
    rw [lanes]
    refine (hc perPage _ hperPage (Merge.known_place hknown label)).bind ?_
    rintro _ ⟨sub, rfl⟩
    refine .note ((lanes_serves rest known hrest hknown hperPage).bind ?_)
    rintro _ ⟨lanes, rfl⟩
    exact .pure ⟨_, rfl⟩

end Sources

/-- A row whose collections serve the places that they accept serves the places that it accepts. -/
theorem Sources.serve_accepts {sources : Sources σ α} (hlabels : sources.labels.Nodup)
    (h : sources.Each fun _ c => c.supply.Serves I fun b => c.accepts b) :
    sources.Serve I fun label position => sources.accepts label position := by
  refine (h.and (each_accepts hlabels)).imp ?_
  rintro label - c ⟨hc, haccepts⟩
  simpa only [haccepts, Option.all_some] using hc

/-- A leaf serves the places that its bookmarker accepts. -/
def Source.ServesAccepted (I : σ → Prop) (bookmarker : Bookmarker α) (source : Source σ α) : Prop :=
  (Supply.ofFill (source.fill bookmarker)).Serves I fun b => bookmarker.accepts b

mutual

/-- **A collection serves every place that it accepts**, if its leaves do and keep to such
places. -/
theorem Collection.serves_accepts {σ : Type} {I : σ → Prop} : ∀ {α : Type} (c : Collection σ α),
    c.Labelled → c.EveryLeaf Source.KeepsAccepted → c.EveryLeaf (Source.ServesAccepted I) →
      c.supply.Serves I fun b => c.accepts b
  | _, .leaf bookmarker source => by
    intro _ _ hserves
    rw [Collection.supply_leaf]
    simpa only [Collection.accepts, Collection.EveryLeaf, Source.ServesAccepted] using hserves
  | _, .filter inner keep options => by
    intro hlabelled hkeeps hserves
    have hinner := inner.serves_accepts hlabelled hkeeps hserves
    rw [Collection.supply_filter]
    simpa only [Collection.accepts] using
      Filter.serves options keep (inner.keeps_accepts hlabelled hkeeps) hinner
  | _, .transform inner f => by
    intro hlabelled hkeeps hserves
    have hinner := inner.serves_accepts hlabelled hkeeps hserves
    rw [Collection.supply_transform]
    simpa only [Collection.accepts] using Transform.serves f hinner
  | _, .concat sources => by
    rintro ⟨hcheck, hlabelled⟩ hkeeps hserves
    have hrow := Sources.serve_accepts (nodup_of_checkLabels hcheck)
      (sources.serves_accepts hlabelled hkeeps hserves)
    refine .ofFill fun page hstart hroom => ?_
    rw [Collection.fill]
    split
    next label position hcurrent =>
      refine sources.fill_serves _ position page hrow ?_ hroom
      rintro b rfl
      have haccepts := hstart _ hcurrent
      exact Sources.asked_accepts (by simpa only [Collection.accepts] using haccepts)
    · exact sources.fill_serves none none page hrow (by simp) hroom
  | _, .merge sources direction => by
    rintro ⟨hcheck, hlabelled⟩ hkeeps hserves
    have hrow := Sources.serve_accepts (nodup_of_checkLabels hcheck)
      (sources.serves_accepts hlabelled hkeeps hserves)
    refine .ofFill fun page hstart _ => ?_
    rw [Collection.fill]
    refine (sources.lanes_serves _ hrow ?_ page.perPage_pos).bind ?_
    · split
      next known hcurrent => exact Merge.accepts_known (hstart _ hcurrent)
      · simp
    · rintro _ ⟨lanes, rfl⟩
      exact .pure rfl

theorem Sources.serves_accepts {σ : Type} {I : σ → Prop} : ∀ {α : Type} (sources : Sources σ α),
    sources.Labelled → sources.EveryLeaf Source.KeepsAccepted →
      sources.EveryLeaf (Source.ServesAccepted I) →
        sources.Each fun _ c => c.supply.Serves I fun b => c.accepts b
  | _, .nil => fun _ _ _ => trivial
  | _, .cons _ c rest => fun hlabelled hkeeps hserves =>
    ⟨c.serves_accepts hlabelled.1 hkeeps.1 hserves.1,
      rest.serves_accepts hlabelled.2 hkeeps.2 hserves.2⟩

end

end KeysetPaging
