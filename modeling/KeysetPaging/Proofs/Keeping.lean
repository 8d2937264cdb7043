import KeysetPaging.Proofs.Places

/-! # Built collections keep the places of their sources

A collection that is built from others answers with places that they answered with, or with labelled
ones of these. So a property that the sources keep is kept by what is built from them, as long as
labelling a place keeps it too.
-/

namespace KeysetPaging

variable {σ α β : Type} {P : Bookmark → Prop}

/-! ## Transformed and filtered collections -/

/-- Transforming items changes no place. -/
theorem Transform.keeps (f : α → β) {supply : Supply σ α} (h : supply.Keeps P) :
    (Supply.ofFill (Transform.fill f supply)).Keeps P := by
  refine .ofFill fun page hpage => (h page.perPage page.current hpage.starts).bind ?_
  rintro (e | sub) hsub
  · exact .pure ⟨hpage, rfl⟩
  · obtain ⟨hsub, -⟩ := hsub sub rfl
    have happended : (page.append (sub.entries.map fun e => (f e.1, e.2))).Within P :=
      hpage.append (List.forall_mem_map.mpr fun _ he => hsub.entry he)
    refine .pure ?_
    split
    · exact ⟨happended.markMore.resume hsub.next, rfl⟩
    · exact ⟨happended, rfl⟩

namespace Filter

variable {options : FilterOptions} {keep : α → Bool} {supply : Supply σ α}

/-- What is taken of an inner page holds only places of that page. -/
theorem take_within {kept : List (α × Bookmark)} {sub page : Page α} (hpage : page.Within P)
    (hsub : sub.Within P) (hkept : ∀ e ∈ kept, P e.2) : (take kept sub page).1.Within P := by
  have happended := hpage.append fun e he =>
    hkept e (List.mem_of_mem_take (i := max 1 page.remaining) he)
  rw [take]
  split_ifs
  · exact happended.markMore
  · exact happended.markMore.resume hsub.next
  · exact happended
  · exact happended

/-- What is taken of an inner page leaves the start of the page alone. -/
@[simp] theorem current_take (kept : List (α × Bookmark)) (sub page : Page α) :
    (take kept sub page).1.current = page.current := by
  rw [take]
  split_ifs <;> rfl

/-- The entries that pass a test are among those of the page. -/
theorem kept_within (keep : α → Bool) {sub : Page α} (hsub : sub.Within P) :
    ∀ e ∈ sub.entries.filter (fun e => keep e.1), P e.2 :=
  fun _ he => hsub.entry ((List.mem_filter.mp he).1)

/-- No round of the filling mode leaves the places of the inner collection. -/
theorem fillRounds_keeps (h : supply.Keeps P) (left round : Nat) (place : Option Bookmark)
    (size : Nat) {page : Page α} (hpage : page.Within P) (hplace : ∀ b ∈ place, P b) :
    Run.Ensures (fillRounds options keep supply left round place size page)
      (Filled.Keeps P page) := by
  induction left generalizing round place size page with
  | zero => exact .note (.pure ⟨hpage.markMore.resume hplace, rfl⟩)
  | succ left ih =>
    rw [fillRounds]
    refine (h size place hplace).bind ?_
    rintro (e | sub) hsub
    · exact .pure ⟨hpage, rfl⟩
    · obtain ⟨hsub, -⟩ := hsub sub rfl
      have htaken := take_within hpage hsub (kept_within keep hsub)
      refine .note ?_
      dsimp only
      split
      · exact .pure ⟨htaken, by simp⟩
      · refine (ih _ _ _ htaken hsub.next).mono fun filled hfilled => ?_
        exact ⟨hfilled.1, by simpa using hfilled.2⟩

/-- No round of the sifting mode leaves the places of the inner collection. -/
theorem siftRounds_keeps (h : supply.Keeps P) (left round : Nat) (place : Option Bookmark)
    {page : Page α} (hpage : page.Within P) (hplace : ∀ b ∈ place, P b) :
    Run.Ensures (siftRounds options keep supply left round place page)
      (Filled.Keeps P page) := by
  induction left generalizing round place page with
  | zero => exact .note (.pure ⟨hpage.markMore.resume hplace, rfl⟩)
  | succ left ih =>
    rw [siftRounds]
    refine (h page.perPage place hplace).bind ?_
    rintro (e | sub) hsub
    · exact .pure ⟨hpage, rfl⟩
    · obtain ⟨hsub, -⟩ := hsub sub rfl
      have happended := hpage.append (kept_within keep hsub)
      refine .note ?_
      dsimp only
      split_ifs
      · exact .pure ⟨happended, rfl⟩
      · exact .pure ⟨happended.markMore.resume hsub.next, rfl⟩
      · exact ih _ _ happended hsub.next

/-- Filtering items adds no place. -/
theorem keeps (options : FilterOptions) (keep : α → Bool) (h : supply.Keeps P) :
    (Supply.ofFill (fill options keep supply)).Keeps P := by
  refine .ofFill fun page hpage => ?_
  rw [fill]
  split
  · exact fillRounds_keeps h _ _ _ _ hpage hpage.starts
  · exact siftRounds_keeps h _ _ _ hpage hpage.starts

end Filter

/-! ## Collections in a row -/

/-- How a collection answers another one that is built on it. -/
def Collection.supply (c : Collection σ α) : Supply σ α :=
  Supply.ofFill c.fill

theorem Collection.supply_leaf (bookmarker : Bookmarker α) (source : Source σ α) :
    (leaf bookmarker source).supply = Supply.ofFill (source.fill bookmarker) := by
  simp only [supply, fill]

theorem Collection.supply_filter (inner : Collection σ α) (keep : α → Bool)
    (options : FilterOptions) :
    (inner.filter keep options).supply = Supply.ofFill (Filter.fill options keep inner.supply) := by
  simp only [supply, fill]

theorem Collection.supply_transform (inner : Collection σ α) (f : α → β) :
    (inner.transform f).supply = Supply.ofFill (Transform.fill f inner.supply) := by
  simp only [supply, fill]

/-- Every collection of a row has a property, which may depend on its label. -/
def Sources.Each (T : String → Collection σ α → Prop) : Sources σ α → Prop
  | .nil => True
  | .cons label collection rest => T label collection ∧ rest.Each T

namespace Sources

variable {Q : String → Option Bookmark → Prop}

/-- Every collection of a row keeps the places that belong to its label, and the start of every
collection belongs to its label. -/
def Keep (Q : String → Option Bookmark → Prop) : Sources σ α → Prop :=
  Each fun label c => Q label none ∧ c.supply.Keeps fun b => Q label (some b)

/-- A row that begins behind its first collection begins there whatever the first one is. -/
theorem beginning_later {label : String} {from? : Option String} (h : from?.any (· ≠ label))
    (sources rest : Sources σ α) : from?.or sources.firstLabel? = from?.or rest.firstLabel? := by
  cases from? with
  | none => simp at h
  | some wanted => rfl

/-- A row that does not begin further back begins with its first collection. -/
theorem beginning_here {label : String} {c : Collection σ α} {rest : Sources σ α}
    {from? : Option String} (h : ¬ from?.any (· ≠ label)) :
    label ∈ from?.or (cons label c rest).firstLabel? := by
  cases from? with
  | none => simp [firstLabel?]
  | some wanted => simpa using h

/-- A row keeps the places that are made from places of its collections. A row that begins with a
label is asked at a place that belongs to that label. -/
theorem fill_keeps (hP : ∀ label position, Q label position → P (.concat label position)) :
    ∀ (sources : Sources σ α) (from? : Option String) (position : Option Bookmark) (page : Page α),
      sources.Keep Q → (∀ b ∈ position, ∀ label ∈ from?.or sources.firstLabel?, Q label (some b)) →
        page.Within P → Run.Ensures (sources.fill from? position page) (Filled.Keeps P page)
  | .nil, _, _, page => by
    intro _ _ hpage
    rw [fill]
    exact .pure ⟨hpage, rfl⟩
  | .cons label c rest, from?, position, page => by
    rintro ⟨⟨hstart, hc⟩, hrest⟩ hposition hpage
    rw [fill]
    split
    next hskip =>
      rw [beginning_later hskip _ rest] at hposition
      exact fill_keeps hP rest from? position page hrest hposition hpage
    next hhere =>
      refine (hc page.remaining position fun b hb =>
        hposition b hb label (beginning_here hhere)).bind ?_
      rintro (e | sub) hsub
      · exact .pure ⟨hpage, rfl⟩
      · obtain ⟨hsub, -⟩ := hsub sub rfl
        have happended : (page.append
            (sub.entries.map fun e => (e.1, Concat.place label e.2))).Within P :=
          hpage.append (List.forall_mem_map.mpr fun e he => hP label (some e.2) (hsub.entry he))
        refine .note ?_
        dsimp only
        split_ifs
        · refine .pure ⟨happended.markMore.resume ?_, rfl⟩
          simp only [Option.mem_def, Option.map_eq_some_iff]
          rintro b ⟨inner, hinner, rfl⟩
          exact hP label (some inner) (hsub.next inner hinner)
        · cases rest with
          | nil => exact .pure ⟨happended, rfl⟩
          | cons next nextCollection later =>
            refine .pure ⟨happended.markMore.resume ?_, rfl⟩
            simpa using hP next none hrest.1.1
        · exact fill_keeps hP rest none none _ hrest (by simp) happended

end Sources

/-! ## Merged collections -/

/-- Every place that a lane holds belongs to its label. -/
structure Lane.Within (Q : String → Option Bookmark → Prop) (lane : Lane α) : Prop where
  start : Q lane.label none
  place : Q lane.label lane.place
  marks : ∀ e ∈ lane.buffer, Q lane.label (some e.2)
  resumes : ∀ b ∈ lane.resumeAt, Q lane.label (some b)

namespace Lane.Within

variable {Q : String → Option Bookmark → Prop} {lane : Lane α}

theorem advance (h : lane.Within Q) : lane.advance.Within Q := by
  obtain ⟨label, place, buffer, hasMore, resumeAt⟩ := lane
  cases buffer with
  | nil => exact h
  | cons e rest =>
    exact ⟨h.start, h.marks e (by simp), fun e' he' => h.marks e' (List.mem_cons_of_mem e he'),
      h.resumes⟩

theorem settle (h : lane.Within Q) : lane.settle.Within Q := by
  rw [Lane.settle]
  split
  · refine ⟨h.start, ?_, h.marks, h.resumes⟩
    cases hresume : lane.resumeAt with
    | none => exact h.start
    | some b => exact h.resumes b hresume
  · exact h

end Lane.Within

namespace Merge

variable {Q : String → Option Bookmark → Prop} {direction : Direction}

/-- A merge of places that belong to their labels has the property. -/
theorem snapshot_keeps (hP : ∀ ps, (∀ p ∈ ps, Q p.1 p.2) → P (.merge ps)) {lanes : List (Lane α)}
    (h : ∀ lane ∈ lanes, lane.Within Q) : P (Lane.snapshot lanes) := by
  refine hP _ ?_
  simp only [List.mem_map]
  rintro _ ⟨lane, hlane, rfl⟩
  exact (h lane hlane).place

/-- Taking items from lanes leaves them among their places, and marks the items with merges of
such places. -/
theorem interleave_keeps (direction : Direction)
    (hP : ∀ ps, (∀ p ∈ ps, Q p.1 p.2) → P (.merge ps)) (room : Nat) {lanes : List (Lane α)}
    (h : ∀ lane ∈ lanes, lane.Within Q) :
    (∀ e ∈ (interleave direction room lanes).1, P e.2) ∧
      ∀ lane ∈ (interleave direction room lanes).2, lane.Within Q := by
  induction room generalizing lanes with
  | zero => exact ⟨by simp [interleave], h⟩
  | succ room ih =>
    rw [interleave]
    split
    · exact ⟨by simp, h⟩
    next i hi =>
      split
      · have hadvanced : ∀ lane ∈ lanes.modify i Lane.advance, lane.Within Q := by
          intro lane hlane
          obtain ⟨k, hk⟩ := List.mem_iff_getElem?.mp hlane
          rw [List.getElem?_modify, Option.map_eq_map, Option.map_eq_some_iff] at hk
          obtain ⟨before, hbefore, rfl⟩ := hk
          have hwithin := h before (List.mem_of_getElem? hbefore)
          split
          · exact hwithin.advance
          · exact hwithin
        obtain ⟨hmarks, hleft⟩ := ih hadvanced
        refine ⟨?_, hleft⟩
        simp only [List.mem_cons, forall_eq_or_imp]
        exact ⟨snapshot_keeps hP hadvanced, hmarks⟩
      · exact ⟨by simp, h⟩

/-- Lanes among their places fill a page with merges of such places. -/
theorem fill_keeps (hP : ∀ ps, (∀ p ∈ ps, Q p.1 p.2) → P (.merge ps)) {lanes : List (Lane α)}
    (h : ∀ lane ∈ lanes, lane.Within Q) {page : Page α} (hpage : page.Within P) :
    (fill direction lanes page).Within P := by
  obtain ⟨hmarks, hleft⟩ := interleave_keeps direction hP page.remaining h
  rw [fill]
  dsimp only
  split
  · refine (hpage.append hmarks).markMore.resume ?_
    simp only [Option.mem_def, Option.some.injEq, forall_eq']
    exact snapshot_keeps hP (List.forall_mem_map.mpr fun lane hlane => (hleft lane hlane).settle)
  · exact hpage.append hmarks

/-- Filling a page from lanes leaves its start alone. -/
@[simp] theorem current_fill (lanes : List (Lane α)) (page : Page α) :
    (fill direction lanes page).current = page.current := by
  rw [fill]
  dsimp only
  split <;> rfl

/-- Among places that belong to their labels, the one that is known for a label belongs to it. -/
theorem known_place {known : List (String × Option Bookmark)}
    (hknown : ∀ p ∈ known, ∀ b ∈ p.2, Q p.1 (some b)) (label : String) :
    ∀ b ∈ (known.lookup label).join, Q label (some b) := by
  intro b hb
  rw [Option.mem_def, Option.join_eq_some_iff, List.lookup_eq_some_iff] at hb
  obtain ⟨before, after, hknown', -⟩ := hb
  exact hknown (label, some b) (by simp [hknown']) b rfl

end Merge

/-- The lanes of a row are among the places of its collections, when the places at which these are
asked are. -/
theorem Sources.lanes_keeps {Q : String → Option Bookmark → Prop} :
    ∀ (sources : Sources σ α) (known : List (String × Option Bookmark)) (perPage : Nat),
      sources.Keep Q → (∀ p ∈ known, ∀ b ∈ p.2, Q p.1 (some b)) →
        Run.Ensures (sources.lanes known perPage) fun answer =>
          ∀ lanes, answer = .ok lanes → ∀ lane ∈ lanes, lane.Within Q
  | .nil, known, perPage => by
    intro _ _
    rw [lanes]
    exact .pure (by simp)
  | .cons label c rest, known, perPage => by
    rintro ⟨⟨hstart, hc⟩, hrest⟩ hknown
    rw [lanes]
    have hplace := Merge.known_place hknown label
    refine (hc perPage _ hplace).bind ?_
    rintro (e | sub) hsub
    · exact .pure (by simp)
    · obtain ⟨hsub, -⟩ := hsub sub rfl
      refine .note ((lanes_keeps rest known perPage hrest hknown).bind ?_)
      rintro (e | lanes) hlanes
      · exact .pure (by simp)
      · refine .pure fun answer hanswer => ?_
        obtain rfl := Except.ok.inj hanswer
        simp only [List.mem_cons, forall_eq_or_imp]
        refine ⟨⟨hstart, ?_, fun e he => hsub.entry he, hsub.next⟩, hlanes lanes rfl⟩
        change Q label (known.lookup label).join
        cases hknown : (known.lookup label).join with
        | none => exact hstart
        | some b => exact hplace b hknown

end KeysetPaging
