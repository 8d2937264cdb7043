import KeysetPaging.Proofs.Tree
import Mathlib.Tactic.SplitIfs

/-! # Runs that always answer alike

Every run of a collection is put together from answers, from notes, and from what the leaves do. So
a property of runs that passes from one step to the next is one of all runs of a collection, as soon
as its leaves have it. One such property is to give the same answer whatever the journal. Lists of
items look at no state, and so every tree that is built from them always answers alike.
-/

namespace KeysetPaging

variable {σ α β : Type}

/-- A property of runs that all answers and all notes have, and that a run in two steps has when its
steps have it. -/
structure Run.Closed (T : ∀ {α : Type}, Run σ α → Prop) : Prop where
  pure {α : Type} (a : α) : T (Pure.pure a : Run σ α)
  bind {α β : Type} {run : Run σ α} {next : α → Run σ β} :
    T run → (∀ a, T (next a)) → T (run >>= next)
  note (e : Event) : T (Run.note e)

namespace Run.Closed

variable {T : ∀ {α : Type}, Run σ α → Prop}

theorem ofFill (hT : Closed T) {fill : Page α → Run σ (Filled α)} (h : ∀ page, T (fill page))
    (perPage : Nat) (place : Option Bookmark) : T (Supply.ofFill fill perPage place) := by
  rw [Supply.ofFill]
  split
  · exact hT.pure _
  · refine hT.bind (h _) fun filled => ?_
    split <;> exact hT.pure _

theorem source_fill (hT : Closed T) (bookmarker : Bookmarker α) {source : Source σ α}
    (h : ∀ page, T (source.fetch page)) (page : Page α) : T (source.fill bookmarker page) := by
  rw [Source.fill]
  refine hT.bind (h page) fun fetched => ?_
  dsimp only
  split
  · exact hT.pure _
  · split
    · exact hT.bind (hT.note _) fun _ => hT.pure _
    · exact hT.pure _

theorem transform_fill (hT : Closed T) (f : α → β) {supply : Supply σ α}
    (h : ∀ perPage place, T (supply perPage place)) (page : Page β) :
    T (Transform.fill f supply page) := by
  rw [Transform.fill]
  refine hT.bind (h _ _) ?_
  rintro (e | sub) <;> exact hT.pure _

section Filter

variable {options : FilterOptions} {keep : α → Bool} {supply : Supply σ α}

theorem fillRounds (hT : Closed T) (h : ∀ perPage place, T (supply perPage place))
    (left round : Nat) (place : Option Bookmark) (size : Nat) (page : Page α) :
    T (Filter.fillRounds options keep supply left round place size page) := by
  induction left generalizing round place size page with
  | zero => exact hT.bind (hT.note _) fun _ => hT.pure _
  | succ left ih =>
    rw [Filter.fillRounds]
    refine hT.bind (h size place) ?_
    rintro (e | sub)
    · exact hT.pure _
    · refine hT.bind (hT.note _) fun _ => ?_
      dsimp only
      split
      · exact hT.pure _
      · exact ih _ _ _ _

theorem siftRounds (hT : Closed T) (h : ∀ perPage place, T (supply perPage place))
    (left round : Nat) (place : Option Bookmark) (page : Page α) :
    T (Filter.siftRounds options keep supply left round place page) := by
  induction left generalizing round place page with
  | zero => exact hT.bind (hT.note _) fun _ => hT.pure _
  | succ left ih =>
    rw [Filter.siftRounds]
    refine hT.bind (h page.perPage place) ?_
    rintro (e | sub)
    · exact hT.pure _
    · refine hT.bind (hT.note _) fun _ => ?_
      dsimp only
      split_ifs
      · exact hT.pure _
      · exact hT.pure _
      · exact ih _ _ _

theorem filter_fill (hT : Closed T) (h : ∀ perPage place, T (supply perPage place))
    (page : Page α) : T (Filter.fill options keep supply page) := by
  rw [Filter.fill]
  split
  · exact hT.fillRounds h _ _ _ _ page
  · exact hT.siftRounds h _ _ _ page

end Filter

mutual

/-- **What every step of a run has, all runs of a collection have**, as soon as its leaves have
it. -/
theorem collection_fill {σ : Type} {T : ∀ {α : Type}, Run σ α → Prop} (hT : Closed T) :
    ∀ {α : Type} (c : Collection σ α),
      (c.EveryLeaf fun _ source => ∀ page, T (source.fetch page)) → ∀ page, T (c.fill page)
  | _, .leaf bookmarker source, hleaf, page => by
    rw [Collection.fill]
    exact hT.source_fill bookmarker hleaf page
  | _, .filter inner keep options, hleaf, page => by
    rw [Collection.fill]
    exact hT.filter_fill (hT.ofFill (hT.collection_fill inner hleaf)) page
  | _, .transform inner f, hleaf, page => by
    rw [Collection.fill]
    exact hT.transform_fill f (hT.ofFill (hT.collection_fill inner hleaf)) page
  | _, .concat sources, hleaf, page => by
    rw [Collection.fill]
    split
    · exact hT.sources_fill sources hleaf _ _ page
    · exact hT.sources_fill sources hleaf none none page
  | _, .merge sources direction, hleaf, page => by
    rw [Collection.fill]
    refine hT.bind (hT.sources_lanes sources hleaf _ page.perPage) ?_
    rintro (e | lanes) <;> exact hT.pure _

theorem sources_fill {σ : Type} {T : ∀ {α : Type}, Run σ α → Prop} (hT : Closed T) :
    ∀ {α : Type} (sources : Sources σ α),
      (sources.EveryLeaf fun _ source => ∀ page, T (source.fetch page)) →
        ∀ from? position page, T (sources.fill from? position page)
  | _, .nil, _, from?, position, page => by
    rw [Sources.fill]
    exact hT.pure _
  | _, .cons label c rest, hleaf, from?, position, page => by
    rw [Sources.fill]
    split
    · exact hT.sources_fill rest hleaf.2 from? position page
    · refine hT.bind (hT.ofFill (hT.collection_fill c hleaf.1) _ _) ?_
      rintro (e | sub)
      · exact hT.pure _
      · refine hT.bind (hT.note _) fun _ => ?_
        dsimp only
        split_ifs
        · exact hT.pure _
        · split <;> exact hT.pure _
        · exact hT.sources_fill rest hleaf.2 none none _

theorem sources_lanes {σ : Type} {T : ∀ {α : Type}, Run σ α → Prop} (hT : Closed T) :
    ∀ {α : Type} (sources : Sources σ α),
      (sources.EveryLeaf fun _ source => ∀ page, T (source.fetch page)) →
        ∀ known perPage, T (sources.lanes known perPage)
  | _, .nil, _, known, perPage => by
    rw [Sources.lanes]
    exact hT.pure _
  | _, .cons label c rest, hleaf, known, perPage => by
    rw [Sources.lanes]
    refine hT.bind (hT.ofFill (hT.collection_fill c hleaf.1) _ _) ?_
    rintro (e | sub)
    · exact hT.pure _
    · refine hT.bind (hT.note _) fun _ => hT.bind (hT.sources_lanes rest hleaf.2 known perPage) ?_
      rintro (e | lanes) <;> exact hT.pure _

end

end Run.Closed

/-- To answer alike whatever the journal passes from the steps of a run to the whole. -/
theorem Run.closed_steady : Closed (σ := σ) Steady :=
  ⟨.pure, .bind, fun _ => ⟨(), fun _ => rfl⟩⟩

/-- Asked the same, the supply always answers alike. -/
def Supply.Steady (supply : Supply σ α) : Prop :=
  ∀ perPage place, (supply perPage place).Steady

/-- Lists of items answer alike whatever the journal. -/
theorem Shelf.fetch_steady {α : Type} (shelf : Shelf α) (page : Page α) :
    ((shelf.list.source : Source σ α).fetch page).Steady :=
  .pure _

/-- **A tree always answers alike**: what its pages hold depends on nothing but their size and their
place. -/
theorem Tree.steady (σ : Type) (t : Tree α) : (t.collection σ).supply.Steady :=
  Run.closed_steady.ofFill
    (Run.closed_steady.collection_fill _ (t.everyLeaf fun shelf => shelf.fetch_steady))

/-- Trees in a row always fill a page alike. -/
theorem Branches.fill_steady (σ : Type) {labels : List String} (branches : Branches labels α)
    (from? : Option String) (position : Option Bookmark) (page : Page α) :
    ((branches.sources σ).fill from? position page).Steady :=
  Run.closed_steady.sources_fill _ (branches.everyLeaf fun shelf => shelf.fetch_steady) _ _ page

end KeysetPaging
