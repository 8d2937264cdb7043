import KeysetPaging.Proofs.Merging
import KeysetPaging.Proofs.Levels

/-! # Trees over lists of items

A tree is a collection that is built from lists of items by filters, transformations, concatenations
and merges, nested in any way. Every way of building one hands on a course and keeps the places that
it accepts, so both hold of the whole tree by induction.
-/

namespace KeysetPaging

variable {σ α : Type}

/-- How deep the bookmarks of a list of items nest. -/
def Shelf.levels (shelf : Shelf α) : Nat :=
  shelf.marked.foldr (fun e n => max e.2.levels n) 0

mutual

/-- A collection that is built from lists of items. -/
inductive Tree : Type → Type 1 where
  | leaf {α : Type} (shelf : Shelf α) : Tree α
  | filter {α : Type} (inner : Tree α) (keep : α → Bool) (options : FilterOptions)
      (rounds_pos : 0 < options.maxRounds) : Tree α
  | transform {α β : Type} (inner : Tree α) (f : α → β) : Tree β
  | concat {α : Type} {labels : List String} (branches : Branches labels α)
      (labelled : checkLabels .concat labels = .ok ()) : Tree α
  | merge {α : Type} {labels : List String} (branches : Branches labels α) (direction : Direction)
      (labelled : checkLabels .merge labels = .ok ()) : Tree α

/-- Trees in a row, under their labels. -/
inductive Branches : List String → Type → Type 1 where
  | nil {α : Type} : Branches [] α
  | cons {α : Type} {labels : List String} (label : String) (tree : Tree α)
      (rest : Branches labels α) : Branches (label :: labels) α

end

mutual

/-- The collection of a tree. -/
def Tree.collection (σ : Type) : {α : Type} → Tree α → Collection σ α
  | _, .leaf shelf => shelf.collection σ
  | _, .filter inner keep options _ => .filter (inner.collection σ) keep options
  | _, .transform inner f => .transform (inner.collection σ) f
  | _, .concat branches _ => .concat (branches.sources σ)
  | _, .merge branches direction _ => .merge (branches.sources σ) direction

/-- The collections of trees in a row. -/
def Branches.sources (σ : Type) : {labels : List String} → {α : Type} → Branches labels α →
    Sources σ α
  | _, _, .nil => .nil
  | _, _, .cons label tree rest => .cons label (tree.collection σ) (rest.sources σ)

end

mutual

/-- What is read of a tree from every place on. The sources of a merge may take turns in any way. -/
def Tree.course : {α : Type} → Tree α → Course α
  | _, .leaf shelf => shelf.course
  | _, .filter inner keep _ _ => inner.course.filter keep
  | _, .transform inner f => inner.course.transform f
  | _, .concat branches _ => .concat branches.courses
  | _, .merge branches _ _ => .merge (fun _ => True) branches.courses

/-- What is read of every tree in a row. -/
def Branches.courses : {labels : List String} → {α : Type} → Branches labels α →
    List (String × Course α)
  | _, _, .nil => []
  | _, _, .cons label tree rest => (label, tree.course) :: rest.courses

end

mutual

/-- How deep the bookmarks of a tree nest. -/
def Tree.levels : {α : Type} → Tree α → Nat
  | _, .leaf shelf => shelf.levels
  | _, .filter inner _ _ _ => inner.levels
  | _, .transform inner _ => inner.levels
  | _, .concat branches _ => branches.levels + 2
  | _, .merge branches _ _ => branches.levels + 3

/-- How deep the bookmarks of the deepest tree in a row nest. -/
def Branches.levels : {labels : List String} → {α : Type} → Branches labels α → Nat
  | _, _, .nil => 0
  | _, _, .cons _ tree rest => max tree.levels rest.levels

end

namespace Branches

@[simp] theorem labels_sources : ∀ {labels : List String} (branches : Branches labels α),
    (branches.sources σ).labels = labels
  | _, .nil => rfl
  | _, .cons label _ rest => by rw [sources, Sources.labels, labels_sources rest]

@[simp] theorem labels_courses : ∀ {labels : List String} (branches : Branches labels α),
    branches.courses.map (·.1) = labels
  | _, .nil => rfl
  | _, .cons label _ rest => by rw [courses, List.map_cons, labels_courses rest]

/-- The trees in a row with their labels. -/
def trees : {labels : List String} → {α : Type} → Branches labels α → List (String × Tree α)
  | _, _, .nil => []
  | _, _, .cons label tree rest => (label, tree) :: rest.trees

@[simp] theorem labels_trees : ∀ {labels : List String} (branches : Branches labels α),
    branches.trees.map (·.1) = labels
  | _, .nil => rfl
  | _, .cons label _ rest => by rw [trees, List.map_cons, labels_trees rest]

/-- The collections of trees in a row with their labels. -/
def collections (σ : Type) {labels : List String} (branches : Branches labels α) :
    List (String × Collection σ α) :=
  branches.trees.map fun lane => (lane.1, lane.2.collection σ)

@[simp] theorem labels_collections {labels : List String} (branches : Branches labels α) :
    (branches.collections σ).map (·.1) = labels := by
  rw [collections, List.map_map]
  exact branches.labels_trees

theorem ofList_collections : ∀ {labels : List String} (branches : Branches labels α),
    Sources.ofList (branches.collections σ) = branches.sources σ
  | _, .nil => rfl
  | _, .cons label tree rest => congrArg (Sources.cons label (tree.collection σ))
      (ofList_collections rest)

end Branches

/-! ## Trees are what is built -/

namespace Collection

/-- Collections are put one after another when their labels pass the check. -/
theorem concat?_eq_ok_iff {sources : List (String × Collection σ α)} {c : Collection σ α} :
    concat? sources = .ok c ↔
      checkLabels .concat (sources.map (·.1)) = .ok () ∧ c = .concat (.ofList sources) := by
  rw [concat?]
  cases checkLabels .concat (sources.map (·.1)) <;> simp [Except.map, eq_comm]

/-- Collections are merged when their labels pass the check. -/
theorem merge?_eq_ok_iff {sources : List (String × Collection σ α)} {direction : Direction}
    {c : Collection σ α} : merge? sources direction = .ok c ↔
      checkLabels .merge (sources.map (·.1)) = .ok () ∧ c = .merge (.ofList sources) direction := by
  rw [merge?]
  cases checkLabels .merge (sources.map (·.1)) <;> simp [Except.map, eq_comm]

/-- What is built from lists of items whose keys differ, by filters that may ask at least once, by
transformations, and by concatenations and merges that do not refuse their labels. -/
inductive Built {σ : Type} : {α : Type} → Collection σ α → Prop where
  | items {α : Type} {c : Collection σ α} (shelf : Shelf α)
      (h : ofItems? shelf.bookmarker shelf.items = .ok c) : Built c
  | filter {α : Type} {inner : Collection σ α} (h : Built inner) (keep : α → Bool)
      (options : FilterOptions) (rounds_pos : 0 < options.maxRounds) :
      Built (.filter inner keep options)
  | transform {α β : Type} {inner : Collection σ α} (h : Built inner) (f : α → β) :
      Built (.transform inner f)
  | concat {α : Type} {c : Collection σ α} (sources : List (String × Collection σ α))
      (hsources : ∀ source ∈ sources, Built source.2) (h : concat? sources = .ok c) : Built c
  | merge {α : Type} {c : Collection σ α} (sources : List (String × Collection σ α))
      (direction : Direction) (hsources : ∀ source ∈ sources, Built source.2)
      (h : merge? sources direction = .ok c) : Built c

end Collection

mutual

/-- The collection of a tree is built. -/
theorem Tree.built (σ : Type) : ∀ {α : Type} (t : Tree α), (t.collection σ).Built
  | _, .leaf shelf => .items shelf shelf.ofItems?_eq
  | _, .filter inner keep options rounds_pos => (inner.built σ).filter keep options rounds_pos
  | _, .transform inner f => (inner.built σ).transform f
  | _, .concat branches labelled => by
    refine .concat (branches.collections σ) (branches.built σ) ?_
    rw [Collection.concat?_eq_ok_iff, branches.labels_collections, branches.ofList_collections]
    exact ⟨labelled, rfl⟩
  | _, .merge branches direction labelled => by
    refine .merge (branches.collections σ) direction (branches.built σ) ?_
    rw [Collection.merge?_eq_ok_iff, branches.labels_collections, branches.ofList_collections]
    exact ⟨labelled, rfl⟩

theorem Branches.built (σ : Type) : ∀ {labels : List String} {α : Type}
    (branches : Branches labels α), ∀ source ∈ branches.collections σ, source.2.Built
  | _, _, .nil => List.forall_mem_nil _
  | _, _, .cons _ tree rest => List.forall_mem_cons.mpr ⟨tree.built σ, rest.built σ⟩

end

/-- Collections of trees in a row are the collections of a row of trees. -/
theorem Branches.exists_sources_eq : ∀ {sources : List (String × Collection σ α)},
    (∀ source ∈ sources, ∃ t : Tree α, t.collection σ = source.2) →
      ∃ branches : Branches (sources.map (·.1)) α, branches.sources σ = .ofList sources
  | [], _ => ⟨.nil, rfl⟩
  | (label, _) :: _, h => by
    obtain ⟨⟨tree, rfl⟩, hrest⟩ := List.forall_mem_cons.mp h
    obtain ⟨rest, hsources⟩ := exists_sources_eq hrest
    exact ⟨.cons label tree rest, congrArg (Sources.cons label (tree.collection σ)) hsources⟩

/-- **Trees are what is built**: every tree stands for a collection that is built, and every
collection that is built is the collection of a tree. -/
theorem Collection.built_iff {c : Collection σ α} : c.Built ↔ ∃ t : Tree α, t.collection σ = c := by
  constructor
  · intro h
    induction h with
    | items shelf h => exact ⟨.leaf shelf, Except.ok.inj (shelf.ofItems?_eq.symm.trans h)⟩
    | filter _ keep options rounds_pos ih =>
      obtain ⟨t, rfl⟩ := ih
      exact ⟨.filter t keep options rounds_pos, rfl⟩
    | transform _ f ih =>
      obtain ⟨t, rfl⟩ := ih
      exact ⟨.transform t f, rfl⟩
    | concat sources _ h ih =>
      obtain ⟨labelled, rfl⟩ := concat?_eq_ok_iff.mp h
      obtain ⟨branches, hsources⟩ := Branches.exists_sources_eq ih
      exact ⟨.concat branches labelled, congrArg Collection.concat hsources⟩
    | merge sources direction _ h ih =>
      obtain ⟨labelled, rfl⟩ := merge?_eq_ok_iff.mp h
      obtain ⟨branches, hsources⟩ := Branches.exists_sources_eq ih
      exact ⟨.merge branches direction labelled,
        congrArg (Collection.merge · direction) hsources⟩
  · rintro ⟨t, rfl⟩
    exact t.built σ

/-! ## Trees follow their courses -/

mutual

/-- **A tree follows its course.** -/
theorem Tree.follows (σ : Type) : ∀ {α : Type} (t : Tree α),
    (t.collection σ).supply.Follows t.course
  | _, .leaf shelf => by
    rw [Tree.collection, Tree.course]
    exact shelf.follows
  | _, .filter inner keep options rounds_pos => by
    rw [Tree.collection, Tree.course, Collection.supply_filter]
    exact Filter.follows options keep rounds_pos (inner.follows σ)
  | _, .transform inner f => by
    rw [Tree.collection, Tree.course, Collection.supply_transform]
    exact Transform.follows f (inner.follows σ)
  | _, .concat branches labelled => by
    rw [Tree.collection, Tree.course]
    refine Concat.follows (branches.follow σ) ?_
    rw [branches.labels_courses]
    exact nodup_of_checkLabels labelled
  | _, .merge branches direction labelled => by
    rw [Tree.collection, Tree.course]
    refine Merge.follows direction (branches.follow σ) ?_ trivial fun lanes hlanes =>
      ⟨hlanes, fun _ _ _ _ _ => trivial⟩
    rw [branches.labels_courses]
    exact nodup_of_checkLabels labelled

theorem Branches.follow (σ : Type) : ∀ {labels : List String} {α : Type}
    (branches : Branches labels α), (branches.sources σ).Follow branches.courses
  | _, _, .nil => .nil
  | _, _, .cons _ tree rest => .cons (tree.follows σ) (rest.follow σ)

end

/-! ## Trees keep their places -/

/-- A list of items keeps every property that its bookmarks have. -/
theorem Shelf.keeps {P : Bookmark → Prop} (shelf : Shelf α) (h : ∀ e ∈ shelf.marked, P e.2) :
    (shelf.collection σ).supply.Keeps P :=
  shelf.ordered.keeps fun e he => h e (shelf.entries_perm.mem_iff.mp he)

theorem Shelf.levels_le {shelf : Shelf α} {n : Nat} :
    shelf.levels ≤ n ↔ ∀ e ∈ shelf.marked, e.2.levels ≤ n := by
  rw [levels]
  induction shelf.marked with
  | nil => simp
  | cons e rest ih => simp [ih]

mutual

/-- The labels of every joint in a tree pass the check. -/
theorem Tree.labelled (σ : Type) : ∀ {α : Type} (t : Tree α), (t.collection σ).Labelled
  | _, .leaf _ => trivial
  | _, .filter inner _ _ _ => inner.labelled σ
  | _, .transform inner _ => inner.labelled σ
  | _, .concat branches labelled => by
    rw [Tree.collection, Collection.Labelled, branches.labels_sources]
    exact ⟨labelled, branches.labelled σ⟩
  | _, .merge branches _ labelled => by
    rw [Tree.collection, Collection.Labelled, branches.labels_sources]
    exact ⟨labelled, branches.labelled σ⟩

theorem Branches.labelled (σ : Type) : ∀ {labels : List String} {α : Type}
    (branches : Branches labels α), (branches.sources σ).Labelled
  | _, _, .nil => trivial
  | _, _, .cons _ tree rest => ⟨tree.labelled σ, rest.labelled σ⟩

end

/-- A list of items keeps the places that its bookmarker accepts. -/
theorem Shelf.keepsAccepted (shelf : Shelf α) :
    Source.KeepsAccepted shelf.bookmarker (shelf.list.source : Source σ α) := by
  have hkeeps := shelf.keeps (σ := σ) (P := fun b => shelf.bookmarker.accepts b) shelf.accepted
  rwa [Shelf.collection, Collection.supply_leaf] at hkeeps

mutual

/-- The leaves of a tree are lists of items, so what all of these have in common its leaves have. -/
theorem Tree.everyLeaf {σ : Type} {T : ∀ {α : Type}, Bookmarker α → Source σ α → Prop}
    (h : ∀ {α : Type} (shelf : Shelf α), T shelf.bookmarker shelf.list.source) :
    ∀ {α : Type} (t : Tree α), (t.collection σ).EveryLeaf T
  | _, .leaf shelf => h shelf
  | _, .filter inner _ _ _ => inner.everyLeaf h
  | _, .transform inner _ => inner.everyLeaf h
  | _, .concat branches _ => branches.everyLeaf h
  | _, .merge branches _ _ => branches.everyLeaf h

theorem Branches.everyLeaf {σ : Type} {T : ∀ {α : Type}, Bookmarker α → Source σ α → Prop}
    (h : ∀ {α : Type} (shelf : Shelf α), T shelf.bookmarker shelf.list.source) :
    ∀ {labels : List String} {α : Type} (branches : Branches labels α),
      (branches.sources σ).EveryLeaf T
  | _, _, .nil => trivial
  | _, _, .cons _ tree rest => ⟨tree.everyLeaf h, rest.everyLeaf h⟩

end

mutual

/-- **A tree keeps bookmarks that nest no deeper than its own.** -/
theorem Tree.keeps_levels (σ : Type) : ∀ {α : Type} (t : Tree α) {n : Nat}, t.levels ≤ n →
    (t.collection σ).supply.Keeps fun b => b.levels ≤ n
  | _, .leaf shelf, n, h => by
    rw [Tree.collection]
    exact shelf.keeps (Shelf.levels_le.mp h)
  | _, .filter inner keep options _, n, h => by
    rw [Tree.collection, Collection.supply_filter]
    exact Filter.keeps options keep (inner.keeps_levels σ h)
  | _, .transform inner f, n, h => by
    rw [Tree.collection, Collection.supply_transform]
    exact Transform.keeps f (inner.keeps_levels σ h)
  | _, .concat branches _, n, h => by
    rw [Tree.levels] at h
    obtain ⟨n, rfl⟩ : ∃ m, n = m + 2 := ⟨n - 2, by omega⟩
    rw [Tree.collection]
    refine Concat.keeps (branches.keep_levels σ (n := n) (by omega)) ?_ ?_
    · exact fun label position hposition => Bookmark.levels_concat_le.mpr hposition
    · rintro label b hb _ - c ⟨⟩
      exact Bookmark.levels_concat_le.mp hb b rfl
  | _, .merge branches direction _, n, h => by
    rw [Tree.levels] at h
    obtain ⟨n, rfl⟩ : ∃ m, n = m + 3 := ⟨n - 3, by omega⟩
    rw [Tree.collection]
    refine Merge.keeps direction (branches.keep_levels σ (n := n) (by omega)) ?_ ?_
    · exact fun ps hps => Bookmark.levels_merge_le.mpr hps
    · rintro ps hps p hp b hb c ⟨⟩
      exact Bookmark.levels_merge_le.mp hps p hp b hb

theorem Branches.keep_levels (σ : Type) : ∀ {labels : List String} {α : Type}
    (branches : Branches labels α) {n : Nat}, branches.levels ≤ n →
      (branches.sources σ).Keep fun _ position => ∀ b ∈ position, b.levels ≤ n
  | _, _, .nil, _, _ => trivial
  | _, _, .cons _ tree rest, n, h => by
    rw [Branches.levels, Nat.max_le] at h
    refine ⟨⟨by simp, ?_⟩, rest.keep_levels σ h.2⟩
    simpa using tree.keeps_levels σ h.1

end

/-- **A tree keeps its places**: it answers at places that it accepts with such places, and they
nest no deeper than is allowed. -/
theorem Tree.keeps (σ : Type) (t : Tree α) {n : Nat} (h : t.levels ≤ n) :
    (t.collection σ).supply.Keeps fun b => (t.collection σ).accepts b ∧ b.levels ≤ n :=
  ((t.collection σ).keeps_accepts (t.labelled σ) (t.everyLeaf Shelf.keepsAccepted)).and
    (t.keeps_levels σ h)

end KeysetPaging
