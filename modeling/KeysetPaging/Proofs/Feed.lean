import KeysetPaging.Proofs.InOrder
import KeysetPaging.Proofs.Walk

/-! # Merged feeds

A feed merges lists of items, each filtered and transformed in any way, whose bookmarkers go along
with the merge. Its course promises that the turns are in order, and only the turns of a stable sort
are. So a walk through a feed reads the stable sort of what the lists let through, whatever the
sizes of its pages.
-/

namespace KeysetPaging

variable {σ α : Type} {direction : Direction}

/-- A list of items along a direction, filtered and transformed in any way. -/
inductive Strand (direction : Direction) : Type → Type 1 where
  | leaf {α : Type} (shelf : Shelf α) (along : shelf.Along direction) : Strand direction α
  | filter {α : Type} (inner : Strand direction α) (keep : α → Bool) (options : FilterOptions)
      (rounds_pos : 0 < options.maxRounds) : Strand direction α
  | transform {α β : Type} (inner : Strand direction α) (f : α → β) : Strand direction β

namespace Strand

/-- A strand as a tree. -/
def tree : {α : Type} → Strand direction α → Tree α
  | _, .leaf shelf _ => .leaf shelf
  | _, .filter inner keep options rounds_pos => .filter inner.tree keep options rounds_pos
  | _, .transform inner f => .transform inner.tree f

/-- What a strand lets through, in the order in which its items are given. -/
def survivors : {α : Type} → Strand direction α → List (α × Bookmark)
  | _, .leaf shelf _ => shelf.marked
  | _, .filter inner keep _ _ => inner.survivors.filter fun e => keep e.1
  | _, .transform inner f => inner.survivors.map fun e => (f e.1, e.2)

/-- The number of items of a strand, let through or not. -/
def size : {α : Type} → Strand direction α → Nat
  | _, .leaf shelf _ => shelf.marked.length
  | _, .filter inner _ _ _ => inner.size
  | _, .transform inner _ => inner.size

/-- **A strand is read in order.** -/
theorem inOrder : ∀ {α : Type} (strand : Strand direction α),
    strand.tree.course.InOrder direction
  | _, .leaf _ along => along.inOrder
  | _, .filter inner keep _ _ => inner.inOrder.filter keep
  | _, .transform inner f => inner.inOrder.transform f

/-- What is read of a strand from its start is what it lets through. -/
theorem perm_survivors : ∀ {α : Type} (strand : Strand direction α) {zs : List (α × Bookmark)},
    (strand.tree.course none).Reads zs → zs.Perm strand.survivors
  | _, .leaf shelf _, zs, h => by
    obtain rfl : zs = shelf.list.entries := h
    exact shelf.entries_perm
  | _, .filter inner keep _ _, zs, h => by
    obtain ⟨es, hes, rfl⟩ := h
    exact (inner.perm_survivors hes).filter _
  | _, .transform inner f, zs, h => by
    obtain ⟨es, hes, rfl⟩ := h
    exact (inner.perm_survivors hes).map _

/-- From its start, all items of a strand are left. -/
theorem left_eq : ∀ {α : Type} (strand : Strand direction α),
    (strand.tree.course none).left = strand.size
  | _, .leaf shelf _ => shelf.entries_perm.length_eq
  | _, .filter inner _ _ _ => inner.left_eq
  | _, .transform inner _ => inner.left_eq

end Strand

/-- Strands under their labels as the branches of a tree. -/
def Branches.ofStrands : (strands : List (String × Strand direction α)) →
    Branches (strands.map (·.1)) α
  | [] => .nil
  | (label, strand) :: rest => .cons label strand.tree (ofStrands rest)

/-- The courses of strands are those of their trees. -/
theorem Branches.courses_ofStrands : ∀ strands : List (String × Strand direction α),
    (ofStrands strands).courses = strands.map fun strand => (strand.1, strand.2.tree.course)
  | [] => rfl
  | (label, strand) :: rest => by rw [ofStrands, courses, courses_ofStrands rest, List.map_cons]

/-- A feed: strands along one direction, under labels that differ. -/
structure Feed (direction : Direction) (α : Type) where
  strands : List (String × Strand direction α)
  labelled : checkLabels .merge (strands.map (·.1)) = .ok ()

namespace Feed

/-- The merge of the strands of a feed. -/
def tree (feed : Feed direction α) : Tree α :=
  .merge (.ofStrands feed.strands) direction feed.labelled

/-- What the strands of a feed let through, strand after strand. -/
def survivors (feed : Feed direction α) : List (α × Bookmark) :=
  feed.strands.flatMap (·.2.survivors)

/-- The number of items of all strands, let through or not. -/
def size (feed : Feed direction α) : Nat :=
  (feed.strands.map (·.2.size)).sum

/-- What is read of a feed: its strands in turns, and the turns are in order. -/
def course (feed : Feed direction α) : Course α :=
  .merge (Turns.InOrder direction) (feed.strands.map fun strand => (strand.1, strand.2.tree.course))

/-- **A feed follows the course in which turns are in order.** -/
theorem follows (σ : Type) (feed : Feed direction α) :
    (feed.tree.collection σ).supply.Follows feed.course := by
  rw [tree, Tree.collection, course, ← Branches.courses_ofStrands]
  refine Merge.follows direction ((Branches.ofStrands feed.strands).follow σ) ?_ .nil ?_
  · rw [Branches.labels_courses]
    exact nodup_of_checkLabels feed.labelled
  · refine fun lanes hlanes => hlanes.ready ?_
    rw [Branches.courses_ofStrands, List.forall_mem_map]
    exact fun strand _ => strand.2.inOrder

/-- From its start, all items of a feed are left. -/
theorem left_eq (feed : Feed direction α) : (feed.course none).left = feed.size := by
  simp [course, Course.merge, Course.known, Remainder.weave, size, Function.comp_def,
    Strand.left_eq]

/-- **What is read of a feed from its start is the stable sort of what its strands let through.** -/
theorem items_eq_mergeSort (feed : Feed direction α) {zs : List (α × Bookmark)}
    (h : (feed.course none).Reads zs) :
    zs.map (·.1) = (feed.survivors.mergeSort direction.le).map (·.1) := by
  obtain ⟨turns, hzs, hlt, hreads, hinOrder⟩ := h
  have hitems : turns.map (·.2) = (feed.strands.map (·.2.survivors)).flatten.mergeSort
      direction.le := by
    refine hinOrder.items_eq (by simpa using hlt) fun i es hes => ?_
    rw [List.getElem?_map] at hes
    obtain ⟨strand, hstrand, rfl⟩ := Option.map_eq_some_iff.mp hes
    have hread := hreads i (strand.2.tree.course none) (by simp [hstrand, Course.known])
    obtain ⟨es, hes, hread'⟩ := strand.2.inOrder none
    refine ⟨strand.2.perm_survivors hread, ?_⟩
    rwa [(hread' _).mp hread]
  rw [hzs, survivors, List.flatMap_def, ← hitems, List.map_map]
  rfl

/-- **A walk through a feed reads the stable sort of what its strands let through.** Whatever the
sizes of its pages, their items together are those that pass the filters of the strands, in the
order of their bookmarks in the direction of the merge, and of items with equal bookmarks those of
the earlier strand come first. -/
theorem walk_reads_sorted (feed : Feed direction α) (hlevels : feed.tree.levels ≤ 127)
    {sizes : Nat → Nat} (hsizes : ∀ n, 0 < sizes n) {most : Nat} (hmost : feed.size < most) :
    Run.Ensures ((feed.tree.collection σ).walkBy sizes most none) fun walk =>
      walk.failure = none ∧ walk.finished = true ∧ walk.pages.length ≤ feed.size + 1 ∧
        walk.items = (feed.survivors.mergeSort direction.le).map (·.1) := by
  rw [← feed.left_eq] at hmost ⊢
  have hwalk : Run.Ensures ((feed.tree.collection σ).walkBy sizes most none)
      (Walk.ReadsAll (feed.course none)) :=
    Collection.walkBy_ensures (feed.follows σ) (feed.tree.keeps σ hlevels) (fun _ hb => hb) hsizes
      (by simp [Collection.startOf]) hmost
  refine hwalk.mono ?_
  rintro walk ⟨hunfailing, hfinished, hlength, zs, hzs, hitems⟩
  exact ⟨hunfailing, hfinished, hlength, by rw [hitems, feed.items_eq_mergeSort hzs]⟩

/-- Two letters, and two that are doubled. -/
def doubles : Feed .ascending String where
  strands :=
    [("single", .filter (.leaf (.letters "d" "b" (by decide)) fun _ _ _ _ => rfl) (· != "a")
        { maxRounds := 2 } (by decide)),
      ("double", .transform (.leaf (.letters "c" "b" (by decide)) fun _ _ _ _ => rfl)
        fun s => s ++ s)]
  labelled := rfl

/-- A walk through the letters with pages of growing size. The single one of two letters that are
level comes first. -/
theorem doubles_walk :
    Run.Ensures ((doubles.tree.collection Unit).walkBy (· + 1) 5 none) fun walk =>
      walk.failure = none ∧ walk.finished = true ∧ walk.pages.length ≤ 5 ∧
        walk.items = ["b", "bb", "cc", "d"] := by
  have hsurvivors : doubles.survivors
      = [("d", .text "d"), ("b", .text "b"), ("cc", .text "c"), ("bb", .text "b")] := rfl
  have hsorted : (doubles.survivors.mergeSort (Direction.le .ascending)).map (·.1)
      = ["b", "bb", "cc", "d"] := by
    rw [hsurvivors]
    simp [List.mergeSort, Direction.le, Direction.order, Direction.apply, Bookmark.compare,
      compareText, compareChars, compareInt]
  rw [← hsorted]
  exact doubles.walk_reads_sorted (by decide) (fun n => Nat.succ_pos n) (by decide)

end Feed

end KeysetPaging
