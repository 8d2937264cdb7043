import KeysetPaging.Proofs.InOrder
import KeysetPaging.Proofs.Tree
import Mathlib.Data.List.Perm.Basic

/-! # What is read is always the same items

A merge may read its sources in many ways, and which one it takes can hang on the sizes of its
pages. But from one place on it always reads the same items, in some order. So where one way of
reading a place is known, every other way is a rearrangement of it.
-/

namespace KeysetPaging

variable {α β : Type}

/-- Turns in which every source has given some items, in any order, give all these items. -/
theorem Turns.perm_items {turns : Turns α} {itemss : List (List α)}
    (hlt : ∀ turn ∈ turns, turn.1 < itemss.length)
    (hshares : ∀ (i : Nat) (items : List α), itemss[i]? = some items →
      ((turns.share i).map (·.1)).Perm items) :
    (turns.map (·.2.1)).Perm itemss.flatten := by
  let shares := (List.range itemss.length).map fun i => turns.share i
  have hlisted : turns.Perm (listed 0 shares) := by
    refine perm_listed (by simpa [shares] using hlt) fun i es hes => ?_
    simp only [shares, List.getElem?_map, Option.map_eq_some_iff] at hes
    obtain ⟨k, hk, rfl⟩ := hes
    obtain ⟨-, rfl⟩ := List.getElem?_eq_some_iff.mp hk
    simp
  have heach : List.Forall₂ List.Perm (shares.map (·.map (·.1))) itemss := by
    refine List.forall₂_iff_get.mpr ⟨by simp [shares], fun i hi hi' => ?_⟩
    simpa [shares] using hshares i itemss[i] (List.getElem?_eq_getElem hi')
  have hitems : turns.map (·.2.1) = (turns.map (·.2)).map (·.1) := by
    rw [List.map_map]
    rfl
  rw [hitems]
  refine ((hlisted.map _).map _).trans ?_
  rw [listed_items, List.map_flatten]
  exact List.Perm.flatten_congr heach

namespace Remainder

/-- Whatever is read of a remainder, it is these items in some order. -/
def Gathers (r : Remainder α) (items : List α) : Prop :=
  ∀ zs, r.Reads zs → (zs.map (·.1)).Perm items

namespace Gathers

variable {r s : Remainder α} {items others : List α}

theorem exactly (es : List (α × Bookmark)) : (exactly es).Gathers (es.map (·.1)) := by
  rintro _ rfl
  exact .refl _

theorem filter (h : r.Gathers items) (keep : α → Bool) :
    (r.filter keep).Gathers (items.filter keep) := by
  rintro _ ⟨es, hes, rfl⟩
  have hfilter := (h es hes).filter keep
  rwa [List.filter_map] at hfilter

theorem map {g : α × Bookmark → β × Bookmark} {f : α → β} (h : r.Gathers items)
    (hg : ∀ e, (g e).1 = f e.1) : (r.map g).Gathers (items.map f) := by
  rintro _ ⟨es, hes, rfl⟩
  have hmap := (h es hes).map f
  rw [List.map_map] at hmap ⊢
  rwa [show (fun e : β × Bookmark => e.1) ∘ g = f ∘ (fun e : α × Bookmark => e.1) from
    funext hg]

/-- Other bookmarks make no other items. -/
theorem mark (h : r.Gathers items) (mark : Bookmark → Bookmark) :
    (r.map fun e => (e.1, mark e.2)).Gathers items := by
  simpa using h.map (g := fun e => (e.1, mark e.2)) (f := id) fun _ => rfl

theorem append (h : r.Gathers items) (h' : s.Gathers others) :
    (r.append s).Gathers (items ++ others) := by
  rintro _ ⟨es, fs, hes, hfs, rfl⟩
  rw [List.map_append]
  exact (h es hes).append (h' fs hfs)

/-- Collections that are read in turns give what every one of them gives. -/
theorem weave (T : Turns α → Prop) {rs : List (Remainder α)} {itemss : List (List α)}
    (h : List.Forall₂ Gathers rs itemss) : (weave T rs).Gathers itemss.flatten := by
  rintro zs ⟨turns, hzs, hlt, hreads, -⟩
  have hlength := h.length_eq
  rw [hzs]
  refine Turns.perm_items (by rwa [hlength] at hlt) fun i items hitems => ?_
  obtain ⟨hi, rfl⟩ := List.getElem?_eq_some_iff.mp hitems
  have hr := List.getElem?_eq_getElem (l := rs) (i := i) (by omega)
  exact (List.forall₂_iff_get.mp h).2 i (by omega) hi _ (hreads i _ hr)

end Gathers

end Remainder

namespace Course

/-- From every place on, the same items are read in every case. -/
def Settled (course : Course α) : Prop :=
  ∀ place, ∃ items, (course place).Gathers items

variable {courses : List (String × Course α)}

theorem Settled.filter {course : Course α} (h : course.Settled) (keep : α → Bool) :
    (course.filter keep).Settled := by
  intro place
  obtain ⟨items, hitems⟩ := h place
  exact ⟨_, hitems.filter keep⟩

theorem Settled.transform {course : Course α} (h : course.Settled) (f : α → β) :
    (course.transform f).Settled := by
  intro place
  obtain ⟨items, hitems⟩ := h place
  exact ⟨_, hitems.map fun _ => rfl⟩

theorem settled_row (h : ∀ course ∈ courses, course.2.Settled) (from? : Option String)
    (position : Option Bookmark) : ∃ items, (row courses from? position).Gathers items := by
  induction courses generalizing from? position with
  | nil => exact ⟨_, .exactly []⟩
  | cons first courses ih =>
    obtain ⟨hfirst, hcourses⟩ := List.forall_mem_cons.mp h
    rw [row]
    split
    · exact ih hcourses from? position
    · obtain ⟨items, hitems⟩ := hfirst position
      obtain ⟨others, hothers⟩ := ih hcourses none none
      exact ⟨_, (hitems.mark _).append hothers⟩

theorem settled_concat (h : ∀ course ∈ courses, course.2.Settled) : (concat courses).Settled := by
  intro place
  unfold concat
  split
  · exact settled_row h _ _
  · exact settled_row h _ _

theorem settled_merge (T : Turns α → Prop) (h : ∀ course ∈ courses, course.2.Settled) :
    (merge T courses).Settled := by
  intro place
  have heach : ∃ itemss, List.Forall₂ Remainder.Gathers
      (courses.map fun course => course.2 ((known place).lookup course.1).join) itemss := by
    induction courses with
    | nil => exact ⟨[], .nil⟩
    | cons first courses ih =>
      obtain ⟨hfirst, hcourses⟩ := List.forall_mem_cons.mp h
      obtain ⟨items, hitems⟩ := hfirst ((known place).lookup first.1).join
      obtain ⟨itemss, hitemss⟩ := ih hcourses
      exact ⟨items :: itemss, .cons hitems hitemss⟩
  obtain ⟨itemss, hitemss⟩ := heach
  exact ⟨_, .weave T hitemss⟩

/-- Collections in a row are read from their starts. -/
theorem gathers_row {itemss : List (List α)}
    (h : List.Forall₂ (fun course items => (course.2 none).Gathers items) courses itemss) :
    (row courses none none).Gathers itemss.flatten := by
  induction h with
  | nil => exact .exactly []
  | @cons first items courses itemss hfirst _ ih =>
    obtain ⟨label, course⟩ := first
    rw [row_here (by simp), List.flatten_cons]
    exact (hfirst.mark _).append ih

/-- The sources of a merge are read from their starts. -/
theorem gathers_merge (T : Turns α → Prop) {itemss : List (List α)}
    (h : List.Forall₂ (fun course items => (course.2 none).Gathers items) courses itemss) :
    (merge T courses none).Gathers itemss.flatten :=
  .weave T (List.forall₂_map_left_iff.mpr h)

end Course

/-! ## The items of trees -/

mutual

/-- The items of a tree, list after list, each filtered and transformed as it comes. -/
def Tree.items : {α : Type} → Tree α → List α
  | _, .leaf shelf => shelf.items
  | _, .filter inner keep _ _ => inner.items.filter keep
  | _, .transform inner f => inner.items.map f
  | _, .concat branches _ => branches.items.flatten
  | _, .merge branches _ _ => branches.items.flatten

/-- The items of trees in a row, tree by tree. -/
def Branches.items : {labels : List String} → {α : Type} → Branches labels α → List (List α)
  | _, _, .nil => []
  | _, _, .cons _ tree rest => tree.items :: rest.items

end

mutual

/-- **From every place in a tree the same items are read in every case.** -/
theorem Tree.settled : ∀ {α : Type} (t : Tree α), t.course.Settled
  | _, .leaf shelf => by
    intro place
    rw [Tree.course, shelf.course_eq]
    exact ⟨_, .exactly _⟩
  | _, .filter inner keep _ _ => by
    rw [Tree.course]
    exact inner.settled.filter keep
  | _, .transform inner f => by
    rw [Tree.course]
    exact inner.settled.transform f
  | _, .concat branches _ => by
    rw [Tree.course]
    exact Course.settled_concat branches.settled
  | _, .merge branches _ _ => by
    rw [Tree.course]
    exact Course.settled_merge _ branches.settled

theorem Branches.settled : ∀ {labels : List String} {α : Type} (branches : Branches labels α),
    ∀ course ∈ branches.courses, course.2.Settled
  | _, _, .nil => by simp [Branches.courses]
  | _, _, .cons _ tree rest => by
    rw [Branches.courses]
    exact List.forall_mem_cons.mpr ⟨tree.settled, rest.settled⟩

end

mutual

/-- **What is read of a tree from its start are its items.** -/
theorem Tree.gathers : ∀ {α : Type} (t : Tree α), (t.course none).Gathers t.items
  | _, .leaf shelf => by
    rw [Tree.course, Tree.items, ← shelf.items_marked]
    intro zs hzs
    obtain rfl : zs = shelf.list.entries := hzs
    exact shelf.entries_perm.map _
  | _, .filter inner keep _ _ => by
    rw [Tree.course, Tree.items]
    exact inner.gathers.filter keep
  | _, .transform inner f => by
    rw [Tree.course, Tree.items]
    exact inner.gathers.map fun _ => rfl
  | _, .concat branches _ => by
    rw [Tree.course, Tree.items]
    exact Course.gathers_row branches.gathers
  | _, .merge branches _ _ => by
    rw [Tree.course, Tree.items]
    exact Course.gathers_merge _ branches.gathers

theorem Branches.gathers : ∀ {labels : List String} {α : Type} (branches : Branches labels α),
    List.Forall₂ (fun course items => (course.2 none).Gathers items) branches.courses branches.items
  | _, _, .nil => .nil
  | _, _, .cons _ tree rest => .cons tree.gathers rest.gathers

end

end KeysetPaging
