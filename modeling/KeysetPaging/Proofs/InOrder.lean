import KeysetPaging.Proofs.Merging
import Mathlib.Data.List.Nodup

/-! # Sources in the order of a merge

When every source of a merge is read in the direction of the merge, the fronts of its lanes are the
smallest items that are left. No lane is starved when one of them is picked, so nothing smaller is
still to come, and the turns are in order. Turns in order are the stable sort of what the sources
give, listed source after source, since of equal bookmarks the one of the earlier source goes first.
-/

namespace KeysetPaging

open Std

variable {α β : Type} {direction : Direction}

/-- The bookmarks of the items are strictly in the order of the direction. -/
def Direction.Sorts (direction : Direction) (es : List (α × Bookmark)) : Prop :=
  es.Pairwise fun e f => direction.order e.2 f.2 = .lt

/-- Whether the bookmark of the first item does not come after the one of the second. -/
def Direction.le (direction : Direction) (e f : α × Bookmark) : Bool :=
  direction.order e.2 f.2 != .gt

theorem Direction.le_iff {e f : α × Bookmark} :
    direction.le e f ↔ direction.order e.2 f.2 = .lt ∨ direction.order e.2 f.2 = .eq := by
  rw [Direction.le]
  cases direction.order e.2 f.2 <;> simp

theorem Direction.le_trans (e f g : α × Bookmark) (hef : direction.le e f)
    (hfg : direction.le f g) : direction.le e g := by
  simp only [Direction.le, bne, ← Ordering.isLE_eq_not_beq_gt] at hef hfg ⊢
  exact TransCmp.isLE_trans hef hfg

theorem Direction.le_total (e f : α × Bookmark) : direction.le e f || direction.le f e := by
  have hswap : direction.order f.2 e.2 = (direction.order e.2 f.2).swap := OrientedCmp.eq_swap
  rw [Direction.le, Direction.le, hswap]
  cases direction.order e.2 f.2 <;> rfl

/-- Items in strict order have bookmarks that differ. -/
theorem Direction.Sorts.nodup {es : List (α × Bookmark)} (h : direction.Sorts es) :
    (es.map (·.2)).Nodup := by
  refine List.pairwise_map.mpr (h.imp fun {e f} hlt heq => ?_)
  have hself : direction.order f.2 f.2 = .eq := ReflCmp.compare_self
  rw [heq, hself] at hlt
  cases hlt

/-! ## Courses in order -/

/-- From every place on, one list of items is read, and it is in order. -/
def Course.InOrder (direction : Direction) (course : Course α) : Prop :=
  ∀ place, ∃ es, direction.Sorts es ∧ ∀ zs, (course place).Reads zs ↔ zs = es

/-- The items of a list that are left out leave the others in order. -/
theorem Course.InOrder.filter {course : Course α} (h : course.InOrder direction)
    (keep : α → Bool) : (course.filter keep).InOrder direction := by
  intro place
  obtain ⟨es, hes, hreads⟩ := h place
  refine ⟨es.filter fun e => keep e.1, List.Pairwise.filter _ hes, fun zs => ?_⟩
  simp only [Course.filter, Remainder.filter, hreads, exists_eq_left]

/-- The images of items are in the order of the items. -/
theorem Course.InOrder.transform {course : Course α} (h : course.InOrder direction) (f : α → β) :
    (course.transform f).InOrder direction := by
  intro place
  obtain ⟨es, hes, hreads⟩ := h place
  have hmap : direction.Sorts (es.map fun e => (f e.1, e.2)) := by
    rw [Direction.Sorts, List.pairwise_map]
    exact hes
  refine ⟨_, hmap, fun zs => ?_⟩
  simp only [Course.transform, Remainder.map, hreads, exists_eq_left]

/-- A shelf whose bookmarker compares its bookmarks naturally, in the direction of a merge. -/
def Shelf.Along (direction : Direction) (shelf : Shelf α) : Prop :=
  ∀ e ∈ shelf.marked, ∀ f ∈ shelf.marked,
    shelf.bookmarker.compare e.2 f.2 = direction.order e.2 f.2

/-- The items of a shelf along a direction stand in its order. -/
theorem Shelf.Along.sorts {shelf : Shelf α} (h : shelf.Along direction) :
    direction.Sorts shelf.list.entries := by
  refine shelf.entries_pairwise.imp_of_mem fun {e f} he hf hlt => ?_
  rw [← h e (shelf.entries_perm.mem_iff.mp he) f (shelf.entries_perm.mem_iff.mp hf)]
  exact hlt

theorem Shelf.Along.inOrder {shelf : Shelf α} (h : shelf.Along direction) :
    shelf.course.InOrder direction := by
  intro place
  refine ⟨shelf.list.after place, ?_, fun zs => by rw [shelf.course_eq, Remainder.exactly]⟩
  obtain ⟨before, hbefore⟩ := shelf.list.after_suffix place
  have hsorts := h.sorts
  rw [Direction.Sorts, hbefore] at hsorts
  exact (List.pairwise_append.mp hsorts).2.1

/-! ## Turns in order -/

/-- Each turn goes before all later ones: its bookmark comes first, or it is level with the other
and the source is no later. -/
def Turns.InOrder (direction : Direction) (turns : Turns α) : Prop :=
  turns.Pairwise fun s t => Merge.Precedes direction (s.1, s.2.2) (t.1, t.2.2)

/-- These items, in order, are read from a lane on: first what it holds, and nothing else when its
source has ended. -/
structure Lane.Heads (direction : Direction) (lane : Lane α) (es : List (α × Bookmark)) :
    Prop where
  held : ∃ rest, es = lane.buffer ++ rest ∧ (lane.hasMore = false → rest = [])
  sorts : direction.Sorts es

/-- A lane that gives its front heads what comes after it. -/
theorem Lane.Heads.advance {lane : Lane α} {e : α × Bookmark} {rest es : List (α × Bookmark)}
    (h : lane.Heads direction (e :: es)) (hbuffer : lane.buffer = e :: rest) :
    lane.advance.Heads direction es := by
  obtain ⟨⟨more, hes, hmore⟩, hsorts⟩ := h
  obtain ⟨label, place, buffer, hasMore, resumeAt⟩ := lane
  obtain rfl : buffer = e :: rest := hbuffer
  refine ⟨⟨more, ?_, hmore⟩, (List.pairwise_cons.mp hsorts).2⟩
  simpa [Lane.advance] using hes

/-- The front of a lane that is not starved goes before everything that is read from the lane on. -/
theorem Lane.Heads.front_precedes {lane : Lane α} {es : List (α × Bookmark)}
    (h : lane.Heads direction es) (hfed : lane.isStarved = false) (i : Nat) {f : α × Bookmark}
    (hf : f ∈ es) : ∃ g, lane.buffer.head? = some g ∧
      Merge.Precedes direction (i, g.2) (i, f.2) := by
  obtain ⟨⟨rest, rfl, hrest⟩, hsorts⟩ := h
  obtain ⟨label, place, buffer, hasMore, resumeAt⟩ := lane
  cases buffer with
  | nil =>
    -- The lane holds nothing and its source has ended, so nothing is read from it.
    obtain rfl : hasMore = false := by simpa [isStarved] using hfed
    obtain rfl := hrest rfl
    cases hf
  | cons g buffer =>
    refine ⟨g, rfl, ?_⟩
    rcases List.mem_cons.mp hf with rfl | hf
    · exact .refl _
    · exact Or.inl ((List.pairwise_cons.mp hsorts).1 f hf)

/-- **What is picked is related to all that comes later.** `H` says what is read from a lane on,
and is handed on by a lane that gives its front. If by `H` a picked item is related to everything
that is read from a lane whose front it precedes, then the turns are related one to all later
ones. -/
theorem Merge.turns_pairwise {R : Nat × α × Bookmark → Nat × α × Bookmark → Prop}
    {H : Nat → Lane α → List (α × Bookmark) → Prop}
    (hadvance : ∀ {i : Nat} {lane : Lane α} {e : α × Bookmark} {rest es : List (α × Bookmark)},
      H i lane (e :: es) → lane.buffer = e :: rest → H i lane.advance es)
    (hfront : ∀ {i k : Nat} {lane other : Lane α} {e f : α × Bookmark}
      {rest es fs : List (α × Bookmark)}, H i lane es → lane.buffer = e :: rest → H k other fs →
        f ∈ fs → other.isStarved = false → (i = k → lane = other) →
          (∀ g, other.buffer.head? = some g → Precedes direction (i, e.2) (k, g.2)) →
            R (i, e) (k, f))
    (room : Nat) {lanes : List (Lane α)} {later : Turns α}
    (hlater : ∀ turn ∈ later, turn.1 < lanes.length)
    (hlanes : ∀ (i : Nat) (lane : Lane α), lanes[i]? = some lane →
      H i lane ((turns direction room lanes ++ later).share i))
    (hpairwise : later.Pairwise R) : (turns direction room lanes ++ later).Pairwise R := by
  induction room generalizing lanes with
  | zero => exact hpairwise
  | succ room ih =>
    rcases interleave_step direction room lanes with
      ⟨-, -, hturns⟩ | ⟨i, lane, e, rest, hpick, hlane, hbuffer, -, hturns⟩
    · rw [hturns]
      exact hpairwise
    · rw [hturns, List.cons_append] at hlanes ⊢
      have hmoved : (turns direction room (lanes.modify i Lane.advance) ++ later).Pairwise R := by
        refine ih (by simpa using hlater) fun k other hother => ?_
        rw [List.getElem?_modify] at hother
        obtain ⟨old, hold, hadvanced⟩ := Option.map_eq_some_iff.mp hother
        have hshare := hlanes k old hold
        split_ifs at hadvanced with hik
        · obtain rfl := hik
          obtain rfl : lane = old := Option.some.inj (hlane.symm.trans hold)
          rw [Turns.share_cons_self] at hshare
          rw [← hadvanced]
          exact hadvance hshare hbuffer
        · rw [Turns.share_cons_ne hik] at hshare
          rw [← hadvanced]
          exact hshare
      refine List.pairwise_cons.mpr ⟨fun turn hturn => ?_, hmoved⟩
      -- A later turn is read from a lane that is not starved. What is picked precedes its front.
      obtain ⟨hfed, first, front, behind, hfirst, hfront', hleast⟩ := pick_some hpick
      obtain rfl : lane = first := Option.some.inj (hlane.symm.trans hfirst)
      obtain ⟨rfl, -⟩ := List.cons.inj (hbuffer.symm.trans hfront')
      have hlt : turn.1 < lanes.length := by
        rcases List.mem_append.mp hturn with hturn | hturn
        · simpa using turns_lt room (lanes.modify i Lane.advance) turn hturn
        · exact hlater turn hturn
      have hother := List.getElem?_eq_getElem hlt
      refine hfront (hlanes i lane hlane) hbuffer (hlanes turn.1 _ hother)
        (Turns.mem_share (List.mem_cons_of_mem _ hturn)) (hfed _ (List.getElem_mem hlt)) ?_
        fun g hg => hleast turn.1 _ g hother hg
      intro hi
      rw [hi] at hlane
      exact Option.some.inj (hlane.symm.trans hother)

/-- **Lanes whose sources are in order take turns in order.** What is picked goes before all fronts,
and these go before the rest of their lanes. -/
theorem Merge.turns_inOrder (room : Nat) {lanes : List (Lane α)} {later : Turns α}
    (hlater : ∀ turn ∈ later, turn.1 < lanes.length)
    (hheads : ∀ (i : Nat) (lane : Lane α), lanes[i]? = some lane →
      lane.Heads direction ((turns direction room lanes ++ later).share i))
    (hinOrder : later.InOrder direction) :
    (turns direction room lanes ++ later).InOrder direction := by
  refine turns_pairwise (H := fun _ lane es => lane.Heads direction es) Lane.Heads.advance ?_ room
    hlater hheads hinOrder
  intro i k lane other e f rest es fs _ _ hother hf hfed _ hleast
  obtain ⟨g, hg, hprecedes⟩ := hother.front_precedes hfed k hf
  exact (hleast g hg).trans hprecedes

/-- A lane that holds what a source in order answers heads what is read of the source. -/
theorem Lane.Answers.heads {course : Course α} {lane : Lane α} {zs : List (α × Bookmark)}
    (h : lane.Answers course) (hcourse : course.InOrder direction)
    (hzs : (course lane.place).Reads zs) : lane.Heads direction zs := by
  obtain ⟨es, hes, hreads⟩ := hcourse lane.place
  obtain rfl := (hreads zs).mp hzs
  obtain ⟨rest, hrest, hnone⟩ : ∃ rest, (course.ahead lane.resumeAt).Reads rest ∧
      (lane.resumeAt = none → rest = []) := by
    cases lane.resumeAt with
    | none => exact ⟨[], rfl, fun _ => rfl⟩
    | some b =>
      obtain ⟨rest, -, hrest⟩ := hcourse (some b)
      exact ⟨rest, (hrest rest).mpr rfl, by simp⟩
  refine ⟨⟨rest, ((hreads _).mp (h.covers.goes rest hrest)).symm, fun hends => hnone ?_⟩, hes⟩
  rw [h.goesOn] at hends
  simpa using hends

/-- **The lanes of a merge whose sources are in order keep the promise that the turns are in
order.** -/
theorem Merge.Asked.ready {courses : List (String × Course α)} {lanes : List (Lane α)}
    (h : Asked courses lanes) (hcourses : ∀ course ∈ courses, course.2.InOrder direction) :
    Ready direction (Turns.InOrder direction) courses lanes where
  asked := h
  fits room later hlater hreads hinOrder := by
    have hlength : courses.length = lanes.length := List.Forall₂.length_eq h
    refine turns_inOrder room (by rwa [hlength] at hlater) (fun i lane hlane => ?_) hinOrder
    obtain ⟨hi, -⟩ := List.getElem?_eq_some_iff.mp hlane
    have hcourse := List.getElem?_eq_getElem (l := courses) (i := i) (by omega)
    rw [Turns.share_append]
    exact (h.answers hcourse hlane).heads (hcourses _ (List.mem_of_getElem? hcourse))
      (hreads i _ lane hcourse hlane)

/-! ## Turns in order are a stable sort -/

namespace Turns

/-- Turns in which one source after another gives all its items, counted from `first` on. -/
def listed : (first : Nat) → List (List (α × Bookmark)) → Turns α
  | _, [] => []
  | first, es :: rest => es.map (first, ·) ++ listed (first + 1) rest

/-- What is listed is what the sources give, source after source. -/
theorem listed_items : ∀ (first : Nat) (ess : List (List (α × Bookmark))),
    (listed first ess).map (·.2) = ess.flatten
  | _, [] => rfl
  | first, es :: rest => by
    rw [listed, List.map_append, listed_items, List.map_map, List.flatten_cons]
    simp [Function.comp_def]

/-- No source stands before the one from which the sources are counted. -/
theorem le_of_mem_listed : ∀ {first : Nat} {ess : List (List (α × Bookmark))}
    {turn : Nat × α × Bookmark}, turn ∈ listed first ess → first ≤ turn.1
  | _, [], _, h => by cases h
  | first, es :: rest, turn, h => by
    rcases List.mem_append.mp h with h | h
    · obtain ⟨e, -, rfl⟩ := List.mem_map.mp h
      exact Nat.le_refl _
    · exact Nat.le_of_succ_le (le_of_mem_listed h)

/-- The sources are listed one after another. -/
theorem pairwise_listed : ∀ (first : Nat) (ess : List (List (α × Bookmark))),
    (listed first ess).Pairwise fun s t => s.1 ≤ t.1
  | _, [] => .nil
  | first, es :: rest => by
    refine List.pairwise_append.mpr ⟨?_, pairwise_listed (first + 1) rest, ?_⟩
    · exact List.pairwise_map.mpr (List.pairwise_of_forall fun _ _ => Nat.le_refl _)
    · intro s hs t ht
      obtain ⟨e, -, rfl⟩ := List.mem_map.mp hs
      exact Nat.le_of_succ_le (le_of_mem_listed ht)

/-- A source that takes no turn gives nothing. -/
theorem share_eq_nil {i : Nat} {turns : Turns α} (h : ∀ turn ∈ turns, turn.1 ≠ i) :
    share i turns = [] := by
  rw [share, List.map_eq_nil_iff, List.filter_eq_nil_iff]
  simpa using h

/-- The share of a source in what is listed is what the source gives. -/
theorem share_listed : ∀ (first i : Nat) (ess : List (List (α × Bookmark))),
    share (first + i) (listed first ess) = (ess[i]?).getD []
  | _, _, [] => rfl
  | first, 0, es :: rest => by
    have hes : share first (es.map (first, ·)) = es := by
      simp [share, List.filter_map, Function.comp_def]
    have hrest : share first (listed (first + 1) rest) = [] :=
      share_eq_nil fun turn hturn => Nat.ne_of_gt (le_of_mem_listed hturn)
    rw [listed, Nat.add_zero, share_append, hes, hrest, List.append_nil]
    rfl
  | first, i + 1, es :: rest => by
    have hes : share (first + (i + 1)) (es.map (first, ·)) = [] := by
      simp [share, List.filter_map, Function.comp_def]
    rw [listed, share_append, hes, List.nil_append, show first + (i + 1) = first + 1 + i by omega,
      share_listed (first + 1) i rest, List.getElem?_cons_succ]

open Classical in
/-- A turn is taken as often as its source has given its item. -/
theorem count_eq (turns : Turns α) (turn : Nat × α × Bookmark) :
    turns.count turn = (share turn.1 turns).count turn.2 := by
  induction turns with
  | nil => rfl
  | cons first turns ih =>
    obtain ⟨i, e⟩ := first
    by_cases hi : i = turn.1
    · subst hi
      rw [share_cons_self, List.count_cons, List.count_cons, ih]
      simp [Prod.ext_iff]
    · rw [share_cons_ne hi, List.count_cons, ih]
      simp [Prod.ext_iff, hi]

/-- Turns in which every source has given the same items, in any order, are the same turns in some
order. -/
theorem perm_of_share {turns later : Turns α}
    (h : ∀ i, (share i turns).Perm (share i later)) : turns.Perm later := by
  classical
  refine List.perm_iff_count.mpr fun turn => ?_
  rw [count_eq, count_eq]
  exact (h turn.1).count_eq turn.2

/-- Turns in which every source has given some items are these items, listed source after source, in
some order. -/
theorem perm_listed {turns : Turns α} {ess : List (List (α × Bookmark))}
    (hlt : ∀ turn ∈ turns, turn.1 < ess.length)
    (hshares : ∀ (i : Nat) (es : List (α × Bookmark)), ess[i]? = some es →
      (share i turns).Perm es) : turns.Perm (listed 0 ess) := by
  refine perm_of_share fun i => ?_
  rw [← Nat.zero_add i, share_listed, Nat.zero_add]
  cases hi : ess[i]? with
  | some es => exact hshares i es hi
  | none =>
    have hlength : ess.length ≤ i := List.getElem?_eq_none_iff.mp hi
    rw [share_eq_nil fun turn hturn => Nat.ne_of_lt (Nat.lt_of_lt_of_le (hlt turn hturn) hlength)]
    rfl

/-- **The stable sort of what is listed is in order**: of turns with equal bookmarks the one of the
earlier source stays in front. -/
theorem inOrder_mergeSort {turns : Turns α} (h : turns.Pairwise fun s t => s.1 ≤ t.1) :
    InOrder direction (turns.mergeSort fun s t => direction.le s.2 t.2) := by
  -- The sort is stable: it is the sort of the numbered turns, of which equal ones keep their order.
  have hsorted := List.pairwise_mergeSort
    (List.zipIdxLE_trans fun s t u => direction.le_trans s.2 t.2 u.2)
    (List.zipIdxLE_total fun s t => direction.le_total s.2 t.2) turns.zipIdx
  rw [InOrder, ← List.mergeSort_zipIdx, List.pairwise_map]
  refine hsorted.imp_of_mem fun {s t} hs ht hst => ?_
  rw [List.mem_mergeSort, List.mem_zipIdx_iff_getElem?] at hs ht
  obtain ⟨hi, hs⟩ := List.getElem?_eq_some_iff.mp hs
  obtain ⟨hk, ht⟩ := List.getElem?_eq_some_iff.mp ht
  have hle : direction.le s.1.2 t.1.2 := by
    revert hst
    rw [List.zipIdxLE]
    split_ifs <;> simp_all
  rcases Direction.le_iff.mp hle with hlt | heq
  · exact Or.inl hlt
  · have hswap : direction.order t.1.2.2 s.1.2.2 = (direction.order s.1.2.2 t.1.2.2).swap :=
      OrientedCmp.eq_swap
    have hle' : direction.le t.1.2 s.1.2 := by
      rw [Direction.le_iff, hswap, heq]
      exact Or.inr rfl
    have hindex : s.2 ≤ t.2 := by simpa [List.zipIdxLE, hle, hle'] using hst
    refine Or.inr ⟨heq, ?_⟩
    rcases Nat.eq_or_lt_of_le hindex with hindex | hindex
    · rw [← hs, ← ht]
      simp only [hindex, Nat.le_refl]
    · rw [← hs, ← ht]
      exact List.pairwise_iff_getElem.mp h _ _ hi hk hindex

/-- **Turns in order are the stable sort of what their sources give**, listed source after
source. -/
theorem InOrder.items_eq {turns : Turns α} {ess : List (List (α × Bookmark))}
    (h : turns.InOrder direction) (hlt : ∀ turn ∈ turns, turn.1 < ess.length)
    (hshares : ∀ (i : Nat) (es : List (α × Bookmark)), ess[i]? = some es →
      (turns.share i).Perm es ∧ direction.Sorts (turns.share i)) :
    turns.map (·.2) = ess.flatten.mergeSort direction.le := by
  -- Both lists are in order and hold the same turns, and no two turns are level both ways.
  have hperm : turns.Perm (listed 0 ess) :=
    perm_listed hlt fun i es hes => (hshares i es hes).1
  have hsorted : InOrder direction ((listed 0 ess).mergeSort fun s t => direction.le s.2 t.2) :=
    inOrder_mergeSort (pairwise_listed 0 ess)
  have heq : turns = (listed 0 ess).mergeSort fun s t => direction.le s.2 t.2 := by
    refine List.Perm.eq_of_pairwise ?_ h hsorted (hperm.trans (List.mergeSort_perm _ _).symm)
    intro s t hs ht hst hts
    have ht : t ∈ turns := hperm.mem_iff.mpr (List.mem_mergeSort.mp ht)
    obtain ⟨hindex, hmark⟩ := Prod.mk.inj (hst.antisymm hts)
    -- The two turns are of one source, whose bookmarks differ.
    have hi := List.getElem?_eq_getElem (hlt s hs)
    have hnodup := (hshares s.1 _ hi).2.nodup
    have hitem : s.2 = t.2 := by
      refine List.inj_on_of_nodup_map hnodup (mem_share hs) ?_ hmark
      rw [hindex]
      exact mem_share ht
    exact Prod.ext hindex hitem
  rw [heq, List.map_mergeSort (s := direction.le) fun _ _ _ _ => rfl, listed_items]

end Turns

end KeysetPaging
