import KeysetPaging.Proofs.Order
import KeysetPaging.Proofs.Weave

/-! # How a merge takes turns

The lane whose front is the smallest goes next, and of equals the earliest. The turns that a merge
takes are recorded beside the items that it gives out, so that what each lane has given is the front
of what it held, and the place that it has reached is the bookmark of the last item it gave.
-/

namespace KeysetPaging

open Std

variable {α : Type}

namespace Merge

variable {direction : Direction}

/-! ## The lane that goes next -/

/-- The bookmark in front of lane `i` goes before the one in front of lane `k`: it comes first in
the direction of the merge, or it is level with the other and the lane is earlier. -/
def Precedes (direction : Direction) (s t : Nat × Bookmark) : Prop :=
  direction.order s.2 t.2 = .lt ∨ direction.order s.2 t.2 = .eq ∧ s.1 ≤ t.1

theorem Precedes.trans {s t u : Nat × Bookmark} (hst : Precedes direction s t)
    (htu : Precedes direction t u) : Precedes direction s u := by
  rcases hst with hst | ⟨hst, hle⟩
  · rcases htu with htu | ⟨htu, -⟩
    · exact Or.inl (TransCmp.lt_trans hst htu)
    · exact Or.inl (TransCmp.lt_of_lt_of_eq hst htu)
  · rcases htu with htu | ⟨htu, hle'⟩
    · exact Or.inl (TransCmp.lt_of_eq_of_lt hst htu)
    · exact Or.inr ⟨TransCmp.eq_trans hst htu, Nat.le_trans hle hle'⟩

theorem Precedes.refl (s : Nat × Bookmark) : Precedes direction s s :=
  Or.inr ⟨ReflCmp.compare_self, Nat.le_refl _⟩

theorem Precedes.antisymm {s t : Nat × Bookmark} (hst : Precedes direction s t)
    (hts : Precedes direction t s) : s = t := by
  have hswap : direction.order t.2 s.2 = (direction.order s.2 t.2).swap := OrientedCmp.eq_swap
  rw [Precedes, hswap] at hts
  rcases hst with hst | ⟨hst, hle⟩
  · rw [hst] at hts
    simp at hts
  · rw [hst] at hts
    exact Prod.ext (Nat.le_antisymm hle (by simpa using hts)) (LawfulEqCmp.eq_of_compare hst)

/-- A lane that may go next: the best so far, or one of the lanes counted from `index` on. -/
def Candidate (index : Nat) (best : Option (Nat × Bookmark)) (lanes : List (Lane α))
    (s : Nat × Bookmark) : Prop :=
  best = some s ∨ ∃ n lane, lanes[n]? = some lane ∧ lane.front? = some s.2 ∧ s.1 = index + n

/-- A candidate is the best so far or one of the lanes. -/
theorem candidate_some {index : Nat} {u s : Nat × Bookmark} {lanes : List (Lane α)} :
    Candidate index (some u) lanes s ↔ u = s ∨ Candidate index none lanes s := by
  simp [Candidate]

/-- A candidate of a row of lanes is one already, or the front of the first lane, or a candidate of
the later lanes. -/
theorem candidate_cons {index : Nat} {best : Option (Nat × Bookmark)} {lane : Lane α}
    {lanes : List (Lane α)} {s : Nat × Bookmark} : Candidate index best (lane :: lanes) s ↔
      best = some s ∨ (lane.front? = some s.2 ∧ s.1 = index) ∨
        Candidate (index + 1) none lanes s := by
  constructor
  · rintro (hbest | ⟨n, other, hother, hfront, hs⟩)
    · exact Or.inl hbest
    · cases n with
      | zero =>
        obtain rfl := Option.some.inj hother
        exact Or.inr (Or.inl ⟨hfront, hs⟩)
      | succ n => exact Or.inr (Or.inr (Or.inr ⟨n, other, hother, hfront, by omega⟩))
  · rintro (hbest | ⟨hfront, hs⟩ | hlater)
    · exact Or.inl hbest
    · exact Or.inr ⟨0, lane, rfl, hfront, hs⟩
    · obtain ⟨n, other, hother, hfront, hs⟩ := hlater.resolve_left (by simp)
      exact Or.inr ⟨n + 1, other, hother, hfront, by omega⟩

/-- The lane that goes next: a candidate that goes before all others, and none when there is no
candidate. -/
def Chosen (direction : Direction) (candidate : Nat × Bookmark → Prop) (chosen : Option Nat) :
    Prop :=
  (chosen = none ∧ ∀ s, ¬ candidate s) ∨
    ∃ s, chosen = some s.1 ∧ candidate s ∧ ∀ t, candidate t → Precedes direction s t

/-- A choice that leaves out a candidate is right when another candidate goes before that one. -/
theorem Chosen.leaveOut {candidate later : Nat × Bookmark → Prop} {chosen : Option Nat}
    {s t : Nat × Bookmark} (h : Chosen direction (fun u => s = u ∨ later u) chosen)
    (hst : Precedes direction s t) (hall : ∀ u, candidate u ↔ s = u ∨ t = u ∨ later u) :
    Chosen direction candidate chosen := by
  rcases h with ⟨-, hnone⟩ | ⟨u, hchosen, hu, hfirst⟩
  · exact absurd (Or.inl rfl) (hnone s)
  · refine Or.inr ⟨u, hchosen, (hall u).mpr (hu.imp_right Or.inr), fun v hv => ?_⟩
    rcases (hall v).mp hv with rfl | rfl | hv
    · exact hfirst _ (Or.inl rfl)
    · exact (hfirst s (Or.inl rfl)).trans hst
    · exact hfirst v (Or.inr hv)

/-- The best lane so far and the lanes that follow are compared from front to back. -/
theorem bestFrom_spec : ∀ (lanes : List (Lane α)) (index : Nat) (best : Option (Nat × Bookmark)),
    (∀ s ∈ best, s.1 < index) →
      Chosen direction (Candidate index best lanes) (bestFrom direction index best lanes)
  | [], index, none, _ => Or.inl ⟨rfl, by simp [Candidate]⟩
  | [], index, some s, _ => by
    refine Or.inr ⟨s, rfl, Or.inl rfl, ?_⟩
    rintro t (ht | ⟨n, lane, hlane, -⟩)
    · obtain rfl := Option.some.inj ht
      exact .refl s
    · simp at hlane
  | lane :: lanes, index, best, hbest => by
    rw [bestFrom]
    cases hfront : lane.front? with
    | none =>
      -- A lane without a front is passed over.
      have hsame : Candidate index best (lane :: lanes) = Candidate (index + 1) best lanes := by
        funext s
        rw [eq_iff_iff, candidate_cons]
        cases best <;> simp [hfront, candidate_some]
      rw [hsame]
      exact bestFrom_spec lanes (index + 1) best fun s hs => Nat.lt_succ_of_lt (hbest s hs)
    | some b =>
      cases best with
      | none =>
        have hsame : Candidate index none (lane :: lanes)
            = Candidate (index + 1) (some (index, b)) lanes := by
          funext ⟨i, c⟩
          rw [eq_iff_iff, candidate_cons, candidate_some]
          simp [hfront, eq_comm, and_comm]
        rw [hsame]
        exact bestFrom_spec lanes (index + 1) (some (index, b)) (by simp)
      | some u =>
        have hu : u.1 < index := hbest u rfl
        have hspec : ∀ v : Nat × Bookmark, v.1 < index + 1 →
            Chosen direction (fun s => v = s ∨ Candidate (index + 1) none lanes s)
              (bestFrom direction (index + 1) (some v) lanes) := by
          intro v hv
          have hcandidate : Candidate (index + 1) (some v) lanes
              = fun s => v = s ∨ Candidate (index + 1) none lanes s := by
            funext s
            rw [eq_iff_iff, candidate_some]
          rw [← hcandidate]
          exact bestFrom_spec lanes (index + 1) (some v) (by rintro _ ⟨⟩; exact hv)
        dsimp only
        split
        next hless =>
          -- The front of this lane goes before the best so far.
          refine (hspec (index, b) (by simp)).leaveOut (Or.inl hless) ?_
          rintro ⟨i, c⟩
          rw [candidate_cons]
          simp only [hfront, Option.some.injEq, Prod.mk.injEq]
          tauto
        next hless =>
          have hprecedes : Precedes direction u (index, b) := by
            have hswap : direction.order u.2 b = (direction.order b u.2).swap :=
              OrientedCmp.eq_swap
            have hless : direction.order b u.2 ≠ .lt := hless
            rw [Precedes, hswap]
            revert hless
            cases direction.order b u.2 <;> (simp; try omega)
          refine (hspec u (by omega)).leaveOut hprecedes ?_
          rintro ⟨i, c⟩
          rw [candidate_cons]
          simp only [hfront, Option.some.injEq, Prod.mk.injEq]
          tauto

/-- The lane that goes next has an item, none is starved, and no other front goes before its
front. -/
theorem pick_some {lanes : List (Lane α)} {i : Nat} (h : pick direction lanes = some i) :
    (∀ lane ∈ lanes, lane.isStarved = false) ∧
      ∃ lane e rest, lanes[i]? = some lane ∧ lane.buffer = e :: rest ∧
        ∀ k other f, lanes[k]? = some other → other.buffer.head? = some f →
          Precedes direction (i, e.2) (k, f.2) := by
  rw [pick] at h
  split at h
  · cases h
  next hstarved =>
    refine ⟨by simpa using hstarved, ?_⟩
    rcases bestFrom_spec lanes 0 none (by simp) with ⟨hnone, -⟩ | ⟨s, hs, hcandidate, hfirst⟩
    · rw [hnone] at h
      cases h
    · obtain rfl : s.1 = i := Option.some.inj (hs.symm.trans h)
      obtain ⟨n, lane, hlane, hfront, hn⟩ := hcandidate.resolve_left (by simp)
      rw [Nat.zero_add] at hn
      obtain ⟨e, he, hmark⟩ := Option.map_eq_some_iff.mp hfront
      obtain ⟨rest, hbuffer⟩ := List.head?_eq_some_iff.mp he
      refine ⟨lane, e, rest, by rw [hn]; exact hlane, hbuffer, fun k other f hother hf => ?_⟩
      rw [hmark]
      refine hfirst (k, f.2) (Or.inr ⟨k, other, hother, ?_, by simp⟩)
      rw [Lane.front?, hf]
      rfl

/-- No lane goes next when one is starved or all are empty. -/
theorem pick_none {lanes : List (Lane α)} (h : pick direction lanes = none) :
    (∃ lane ∈ lanes, lane.isStarved) ∨ ∀ lane ∈ lanes, lane.buffer = [] := by
  rw [pick] at h
  split at h
  next hstarved => exact Or.inl (by simpa using hstarved)
  next hstarved =>
    rcases bestFrom_spec lanes 0 none (by simp) with ⟨-, hnone⟩ | ⟨s, hs, -⟩
    · refine Or.inr fun lane hlane => ?_
      obtain ⟨n, hn⟩ := List.mem_iff_getElem?.mp hlane
      cases hbuffer : lane.buffer with
      | nil => rfl
      | cons e rest =>
        refine absurd (Or.inr ⟨n, lane, hn, ?_, by simp⟩) (hnone (n, e.2))
        rw [Lane.front?, hbuffer]
        rfl
    · rw [hs] at h
      cases h

/-- When no lane goes next although something is left, one of the lanes is starved. -/
theorem exists_starved_of_pick {lanes : List (Lane α)} (h : pick direction lanes = none)
    (hmore : lanes.any fun lane => lane.hasMore || !lane.buffer.isEmpty) :
    ∃ lane ∈ lanes, lane.isStarved := by
  rcases pick_none h with hstarved | hempty
  · exact hstarved
  · obtain ⟨lane, hlane, hmore⟩ := List.any_eq_true.mp hmore
    refine ⟨lane, hlane, ?_⟩
    simpa [Lane.isStarved, hempty lane hlane] using hmore

/-! ## The turns -/

/-- The turns that are taken on the way to up to `room` items. -/
def turns (direction : Direction) : (room : Nat) → List (Lane α) → Turns α
  | 0, _ => []
  | room + 1, lanes =>
      match pick direction lanes with
      | none => []
      | some i =>
          match lanes[i]? with
          | some ⟨_, _, e :: _, _, _⟩ =>
              (i, e) :: turns direction room (lanes.modify i Lane.advance)
          | _ => []

/-- What one step of a merge can do: it stops with all lanes as they are, or the lane that goes next
gives its front item. -/
theorem interleave_step (direction : Direction) (room : Nat) (lanes : List (Lane α)) :
    (pick direction lanes = none ∧ interleave direction (room + 1) lanes = ([], lanes) ∧
        turns direction (room + 1) lanes = []) ∨
      ∃ i lane e rest, pick direction lanes = some i ∧ lanes[i]? = some lane ∧
        lane.buffer = e :: rest ∧
        interleave direction (room + 1) lanes
          = ((e.1, Lane.snapshot (lanes.modify i Lane.advance)) ::
                (interleave direction room (lanes.modify i Lane.advance)).1,
              (interleave direction room (lanes.modify i Lane.advance)).2) ∧
        turns direction (room + 1) lanes
          = (i, e) :: turns direction room (lanes.modify i Lane.advance) := by
  cases hpick : pick direction lanes with
  | none => exact Or.inl ⟨rfl, by rw [interleave, hpick], by rw [turns, hpick]⟩
  | some i =>
    obtain ⟨-, lane, e, rest, hlane, hbuffer, -⟩ := pick_some hpick
    refine Or.inr ⟨i, lane, e, rest, rfl, hlane, hbuffer, ?_, ?_⟩
    · -- The lane that is picked has a front, so the other branch is never taken.
      obtain ⟨label, place, buffer, hasMore, resumeAt⟩ := lane
      obtain rfl : buffer = e :: rest := hbuffer
      simp only [interleave, hpick, hlane]
    · obtain ⟨label, place, buffer, hasMore, resumeAt⟩ := lane
      obtain rfl : buffer = e :: rest := hbuffer
      simp only [turns, hpick, hlane]

variable {lanes : List (Lane α)}

/-- The items that are given out are those of the turns. -/
theorem items_interleave (room : Nat) (lanes : List (Lane α)) :
    (interleave direction room lanes).1.map (·.1) = (turns direction room lanes).map (·.2.1) := by
  induction room generalizing lanes with
  | zero => rfl
  | succ room ih =>
    rcases interleave_step direction room lanes with
      ⟨-, hstop, hturns⟩ | ⟨i, lane, e, rest, -, -, -, hgo, hturns⟩
    · rw [hstop, hturns]
      rfl
    · rw [hgo, hturns, List.map_cons, List.map_cons, ih]

@[simp] theorem length_left (room : Nat) (lanes : List (Lane α)) :
    (interleave direction room lanes).2.length = lanes.length := by
  induction room generalizing lanes with
  | zero => rfl
  | succ room ih =>
    rcases interleave_step direction room lanes with
      ⟨-, hstop, -⟩ | ⟨i, lane, e, rest, -, -, -, hgo, -⟩
    · rw [hstop]
    · rw [hgo, ih, List.length_modify]

/-- Every turn is taken by one of the lanes. -/
theorem turns_lt (room : Nat) (lanes : List (Lane α)) :
    ∀ turn ∈ turns direction room lanes, turn.1 < lanes.length := by
  induction room generalizing lanes with
  | zero => simp [turns]
  | succ room ih =>
    rcases interleave_step direction room lanes with
      ⟨-, -, hturns⟩ | ⟨i, lane, e, rest, -, hlane, -, -, hturns⟩
    · simp [hturns]
    · obtain ⟨hi, -⟩ := List.getElem?_eq_some_iff.mp hlane
      have hrest := ih (lanes.modify i Lane.advance)
      rw [List.length_modify] at hrest
      rw [hturns]
      exact List.forall_mem_cons.mpr ⟨hi, hrest⟩

/-- With less room the merge gives out the first of the same items. -/
theorem interleave_take {n room : Nat} (h : n ≤ room) (lanes : List (Lane α)) :
    (interleave direction n lanes).1 = (interleave direction room lanes).1.take n := by
  induction room generalizing n lanes with
  | zero =>
    obtain rfl : n = 0 := by omega
    rfl
  | succ room ih =>
    cases n with
    | zero => simp [interleave]
    | succ n =>
      rcases interleave_step direction room lanes with
        ⟨hpick, hstop, -⟩ | ⟨i, lane, e, rest, hpick, hlane, hbuffer, hgo, -⟩
      · rw [hstop, List.take_nil, interleave, hpick]
      · rcases interleave_step direction n lanes with
          ⟨hnone, -⟩ | ⟨i', lane', e', rest', hpick', hlane', hbuffer', hgo', -⟩
        · rw [hpick] at hnone
          cases hnone
        · obtain rfl : i = i' := Option.some.inj (hpick.symm.trans hpick')
          obtain rfl : lane = lane' := Option.some.inj (hlane.symm.trans hlane')
          obtain ⟨rfl, -⟩ := List.cons.inj (hbuffer.symm.trans hbuffer')
          rw [hgo, hgo', List.take_succ_cons, ih (by omega)]

/-- A merge that gives out nothing leaves all lanes as they are. -/
theorem left_of_nil {room : Nat} (h : (interleave direction room lanes).1 = []) :
    (interleave direction room lanes).2 = lanes := by
  cases room with
  | zero => rfl
  | succ room =>
    rcases interleave_step direction room lanes with
      ⟨-, hstop, -⟩ | ⟨i, lane, e, rest, -, -, -, hgo, -⟩
    · rw [hstop]
    · rw [hgo] at h
      cases h

/-- The last item that is given out is marked with the places that all lanes have reached. -/
theorem last_mark {room : Nat} {e : α × Bookmark}
    (h : (interleave direction room lanes).1.getLast? = some e) :
    e.2 = Lane.snapshot (interleave direction room lanes).2 := by
  induction room generalizing lanes with
  | zero => cases h
  | succ room ih =>
    rcases interleave_step direction room lanes with
      ⟨-, hstop, -⟩ | ⟨i, lane, f, rest, -, -, -, hgo, -⟩
    · rw [hstop] at h
      cases h
    · rw [hgo] at h ⊢
      cases hlater : (interleave direction room (lanes.modify i Lane.advance)).1.getLast? with
      | none =>
        rw [List.getLast?_cons, hlater] at h
        obtain rfl := Option.some.inj h
        rw [left_of_nil (List.getLast?_eq_none_iff.mp hlater)]
        rfl
      | some g =>
        rw [List.getLast?_cons, hlater] at h
        obtain rfl : g = e := Option.some.inj h
        exact ih hlater

end Merge

/-- A lane has given some items: they are the front of what it held, and the place that it has
reached is the bookmark of the last one. -/
structure Lane.Gives (lane : Lane α) (taken : List (α × Bookmark)) (after : Lane α) : Prop where
  buffer : lane.buffer = taken ++ after.buffer
  place : after.place = (taken.getLast?.map (·.2)).or lane.place
  label : after.label = lane.label
  hasMore : after.hasMore = lane.hasMore
  resumeAt : after.resumeAt = lane.resumeAt

/-- **What each lane has given is its share of the turns.** -/
theorem Merge.gives {direction : Direction} (room : Nat) {lanes : List (Lane α)} {i : Nat}
    {lane after : Lane α} (hlane : lanes[i]? = some lane)
    (hafter : (interleave direction room lanes).2[i]? = some after) :
    lane.Gives ((turns direction room lanes).share i) after := by
  induction room generalizing lanes lane with
  | zero =>
    obtain rfl : lane = after := Option.some.inj (hlane.symm.trans hafter)
    exact ⟨rfl, rfl, rfl, rfl, rfl⟩
  | succ room ih =>
    rcases interleave_step direction room lanes with
      ⟨-, hstop, hturns⟩ | ⟨k, next, e, rest, -, hnext, hbuffer, hgo, hturns⟩
    · rw [hstop] at hafter
      rw [hturns]
      obtain rfl : lane = after := Option.some.inj (hlane.symm.trans hafter)
      exact ⟨rfl, rfl, rfl, rfl, rfl⟩
    · rw [hgo] at hafter
      rw [hturns]
      by_cases hk : k = i
      · subst hk
        obtain rfl : lane = next := Option.some.inj (hlane.symm.trans hnext)
        have hadvanced : (lanes.modify k Lane.advance)[k]? = some lane.advance := by
          simp [hlane]
        obtain ⟨hb, hp, hl, hm, hr⟩ := ih hadvanced hafter
        obtain ⟨label, place, buffer, hasMore, resumeAt⟩ := lane
        obtain rfl : buffer = e :: rest := hbuffer
        rw [Turns.share_cons_self]
        refine ⟨by simpa [Lane.advance] using hb, ?_, hl, hm, hr⟩
        rw [hp, List.getLast?_cons]
        cases ((turns direction room (lanes.modify k Lane.advance)).share k).getLast? <;> rfl
      · have hsame : (lanes.modify k Lane.advance)[i]? = some lane := by
          simp [hk, hlane]
        rw [Turns.share_cons_ne hk]
        exact ih hsame hafter

end KeysetPaging
