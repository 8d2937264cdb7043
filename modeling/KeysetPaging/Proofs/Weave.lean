import KeysetPaging.Collection.Merge
import KeysetPaging.Proofs.Course
import Mathlib.Algebra.GroupWithZero.Nat

/-! # Collections that take turns

Several collections are read in turns. Each turn gives one item and says which collection it comes
from, so what every one of them has given is found in the turns, in order. Which turns are possible
is left open here: a merge promises more about them when its sources are in order.
-/

namespace KeysetPaging

variable {α : Type}

/-- The turns of several collections: the number of the one that is read, and what is read. -/
abbrev Turns (α : Type) := List (Nat × α × Bookmark)

namespace Turns

/-- What the collection with a number has given in some turns. -/
def share (i : Nat) (turns : Turns α) : List (α × Bookmark) :=
  (turns.filter fun turn => turn.1 == i).map (·.2)

@[simp] theorem share_nil (i : Nat) : share i ([] : Turns α) = [] :=
  rfl

@[simp] theorem share_append (i : Nat) (turns later : Turns α) :
    share i (turns ++ later) = share i turns ++ share i later := by
  simp [share]

@[simp] theorem share_cons_self (i : Nat) (e : α × Bookmark) (turns : Turns α) :
    share i ((i, e) :: turns) = e :: share i turns := by
  simp [share]

@[simp] theorem share_cons_ne {i k : Nat} (h : k ≠ i) (e : α × Bookmark) (turns : Turns α) :
    share i ((k, e) :: turns) = share i turns := by
  simp [share, h]

/-- What is given in a turn is in the share of who takes it. -/
theorem mem_share {turns : Turns α} {turn : Nat × α × Bookmark} (h : turn ∈ turns) :
    turn.2 ∈ share turn.1 turns :=
  List.mem_map_of_mem (List.mem_filter.mpr ⟨h, by simp⟩)

end Turns

namespace Remainder

/-- What is left of several collections that are read in turns. Each is read in its own order, and
`T` says which turns are possible. -/
def weave (T : Turns α → Prop) (rs : List (Remainder α)) : Remainder α where
  Reads zs := ∃ turns : Turns α, zs.map (·.1) = turns.map (·.2.1) ∧
    (∀ turn ∈ turns, turn.1 < rs.length) ∧
      (∀ (i : Nat) (r : Remainder α), rs[i]? = some r → r.Reads (turns.share i)) ∧ T turns
  left := (rs.map (·.left)).sum

/-- No sum of parts grows when no part does, and it gets smaller when one of them does. -/
theorem sum_left_le : ∀ {rs rs' : List (Remainder α)}, rs.length = rs'.length →
    (∀ (i : Nat) (r r' : Remainder α), rs[i]? = some r → rs'[i]? = some r' → r'.left ≤ r.left) →
      (rs'.map (·.left)).sum ≤ (rs.map (·.left)).sum ∧
        ((∃ (i : Nat) (r r' : Remainder α),
            rs[i]? = some r ∧ rs'[i]? = some r' ∧ r'.left < r.left) →
          (rs'.map (·.left)).sum < (rs.map (·.left)).sum)
  | [], [], _, _ => by simp
  | [], _ :: _, hlength, _ => by simp at hlength
  | _ :: _, [], hlength, _ => by simp at hlength
  | r :: rs, r' :: rs', hlength, h => by
    have hfirst := h 0 r r' rfl rfl
    obtain ⟨hle, hlt⟩ := sum_left_le (Nat.succ.inj hlength) fun i => h (i + 1)
    simp only [List.map_cons, List.sum_cons]
    refine ⟨by omega, ?_⟩
    rintro ⟨i, s, s', hs, hs', hless⟩
    cases i with
    | zero =>
      obtain rfl := Option.some.inj hs
      obtain rfl := Option.some.inj hs'
      omega
    | succ i =>
      have := hlt ⟨i, s, s', hs, hs', hless⟩
      omega

/-- When every collection has given what leads it from one remainder to another, all of them
together have come from the one to the other. The turns so far have to fit before whatever turns
come after them. -/
theorem weave_reaches {T : Turns α → Prop} {rs rs' : List (Remainder α)} {turns : Turns α}
    {es : List (α × Bookmark)} (hlength : rs.length = rs'.length)
    (hes : es.map (·.1) = turns.map (·.2.1)) (hturns : ∀ turn ∈ turns, turn.1 < rs.length)
    (hreaches : ∀ (i : Nat) (r r' : Remainder α), rs[i]? = some r → rs'[i]? = some r' →
      r.Reaches (turns.share i) r')
    (hT : ∀ later : Turns α, (∀ turn ∈ later, turn.1 < rs.length) →
      (∀ (i : Nat) (r : Remainder α), rs[i]? = some r → r.Reads (turns.share i ++ later.share i)) →
        T later → T (turns ++ later)) :
    (weave T rs).Reaches es (weave T rs') := by
  obtain ⟨hle, hlt⟩ := sum_left_le hlength fun i r r' hr hr' => (hreaches i r r' hr hr').le
  refine ⟨?_, hle, fun hne => hlt ?_⟩
  · -- Turns after turns are turns, and the share of each collection goes on with its later share.
    rintro zs ⟨later, hzs, hlater, hshares, hpossible⟩
    have hreads : ∀ (i : Nat) (r : Remainder α), rs[i]? = some r →
        r.Reads (turns.share i ++ later.share i) := by
      intro i r hr
      obtain ⟨hi, -⟩ := List.getElem?_eq_some_iff.mp hr
      have hr' : rs'[i]? = some rs'[i] := List.getElem?_eq_getElem (by omega)
      exact (hreaches i r _ hr hr').goes _ (hshares i _ hr')
    refine ⟨turns ++ later, by simp [hes, hzs], ?_, by simpa using hreads, ?_⟩
    · intro turn hturn
      rcases List.mem_append.mp hturn with hturn | hturn
      · exact hturns turn hturn
      · rw [hlength]
        exact hlater turn hturn
    · exact hT later (by rw [hlength]; exact hlater) hreads hpossible
  · -- The collection that takes the first turn has less to read.
    cases turns with
    | nil => simp at hes; exact absurd hes hne
    | cons turn turns =>
      have hi := hturns turn (by simp)
      have hr : rs[turn.1]? = some rs[turn.1] := List.getElem?_eq_getElem hi
      have hr' : rs'[turn.1]? = some rs'[turn.1] := List.getElem?_eq_getElem (by omega)
      exact ⟨turn.1, _, _, hr, hr', (hreaches _ _ _ hr hr').lt
        (List.ne_nil_of_mem (Turns.mem_share (by simp)))⟩

end Remainder

/-- The places that a bookmark of a merge names. Any other place is the start of every source. -/
def Course.known : Option Bookmark → List (String × Option Bookmark)
  | some (.merge positions) => positions
  | _ => []

/-- What is read of a merge: its sources in turns, each from the place that is known for its
label. -/
def Course.merge (T : Turns α → Prop) (courses : List (String × Course α)) : Course α :=
  fun place => .weave T (courses.map fun course => course.2 ((known place).lookup course.1).join)

end KeysetPaging
