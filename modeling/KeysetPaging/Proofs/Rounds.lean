import KeysetPaging.Proofs.Following
import Mathlib

/-! # The rounds of the filling mode

A filter in the filling mode asks for one inner page in every round. How much it asks for does not
depend on what passes: the size doubles from the size of the page on, up to a limit. Over a list of
items, each round goes on where the one before it left off. So it can be said ahead which rounds are
made, what they read, and why there are no more: the page is full, the list is at its end, or no
round is left. To see the rounds from outside, the list records what it is asked.
-/

namespace KeysetPaging

variable {σ α β : Type}

/-! ## Lists that record -/

/-- What a source is asked: for how many items, and after which place. -/
structure Question where
  size : Nat
  place : Option Bookmark

/-- A list of items that records in the state of the sources what it is asked. -/
def ItemList.recording (list : ItemList α) (record : Question → σ → σ) : Source σ α where
  fetch page := do
    Run.change (record ⟨page.perPage, page.current⟩)
    return list.fetched page

namespace Shelf

variable (shelf : Shelf α) (record : Question → σ → σ)

/-- The items as a collection that records what it is asked. -/
def recording : Collection σ α :=
  .leaf shelf.bookmarker (shelf.list.recording record)

/-- A list that records answers as the list does, and records the question. -/
theorem recording_does {perPage : Nat} (place : Option Bookmark) (hperPage : 0 < perPage) :
    ((shelf.recording record).supply perPage place).Does
      (.ok (.ofRest (shelf.list.after place) place hperPage)) (record ⟨perPage, place⟩) := by
  have hplain : (shelf.collection σ).supply perPage place
      = pure (.ok (.ofRest (shelf.list.after place) place hperPage)) :=
    shelf.ordered.supply_eq place hperPage
  have hrecords : (shelf.recording record).supply perPage place =
      Run.change (record ⟨perPage, place⟩) >>= fun _ =>
        (shelf.collection σ).supply perPage place := by
    rw [recording, collection, Collection.supply_leaf, Collection.supply_leaf, Supply.ofFill,
      Supply.ofFill, Page.start?, dif_pos hperPage]
    rfl
  rw [hrecords, hplain]
  exact fun j => ⟨rfl, rfl⟩

/-- Where a list goes on after a number of items behind a place: after the last of them, and without
any at the place itself. -/
def further (place : Option Bookmark) (n : Nat) : Option Bookmark :=
  (((shelf.list.after place).take n).getLast?.map (·.2)).or place

/-- What comes after a number of items behind a place is what is left without them. -/
theorem after_further (place : Option Bookmark) (n : Nat) :
    shelf.list.after (shelf.further place n) = (shelf.list.after place).drop n := by
  rw [further]
  cases hlast : ((shelf.list.after place).take n).getLast? with
  | none =>
    rw [List.getLast?_eq_none_iff, List.take_eq_nil_iff] at hlast
    rcases hlast with rfl | hnil
    · rfl
    · simp [hnil]
  | some e =>
    obtain ⟨front, hfront⟩ := List.getLast?_eq_some_iff.mp hlast
    obtain ⟨before, hbefore⟩ := shelf.list.after_suffix place
    have hsplit := List.take_append_drop n (shelf.list.after place)
    rw [hfront, List.append_assoc, List.singleton_append] at hsplit
    have hentries : shelf.list.entries
        = (before ++ front) ++ e :: (shelf.list.after place).drop n := by
      rw [hbefore, List.append_assoc, hsplit]
    exact shelf.after_mark hentries

/-- A number of items and then some more are as many items as both together. -/
theorem further_further (place : Option Bookmark) (m n : Nat) :
    shelf.further (shelf.further place m) n = shelf.further place (m + n) := by
  rw [further, after_further, further, further, List.take_add, List.getLast?_append,
    Option.map_or, Option.or_assoc]

end Shelf

/-! ## The schedule -/

/-- A page that is asked of a filter over a list of items. -/
structure Filling (α : Type) where
  shelf : Shelf α
  keep : α → Bool
  options : FilterOptions
  /-- Where the page starts. -/
  start : Option Bookmark
  perPage : Nat
  perPage_pos : 0 < perPage

/-- The page holds just these items, with their bookmarks. -/
structure Page.Shows (es : List (α × Bookmark)) (page : Page α) : Prop where
  items_eq : page.items = es.map (·.1)
  bookmarks_eq : page.bookmarks = es.map (·.2)

/-- That a page goes on, and where, changes nothing that it holds. -/
theorem Page.Shows.markMore {es : List (α × Bookmark)} {page : Page α} (h : page.Shows es) :
    page.markMore.Shows es :=
  ⟨h.items_eq, h.bookmarks_eq⟩

theorem Page.Shows.resume {es : List (α × Bookmark)} {page : Page α} (h : page.Shows es)
    (place : Option Bookmark) : (page.resume place).Shows es :=
  ⟨h.items_eq, h.bookmarks_eq⟩

namespace Filling

variable (f : Filling α)

/-- The filter over the list, which records what it is asked. -/
def collection (record : Question → σ → σ) : Collection σ α :=
  (f.shelf.recording record).filter f.keep f.options

/-- The items after the start of the page. -/
def rest : List (α × Bookmark) :=
  f.shelf.list.after f.start

/-- How many items are asked for in a round. -/
def size (round : Nat) : Nat :=
  min (f.perPage * 2 ^ round) (max f.options.maxFetch f.perPage)

/-- How many items are asked for in a number of rounds. -/
def asked (rounds : Nat) : Nat :=
  ((List.range rounds).map f.size).sum

/-- Where a round goes on after a number of others. -/
def place (rounds : Nat) : Option Bookmark :=
  f.shelf.further f.start (f.asked rounds)

/-- What passes of the items of a number of rounds. -/
def found (rounds : Nat) : List (α × Bookmark) :=
  (f.rest.take (f.asked rounds)).filter fun e => f.keep e.1

/-- What the list is asked in a round. -/
def question (round : Nat) : Question :=
  ⟨f.size round, f.place round⟩

theorem size_pos (round : Nat) : 0 < f.size round := by
  have hpos := Nat.mul_pos f.perPage_pos (Nat.two_pow_pos round)
  have := f.perPage_pos
  rw [size]
  omega

theorem size_zero : f.size 0 = f.perPage := by
  rw [size]
  omega

/-- The size of an inner page grows as scheduled. -/
theorem grow_size (round : Nat) :
    Filter.grow f.options f.perPage (f.size round) = f.size (round + 1) := by
  rw [Filter.grow, size, size, Nat.pow_succ, ← Nat.mul_assoc]
  omega

theorem asked_zero : f.asked 0 = 0 :=
  rfl

theorem asked_succ (rounds : Nat) : f.asked (rounds + 1) = f.asked rounds + f.size rounds := by
  simp [asked, List.range_succ]

theorem asked_mono {s t : Nat} (h : s ≤ t) : f.asked s ≤ f.asked t :=
  monotone_nat_of_le_succ (fun n => by rw [asked_succ]; omega) h

theorem le_asked (rounds : Nat) : rounds ≤ f.asked rounds := by
  induction rounds with
  | zero => exact Nat.zero_le _
  | succ rounds ih =>
    have hsize := f.size_pos rounds
    rw [asked_succ]
    omega

/-- The next round goes on after the last item that was asked for. -/
theorem place_eq (rounds : Nat) :
    f.place rounds = ((f.rest.take (f.asked rounds)).getLast?.map (·.2)).or f.start :=
  rfl

theorem place_zero : f.place 0 = f.start := by
  simp [place_eq, asked_zero]

/-- A round goes on where the rounds before it left off. -/
theorem after_place (rounds : Nat) :
    f.shelf.list.after (f.place rounds) = f.rest.drop (f.asked rounds) :=
  f.shelf.after_further f.start (f.asked rounds)

theorem found_zero : f.found 0 = [] := by
  simp [found, asked_zero]

/-- A round adds what passes of its own items. -/
theorem found_succ (rounds : Nat) : f.found (rounds + 1) = f.found rounds ++
    ((f.rest.drop (f.asked rounds)).take (f.size rounds)).filter fun e => f.keep e.1 := by
  rw [found, found, asked_succ, List.take_add, List.filter_append]

/-- More rounds find what fewer rounds find, and go on. -/
theorem found_prefix {s t : Nat} (h : s ≤ t) : f.found s <+: f.found t :=
  (List.take_prefix_take_left (f.asked_mono h)).filter _

/-! ## Rounds -/

/-- The inner page of a round. -/
def inner (round : Nat) : Page α :=
  .ofRest (f.shelf.list.after (f.place round)) (f.place round) (f.size_pos round)

theorem inner_entries (round : Nat) :
    (f.inner round).entries = (f.rest.drop (f.asked round)).take (f.size round) := by
  rw [inner, Page.entries, Page.ofRest, after_place]
  exact (List.zip_of_prod rfl rfl).symm

theorem inner_hasMore (round : Nat) :
    (f.inner round).hasMore = decide (f.asked (round + 1) < f.rest.length) := by
  simp only [inner, Page.ofRest, after_place, List.length_drop, asked_succ, decide_eq_decide]
  omega

/-- An inner page that is not the last goes on where the next round does. -/
theorem inner_next {round : Nat} (hmore : f.asked (round + 1) < f.rest.length) :
    (f.inner round).nextBookmark = f.place (round + 1) := by
  have hplace : f.place (round + 1) = f.shelf.further (f.place round) (f.size round) := by
    rw [place, place, f.shelf.further_further, asked_succ]
  have hhasMore := f.inner_hasMore round
  rw [decide_eq_true hmore] at hhasMore
  rw [hplace, Page.nextBookmark, if_pos hhasMore, inner, Page.ofRest, Shelf.further,
    List.getLast?_map]
  rfl

/-- The page while it is filled. -/
def filled (es : List (α × Bookmark)) : Page α :=
  ({ perPage := f.perPage, current := f.start, perPage_pos := f.perPage_pos } : Page α).append es

theorem filled_shows (es : List (α × Bookmark)) : (f.filled es).Shows es where
  items_eq := by simp [filled, Page.append]
  bookmarks_eq := by simp [filled, Page.append]

theorem filled_append (es es' : List (α × Bookmark)) :
    (f.filled es).append es' = f.filled (es ++ es') := by
  simp [filled, Page.append]

/-- When a round finds too little, the page takes all of it. -/
theorem take_of_few {round : Nat} (hfew : (f.found (round + 1)).length < f.perPage) :
    Filter.take ((f.inner round).entries.filter fun e => f.keep e.1) (f.inner round)
      (f.filled (f.found round)) = (f.filled (f.found (round + 1)), false) := by
  rw [inner_entries, Filter.take_of_lt, filled_append, ← found_succ]
  rw [found_succ, List.length_append] at hfew
  simp only [Page.remaining, filled, Page.append, List.nil_append, List.length_map]
  omega

/-- When a round finds enough, the page takes as much as fits, and is full. -/
theorem take_of_enough {round : Nat} (hfew : (f.found round).length < f.perPage)
    (henough : f.perPage ≤ (f.found (round + 1)).length) :
    ∃ page : Page α, page.Shows ((f.found (round + 1)).take f.perPage) ∧
      Filter.take ((f.inner round).entries.filter fun e => f.keep e.1) (f.inner round)
        (f.filled (f.found round)) = (page, true) := by
  rw [found_succ, List.length_append] at henough
  rw [inner_entries, found_succ]
  generalize ((f.rest.drop (f.asked round)).take (f.size round)).filter (fun e => f.keep e.1)
    = kept at henough
  have hroom : max 1 (f.filled (f.found round)).remaining
      = f.perPage - (f.found round).length := by
    simp only [Page.remaining, filled, Page.append, List.nil_append, List.length_map]
    omega
  rcases Nat.lt_or_ge (f.perPage - (f.found round).length) kept.length with hgt | hle
  · rw [Filter.take_of_gt (by omega), filled_append, hroom, List.take_append,
      List.take_of_length_le (Nat.le_of_lt hfew)]
    exact ⟨_, (f.filled_shows _).markMore, rfl⟩
  · rw [Filter.take_of_eq (by omega), filled_append, List.take_of_length_le (by
      rw [List.length_append]; omega)]
    refine ⟨_, ?_, rfl⟩
    split_ifs
    · exact (f.filled_shows _).markMore.resume _
    · exact f.filled_shows _

/-- What the list is asked in the rounds from one on, up to but without another. -/
def questions (first last : Nat) : List Question :=
  (List.range' first (last - first)).map f.question

theorem questions_self (round : Nat) : f.questions round round = [] := by
  simp [questions]

theorem questions_cons {first last : Nat} (h : first < last) :
    f.questions first last = f.question first :: f.questions (first + 1) last := by
  have hlength : last - first = last - (first + 1) + 1 := by omega
  rw [questions, hlength, List.range'_succ]
  rfl

/-- What remains in the state of the sources when questions are recorded in it, one by one. -/
def recorded (record : Question → σ → σ) (questions : List Question) (state : σ) : σ :=
  questions.foldl (fun state question => record question state) state

/-- A round asks what is scheduled for it, and goes on with its inner page. -/
theorem asks_does (record : Question → σ → σ) {round : Nat} {others : List Question}
    {next : Except Error (Page α) → Run σ β} {b : β}
    (hnext : (next (.ok (f.inner round))).Does b (recorded record others)) :
    ((f.shelf.recording record).supply (f.size round) (f.place round) >>= next).Does b
      (recorded record (f.question round :: others)) :=
  (f.shelf.recording_does record (f.place round) (f.size_pos round)).bind hnext

/-- The rounds from one on, with some left to go, when all that was found so far is on the page. -/
def fillFrom (record : Question → σ → σ) (left first : Nat) : Run σ (Filled α) :=
  Filter.fillRounds f.options f.keep (f.shelf.recording record).supply left first (f.place first)
    (f.size first) (f.filled (f.found first))

/-- A round that finds enough is the last one, and fills the page. -/
theorem fillFrom_of_enough {first : Nat} (hfew : (f.found first).length < f.perPage)
    (henough : f.perPage ≤ (f.found (first + 1)).length) :
    ∃ page : Page α, page.Shows ((f.found (first + 1)).take f.perPage) ∧
      ∀ {σ : Type} (record : Question → σ → σ) (left : Nat),
        (f.fillFrom record (left + 1) first).Does { page } (recorded record [f.question first]) := by
  obtain ⟨page, hshows, htake⟩ := f.take_of_enough hfew henough
  refine ⟨page, hshows, fun record left => ?_⟩
  rw [fillFrom, Filter.fillRounds]
  refine f.asks_does record (.note ?_)
  simp only [htake, Bool.true_or, if_true]
  exact .pure _

/-- A round that finds too little is the last one if it reaches the end of the list. -/
theorem fillFrom_of_all (record : Question → σ → σ) (left : Nat) {first : Nat}
    (hfew : (f.found (first + 1)).length < f.perPage)
    (hall : f.rest.length ≤ f.asked (first + 1)) :
    (f.fillFrom record (left + 1) first).Does { page := f.filled (f.found (first + 1)) }
      (recorded record [f.question first]) := by
  have hhasMore := f.inner_hasMore first
  rw [decide_eq_false (Nat.not_lt.mpr hall)] at hhasMore
  rw [fillFrom, Filter.fillRounds]
  refine f.asks_does record (.note ?_)
  simp only [f.take_of_few hfew, hhasMore, Bool.not_false, Bool.or_true, if_true]
  exact .pure _

/-- A round that finds too little is followed by the next one where the list goes on. -/
theorem fillFrom_of_more (record : Question → σ → σ) {left first : Nat} {filled : Filled α}
    {others : List Question} (hfew : (f.found (first + 1)).length < f.perPage)
    (hmore : f.asked (first + 1) < f.rest.length)
    (hrest : (f.fillFrom record left (first + 1)).Does filled (recorded record others)) :
    (f.fillFrom record (left + 1) first).Does filled
      (recorded record (f.question first :: others)) := by
  have hhasMore := f.inner_hasMore first
  rw [decide_eq_true hmore] at hhasMore
  rw [fillFrom, ← grow_size] at hrest
  rw [fillFrom, Filter.fillRounds]
  refine f.asks_does record (.note ?_)
  simp only [f.take_of_few hfew, hhasMore, f.inner_next hmore, Bool.not_true, Bool.or_self,
    Bool.false_eq_true, if_false]
  exact hrest

/-- How the rounds end: with a full page, at the end of the list, or because no round is left. -/
inductive Ends (rounds : Nat) (page : Page α) : Prop
  | full (enough : f.perPage ≤ (f.found rounds).length)
      (shows : page.Shows ((f.found rounds).take f.perPage))
  | exhausted (few : (f.found rounds).length < f.perPage) (all : f.rest.length ≤ f.asked rounds)
      (shows : page.Shows (f.found rounds)) (ends : page.hasMore = false)
  | stopped (few : (f.found rounds).length < f.perPage) (last : rounds = f.options.maxRounds)
      (more : f.asked rounds < f.rest.length) (shows : page.Shows (f.found rounds))
      (goesOn : page.hasMore = true) (resumes : page.nextBookmark = f.place rounds)

/-- A page that gives up after some rounds goes on where the next round would. -/
theorem resume_next (rounds : Nat) :
    ((f.filled (f.found rounds)).markMore.resume (f.place rounds)).nextBookmark
      = f.place rounds := by
  cases hlast : (f.rest.take (f.asked rounds)).getLast? with
  | none =>
    have hplace : f.place rounds = f.start := by simp [place_eq, hlast]
    rw [List.getLast?_eq_none_iff] at hlast
    rw [hplace, found, hlast]
    simp [Page.nextBookmark, Page.resume, Page.markMore, filled, Page.append]
  | some e =>
    have hplace : f.place rounds = some e.2 := by simp [place_eq, hlast]
    simp [Page.nextBookmark, Page.resume, Page.markMore, hplace]

/-- **The rounds that are made** from a round on, before which too little was found and something
is left: each of them asks what is scheduled, and the last one is the first that fills the page,
reaches the end of the list, or has no round after it. -/
theorem fillRounds_ends : ∀ (left first : Nat), first + left = f.options.maxRounds →
    (f.found first).length < f.perPage → (left = 0 → f.asked first < f.rest.length) →
      ∃ rounds page, first ≤ rounds ∧ rounds ≤ f.options.maxRounds ∧ (left ≠ 0 → first < rounds) ∧
        (∀ t, first < t → t < rounds →
          f.asked t < f.rest.length ∧ (f.found t).length < f.perPage) ∧
        f.Ends rounds page ∧
        ∀ {σ : Type} (record : Question → σ → σ),
          (f.fillFrom record left first).Does { page }
            (recorded record (f.questions first rounds))
  | 0, first, hlast, hfew, hmore => by
    refine ⟨first, (f.filled (f.found first)).markMore.resume (f.place first), Nat.le_refl _,
      Nat.le_of_eq hlast, by simp, fun t _ _ => by omega, ?_, fun record => ?_⟩
    · exact .stopped hfew hlast (hmore rfl) ((f.filled_shows _).markMore.resume _) rfl
        (f.resume_next first)
    · rw [questions_self]
      exact .note (.pure _)
  | left + 1, first, hlast, hfew, _ => by
    have hone : f.questions first (first + 1) = [f.question first] := by
      rw [f.questions_cons (Nat.lt_succ_self first), questions_self]
    by_cases henough : f.perPage ≤ (f.found (first + 1)).length
    · obtain ⟨page, hshows, hdoes⟩ := f.fillFrom_of_enough hfew henough
      exact ⟨first + 1, page, by omega, by omega, by omega, fun t _ _ => by omega,
        .full henough hshows, fun record => hone ▸ hdoes record left⟩
    · have hfew' := Nat.lt_of_not_le henough
      by_cases hmore : f.asked (first + 1) < f.rest.length
      · obtain ⟨rounds, page, hle, hrounds, -, hbefore, hends, hdoes⟩ :=
          fillRounds_ends left (first + 1) (by omega) hfew' fun _ => hmore
        refine ⟨rounds, page, by omega, hrounds, by omega, fun t hfirst ht => ?_, hends,
          fun record => ?_⟩
        · rcases Nat.eq_or_lt_of_le hfirst with rfl | hnext
          · exact ⟨hmore, hfew'⟩
          · exact hbefore t hnext ht
        · rw [f.questions_cons (by omega)]
          exact f.fillFrom_of_more record hfew' hmore (hdoes record)
      · have hall := Nat.le_of_not_lt hmore
        exact ⟨first + 1, f.filled (f.found (first + 1)), by omega, by omega, by omega,
          fun t _ _ => by omega, .exhausted hfew' hall (f.filled_shows _) rfl,
          fun record => hone ▸ f.fillFrom_of_all record left hfew' hall⟩

/-- A filter in the filling mode answers with the page that its rounds make. -/
theorem supply_does (hmode : f.options.mode = .filling) {page : Page α} {rounds : Nat}
    (record : Question → σ → σ)
    (hfill : (f.fillFrom record f.options.maxRounds 0).Does { page }
      (recorded record (f.questions 0 rounds))) :
    ((f.collection record).supply f.perPage f.start).Does (.ok page)
      (recorded record ((List.range rounds).map f.question)) := by
  rw [fillFrom, place_zero, size_zero, found_zero, questions, Nat.sub_zero,
    ← List.range_eq_range'] at hfill
  rw [collection, Collection.supply_filter, Supply.ofFill, Page.start?, dif_pos f.perPage_pos]
  dsimp only
  rw [Filter.fill, hmode]
  exact hfill.answer rfl

/-- Enough rounds ask for everything that is left. -/
theorem exists_isLeast_asked : ∃ r, IsLeast {t | 1 ≤ t ∧ f.rest.length ≤ f.asked t} r := by
  have hexists : ∃ t, 1 ≤ t ∧ f.rest.length ≤ f.asked t :=
    ⟨f.rest.length + 1, by omega, by have := f.le_asked (f.rest.length + 1); omega⟩
  classical
  exact ⟨Nat.find hexists, Nat.find_spec hexists, fun t ht => Nat.find_min' hexists ht⟩

/-- Items that are asked for, but not the last of the list, end with one that the list goes on
after. -/
theorem place_eq_some {rounds : Nat} (hpos : 0 < rounds) (hmore : f.asked rounds < f.rest.length) :
    ∃ e, f.rest[f.asked rounds - 1]? = some e ∧ f.place rounds = some e.2 := by
  have hasked := f.le_asked rounds
  have hlast : f.asked rounds - 1 < f.rest.length := by omega
  refine ⟨f.rest[f.asked rounds - 1], List.getElem?_eq_getElem hlast, ?_⟩
  have hlength : (f.rest.take (f.asked rounds)).length = f.asked rounds := by
    rw [List.length_take]
    omega
  rw [place_eq, List.getLast?_eq_getElem?, hlength, List.getElem?_take_of_lt (by omega),
    List.getElem?_eq_getElem hlast]
  rfl

/-- **The schedule of the filling mode.** Let `r` be the number of rounds in which everything that
is left is asked for. In the rounds that may be made, at most `r` of them, either too little passes
for a full page, or enough. In the first case all of them are made and the page holds all that
passes. It goes on exactly when not all is asked for in them, right after the last item that is. In
the second case the page holds as much as fits of what passes, and the last round that is made is
the first one that finds enough. Every round asks for what is scheduled, after the items of the
rounds before it, as a list tells that records what it is asked and answers as ever. -/
theorem schedule (hmode : f.options.mode = .filling) (hrounds : 0 < f.options.maxRounds) :
    ∃ (r rounds : Nat) (page : Page α), IsLeast {t | 1 ≤ t ∧ f.rest.length ≤ f.asked t} r ∧
      (∀ σ : Type, Run.Ensures (((f.shelf.collection σ).filter f.keep f.options).supply f.perPage
        f.start) fun answer => answer = .ok page) ∧
      (∀ {σ : Type} (record : Question → σ → σ),
        ((f.collection record).supply f.perPage f.start).Does (.ok page)
          (recorded record ((List.range rounds).map f.question))) ∧
      (∀ round, f.shelf.list.after (f.question round).place = f.rest.drop (f.asked round)) ∧
      ((f.found (min r f.options.maxRounds)).length < f.perPage →
        rounds = min r f.options.maxRounds ∧ page.Shows (f.found rounds) ∧
          (page.hasMore ↔ f.options.maxRounds < r) ∧
          (f.options.maxRounds < r → ∃ e, f.rest[f.asked rounds - 1]? = some e ∧
            page.nextBookmark = some e.2 ∧
              f.shelf.list.after (some e.2) = f.rest.drop (f.asked rounds))) ∧
      (f.perPage ≤ (f.found (min r f.options.maxRounds)).length →
        page.Shows ((f.found (min r f.options.maxRounds)).take f.perPage) ∧
          IsLeast {t | f.perPage ≤ (f.found t).length} rounds) := by
  obtain ⟨r, hr⟩ := f.exists_isLeast_asked
  obtain ⟨rounds, page, -, hmax, hpos, hbefore, hends, hdoes⟩ :=
    f.fillRounds_ends f.options.maxRounds 0 (by omega) (by simpa [found_zero] using f.perPage_pos)
      (by omega)
  have hpos : 0 < rounds := hpos (by omega)
  -- No round is made after one before which everything is asked for.
  have hle : rounds ≤ r := by
    by_contra hlt
    have hless := (hbefore r hr.1.1 (by omega)).1
    exact absurd hr.1.2 (Nat.not_le.mpr hless)
  have hprefix := f.found_prefix (Nat.le_min.mpr ⟨hle, hmax⟩)
  have hsupply : ∀ {σ : Type} (record : Question → σ → σ),
      ((f.collection record).supply f.perPage f.start).Does (.ok page)
        (recorded record ((List.range rounds).map f.question)) := fun record =>
    f.supply_does hmode record (hdoes record)
  -- A list that records nothing is just the list.
  refine ⟨r, rounds, page, hr, fun _ j => (hsupply (fun _ state => state) j).1, hsupply,
    f.after_place, fun hfew => ?_, fun henough => ?_⟩
  · cases hends with
    | full enough shows => exact absurd hprefix.length_le (by omega)
    | exhausted few all shows ends =>
      obtain rfl : rounds = r := Nat.le_antisymm hle (hr.2 ⟨hpos, all⟩)
      exact ⟨by omega, shows, by simpa [ends] using hmax, by omega⟩
    | stopped few last more shows goesOn resumes =>
      have hlt : rounds < r := Nat.lt_of_le_of_ne hle fun heq =>
        absurd (heq ▸ hr.1.2) (Nat.not_le.mpr more)
      obtain ⟨e, he, hplace⟩ := f.place_eq_some hpos more
      exact ⟨by omega, shows, by simp [goesOn, ← last, hlt], fun _ =>
        ⟨e, he, resumes.trans hplace, hplace ▸ f.after_place rounds⟩⟩
  · cases hends with
    | full enough shows =>
      obtain ⟨more, hmore⟩ := hprefix
      refine ⟨?_, enough, fun t ht => ?_⟩
      · rwa [← hmore, List.take_append_of_le_length enough]
      · by_contra hlt
        have hfew : (f.found t).length < f.perPage := by
          rcases Nat.eq_zero_or_pos t with rfl | hpos
          · simpa [found_zero] using f.perPage_pos
          · exact (hbefore t hpos (Nat.lt_of_not_le hlt)).2
        exact absurd ht (Nat.not_le.mpr hfew)
    | exhausted few all shows ends =>
      obtain rfl : rounds = r := Nat.le_antisymm hle (hr.2 ⟨hpos, all⟩)
      rw [Nat.min_eq_left hmax] at henough
      omega
    | stopped few last more shows goesOn resumes =>
      rw [← last, Nat.min_eq_right hle] at henough
      omega

end Filling

/-- The numbers up to five as a list of items, marked by themselves. -/
def Shelf.five : Shelf Nat where
  bookmarker := .key (fun n => .int (.ofNat n)) Bookmarker.acceptsKey .ascending
  items := [1, 2, 3, 4, 5]
  marked := [(1, .int 1), (2, .int 2), (3, .int 3), (4, .int 4), (5, .int 5)]
  standard := .key _ _ _
  mark_eq := rfl
  distinct := by simp
  accepted := by simp [Bookmarker.key, Bookmarker.acceptsKey, Bookmark.isScalar]

/-- A page of one number that passes, out of inner pages of at most two, in at most two rounds. -/
def Filling.fourth : Filling Nat where
  shelf := .five
  keep := (· == 4)
  options := { maxRounds := 2, maxFetch := 2 }
  start := none
  perPage := 1
  perPage_pos := Nat.one_pos

/-- Two rounds end before the fourth number, with an empty page that goes on after the third. -/
theorem Filling.fourth_stops : ∃ page : Page Nat,
    ((fourth.collection fun question questions => questions ++ [question]).supply 1 none).Does
      (.ok page) (recorded (fun question questions => questions ++ [question])
        [⟨1, none⟩, ⟨2, some (.int 1)⟩]) ∧
      page.Shows [] ∧ page.hasMore ∧ page.nextBookmark = some (.int 3) := by
  obtain ⟨r, rounds, page, hr, -, hdoes, -, hfew, -⟩ := schedule fourth rfl (by decide)
  have hrest : fourth.rest = Shelf.five.marked := by cbv
  have hlt : 2 < r := by
    by_contra hle
    have hasked := fourth.asked_mono (Nat.le_of_not_lt hle)
    have hall := hr.1.2
    have htwo : fourth.asked 2 = 3 := by decide
    have hlength : fourth.rest.length = 5 := congrArg List.length hrest
    omega
  have htwo : min r fourth.options.maxRounds = 2 := Nat.min_eq_right (Nat.le_of_lt hlt)
  rw [htwo] at hfew
  have hfound : fourth.found 2 = [] := by cbv
  rw [hfound] at hfew
  obtain ⟨rfl, hshows, hmore, hnext⟩ := hfew Nat.one_pos
  rw [hfound] at hshows
  have hthird : fourth.rest[fourth.asked 2 - 1]? = some (3, .int 3) := by cbv
  have hquestions : (List.range 2).map fourth.question = [⟨1, none⟩, ⟨2, some (.int 1)⟩] := by cbv
  obtain ⟨e, he, hresumes, -⟩ := hnext hlt
  obtain rfl := Option.some.inj (hthird.symm.trans he)
  exact ⟨page, hquestions ▸ hdoes _, hshows, hmore.mpr hlt, hresumes⟩

end KeysetPaging
