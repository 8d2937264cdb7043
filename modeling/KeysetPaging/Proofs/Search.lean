import KeysetPaging.Proofs.Shelf
import KeysetPaging.Proofs.SortKeys
import Mathlib

/-! # Searching a list of items

A list of items is sorted once, and every page of it starts at the first item that follows a place.
Since the order of a bookmarker is one of all bookmarks, the items that do not follow a place stand
in front of those that do, whatever the place is, and so the first that does is found by halving.
What a list adds to a page is then what the plain definition says: the first items of the sorted
list that follow the place.
-/

namespace KeysetPaging

open Std

variable {σ α : Type}

/-! ## Halving -/

/-- The number of positions at the front that pass a test, when all that pass stand at the front.
Those before `base` pass, and the test is still open for the `size` positions from there on. -/
def halve (passes : Nat → Bool) (base size : Nat) : Nat :=
  if size ≤ 1 then
    if size = 1 && passes base then base + 1 else base
  else if passes (base + size / 2) then
    halve passes (base + size / 2) (size - size / 2)
  else
    halve passes base (size - size / 2)
termination_by size

/-- Halving finds where the positions end that pass. -/
theorem halve_spec {passes : Nat → Bool} {n : Nat}
    (hfront : ∀ i j, i ≤ j → j < n → passes j → passes i) (base size : Nat)
    (hbase : ∀ i < base, passes i) (hrest : ∀ i < n, base + size ≤ i → ¬ passes i)
    (hsize : base + size ≤ n) :
    halve passes base size ≤ n ∧ ∀ i < n, passes i ↔ i < halve passes base size := by
  fun_induction halve passes base size with
  | case1 base size hsmall hlast =>
    -- The only open position passes.
    obtain ⟨rfl, hlast⟩ := by simpa using hlast
    refine ⟨hsize, fun i hi => ⟨fun hpass => ?_, fun hlt => hfront i base (by omega) hsize hlast⟩⟩
    exact Nat.lt_of_not_le fun hle => hrest i hi hle hpass
  | case2 base size hsmall hlast =>
    refine ⟨by omega, fun i hi => ⟨fun hpass => ?_, hbase i⟩⟩
    by_contra hle
    have hopen : i < base + size := Nat.lt_of_not_le fun hle => hrest i hi hle hpass
    have hfirst := hfront base i (by omega) hi hpass
    obtain rfl : size = 1 := by omega
    simp [hfirst] at hlast
  | case3 base size hlarge hmiddle ih =>
    refine ih (fun i hi => ?_) (fun i hi hle => hrest i hi (by omega)) (by omega)
    exact hfront i _ (Nat.le_of_lt hi) (by omega) hmiddle
  | case4 base size hlarge hmiddle ih =>
    refine ih hbase (fun i hi hle hpass => hmiddle ?_) (by omega)
    exact hfront _ i (by omega) hi hpass

namespace ItemList

variable {list : ItemList α}

/-- An entry does not follow a place. -/
def staysBehind (list : ItemList α) (b : Bookmark) (e : α × Bookmark) : Bool :=
  list.bookmarker.compare e.2 b != .gt

/-- The position of the first item that follows a place, found by halving. -/
def position (list : ItemList α) (place : Option Bookmark) : Nat :=
  match place with
  | none => 0
  | some b => halve (fun i => list.entries[i]?.any (list.staysBehind b)) 0 list.entries.length

/-- The entries that follow a place, by the plain definition. -/
def following (list : ItemList α) (place : Option Bookmark) : List (α × Bookmark) :=
  list.entries.filter fun e => place.all fun b => list.bookmarker.compare e.2 b == .gt

/-- What comes after a place are the entries that follow it. -/
theorem Ordered.after_eq_following (h : list.Ordered) (place : Option Bookmark) :
    list.after place = list.following place := by
  cases place with
  | none => simp [after, following]
  | some b => rw [h.after_some, following]; rfl

/-- The items that do not follow a place stand in front of those that do. -/
theorem Ordered.staysBehind_of_le (h : list.Ordered) (b : Bookmark) {i j : Nat} (hij : i ≤ j)
    (hj : list.entries[j]?.any (list.staysBehind b)) :
    list.entries[i]?.any (list.staysBehind b) := by
  have := h.standard.transCmp
  rcases Nat.eq_or_lt_of_le hij with rfl | hlt
  · exact hj
  · have hjn : j < list.entries.length := by
      by_contra hover
      simp [List.getElem?_eq_none (Nat.le_of_not_lt hover)] at hj
    have hin : i < list.entries.length := by omega
    have hsorted := List.pairwise_iff_getElem.mp h.sorted i j hin hjn hlt
    rw [List.getElem?_eq_getElem hin, Option.any_some, staysBehind]
    rw [List.getElem?_eq_getElem hjn, Option.any_some, staysBehind] at hj
    exact ne_gt_trans list.bookmarker.compare _ _ _ (bne_iff_ne.mpr hsorted) hj

/-- **Halving finds the items that follow a place**, whether the place is one of the list or not. -/
theorem Ordered.drop_position (h : list.Ordered) (place : Option Bookmark) :
    list.position place ≤ list.entries.length ∧
      list.entries.drop (list.position place) = list.following place := by
  cases place with
  | none => simp [position, following]
  | some b =>
    have hbehind : ∀ i j, i ≤ j → j < list.entries.length →
        list.entries[j]?.any (list.staysBehind b) → list.entries[i]?.any (list.staysBehind b) :=
      fun i j hij _ hj => h.staysBehind_of_le b hij hj
    obtain ⟨hle, hposition⟩ := halve_spec hbehind 0 list.entries.length (by simp)
      (fun i hi hle => by omega) (by omega)
    have hfront : (list.entries.take (list.position (some b))).filter
        (fun e => list.bookmarker.compare e.2 b == .gt) = [] := by
      simp only [List.filter_eq_nil_iff, beq_iff_eq]
      intro e he
      obtain ⟨i, hi, rfl⟩ := List.mem_take_iff_getElem.mp he
      have hstays := (hposition i (by omega)).mpr (by simp only [position] at hi; omega)
      simpa [staysBehind, List.getElem?_eq_getElem (show i < list.entries.length by omega)]
        using hstays
    have hback : (list.entries.drop (list.position (some b))).filter
        (fun e => list.bookmarker.compare e.2 b == .gt)
          = list.entries.drop (list.position (some b)) := by
      simp only [List.filter_eq_self, beq_iff_eq]
      intro e he
      obtain ⟨k, hk, rfl⟩ := List.mem_drop_iff_getElem.mp he
      have hfollows := mt (hposition _ hk).mp (by simp only [position]; omega)
      simpa [staysBehind, List.getElem?_eq_getElem hk, Nat.add_comm] using hfollows
    refine ⟨hle, ?_⟩
    rw [following]
    conv_rhs => rw [← List.take_append_drop (list.position (some b)) list.entries]
    rw [List.filter_append]
    simp only [Option.all_some]
    rw [hfront, hback, List.nil_append]

/-! ## What a list adds to a page -/

/-- Marked items that are sorted by a bookmarker, with level ones in the order given. -/
structure Arranges (bookmarker : Bookmarker α) (marked sorted : List (α × Bookmark)) : Prop where
  perm : sorted.Perm marked
  inOrder : sorted.Pairwise fun e f => bookmarker.compare e.2 f.2 ≠ .gt
  stable : ∀ b, sorted.filter (fun e => bookmarker.compare e.2 b == .eq)
    = marked.filter fun e => bookmarker.compare e.2 b == .eq

/-- Sorting arranges marked items. -/
theorem sort_arranges {bookmarker : Bookmarker α} (hstandard : bookmarker.Standard)
    {items : List α} {marked : List (α × Bookmark)} (h : mark bookmarker items = .ok marked) :
    Arranges bookmarker marked (sort bookmarker marked) where
  perm := List.mergeSort_perm _ _
  inOrder := (ordered_sort hstandard h).sorted
  stable b := by
    have := hstandard.transCmp
    have := transCmp_on bookmarker.compare fun e : α × Bookmark => e.2
    cases hlevel : marked.filter (fun e => bookmarker.compare e.2 b == .eq) with
    | nil =>
      rw [List.filter_eq_nil_iff] at hlevel ⊢
      exact fun e he => hlevel e (List.mem_mergeSort.mp he)
    | cons f rest =>
      -- What is level with the place is level with the first such entry.
      have hf : bookmarker.compare f.2 b = .eq := by
        have hmem : f ∈ marked.filter fun e => bookmarker.compare e.2 b == .eq := by simp [hlevel]
        simpa using (List.mem_filter.mp hmem).2
      have hsame : (fun e : α × Bookmark => bookmarker.compare e.2 b == .eq)
          = fun e => bookmarker.compare e.2 f.2 == .eq := by
        funext e
        rw [TransCmp.congr_right hf]
      rw [← hlevel, hsame]
      exact filter_mergeSort (fun e f : α × Bookmark => bookmarker.compare e.2 f.2) f marked

/-- The position at which a page stops that begins at `start`. Positions are counted in 64 bits, and
a sum beyond them stays at the largest count. -/
def stop (list : ItemList α) (start perPage : Nat) : Nat :=
  min (min (start + perPage) Decimal.maxCount) list.entries.length

/-- A page takes the entries between two positions of the list. -/
theorem Ordered.take_following (h : list.Ordered)
    (hcounted : list.entries.length ≤ Decimal.maxCount) (place : Option Bookmark) (perPage : Nat) :
    list.position place ≤ list.stop (list.position place) perPage ∧
      (list.following place).take perPage
        = list.entries.extract (list.position place) (list.stop (list.position place) perPage) ∧
      (perPage < (list.following place).length ↔
        list.stop (list.position place) perPage < list.entries.length) := by
  obtain ⟨hle, hdrop⟩ := h.drop_position place
  rw [← hdrop, List.length_drop, stop, List.extract_eq_take_drop]
  refine ⟨by omega, ?_, by omega⟩
  refine List.take_eq_take_iff.mpr ?_
  rw [List.length_drop]
  omega

/-- What a list adds to a page, and whether it says that more follows. -/
theorem edits_fetched (list : ItemList α) (page : Page α) :
    page.edits (list.fetched page).edits = { page with
      items := page.items ++ ((list.after page.current).take page.perPage).map (·.1)
      hasMore := page.hasMore || page.perPage < (list.after page.current).length } := by
  by_cases hmore : page.perPage < (list.after page.current).length <;>
    simp [fetched, hmore, Page.edits, Page.edit, Page.extend, Page.markMore]

/-- **A list of items adds what follows the place of a page.** Items that are all marked make a list
of the marked items in their order, level ones as they were given. On any page the list adds just
the first of the entries that follow the place where the page starts, as many as the page asks for,
and says that more follows exactly if there are more of them. The place may be one of an item, of an
item that is gone, or of another shape. The entries stand between two positions, of which the first
is found by halving, and which leave the list nowhere as long as its length is a count of 64
bits. -/
theorem fetch_adds_following {bookmarker : Bookmarker α} (hstandard : bookmarker.Standard)
    {items : List α} (hmarked : ∀ item ∈ items, ∃ b, bookmarker.bookmarkFor item = .ok b) :
    ∃ (list : ItemList α) (marked : List (α × Bookmark)), ofItems? bookmarker items = .ok list ∧
      list.bookmarker = bookmarker ∧ marked.map (·.1) = items ∧
      (∀ e ∈ marked, bookmarker.bookmarkFor e.1 = .ok e.2) ∧
      Arranges bookmarker marked list.entries ∧
      ∀ page : Page α, ∃ fetched : Fetched α,
        (∀ σ : Type, list.source.fetch page = (pure fetched : Run σ (Fetched α))) ∧
        fetched.failure = none ∧
        page.edits fetched.edits = { page with
          items := page.items ++ ((list.following page.current).take page.perPage).map (·.1)
          hasMore := page.hasMore || page.perPage < (list.following page.current).length } ∧
        (items.length ≤ Decimal.maxCount →
          list.position page.current ≤ list.stop (list.position page.current) page.perPage ∧
          (list.following page.current).take page.perPage = list.entries.extract
            (list.position page.current) (list.stop (list.position page.current) page.perPage) ∧
          (page.perPage < (list.following page.current).length ↔
            list.stop (list.position page.current) page.perPage < list.entries.length)) := by
  obtain ⟨marked, hmark⟩ : ∃ marked, mark bookmarker items = .ok marked := by
    refine exists_mapM_eq_ok fun item hitem => ?_
    obtain ⟨b, hb⟩ := hmarked item hitem
    exact ⟨(item, b), by rw [hb]; rfl⟩
  have hordered := ordered_sort hstandard hmark
  have harranges := sort_arranges hstandard hmark
  refine ⟨⟨bookmarker, sort bookmarker marked⟩, marked, by rw [ofItems?, hmark]; rfl, rfl,
    items_of_mark hmark, bookmarkFor_of_mark hmark, harranges, fun page =>
      ⟨fetched _ page, fun _ => rfl, rfl, ?_, fun hcounted => ?_⟩⟩
  · rw [edits_fetched, hordered.after_eq_following]
  · refine hordered.take_following ?_ page.current page.perPage
    rw [harranges.perm.length_eq, ← List.length_map (f := (·.1)), items_of_mark hmark]
    exact hcounted

/-- Records with a rank, of which the highest comes first, and a name. -/
def ranked : List Json :=
  [.obj [("name", .str "b"), ("rank", .int 1)], .obj [("name", .str "c"), ("rank", .int 2)],
    .obj [("name", .str "a"), ("rank", .int 2)], .obj [("name", .str "d"), ("rank", .int 3)]]

/-- The order of the ranked records. -/
def byRank : Bookmarker Json :=
  .composite [{ name := "rank", kind := .integer, direction := .descending }, { name := "name" }]

/-- A page for two records after a tuple that has no name, and so is no place of a ranked record. -/
def nameless : Page Json where
  perPage := 2
  current := some (.tuple [.int 2])
  perPage_pos := Nat.two_pos

/-- After a tuple without a name a page starts with the first record of its rank. -/
theorem ranked_fetched :
    ∃ list : ItemList Json, ofItems? byRank ranked = .ok list ∧
      ∃ fetched, list.source.fetch nameless = (pure fetched : Run Unit (Fetched Json)) ∧
        nameless.edits fetched.edits = { nameless with
          items := [.obj [("name", .str "a"), ("rank", .int 2)],
            .obj [("name", .str "c"), ("rank", .int 2)]]
          hasMore := true } := by
  have hstandard : byRank.Standard := .composite _
  have hmarked : ∀ item ∈ ranked, ∃ b, byRank.bookmarkFor item = .ok b := by
    simp only [ranked, List.mem_cons, List.not_mem_nil, or_false, forall_eq_or_imp, forall_eq]
    refine ⟨?_, ?_, ?_, ?_⟩ <;> exact ⟨_, rfl⟩
  obtain ⟨list, marked, hlist, -, -, -, -, hfetch⟩ := fetch_adds_following hstandard hmarked
  obtain ⟨fetched, hfetched, -, hedits, -⟩ := hfetch nameless
  refine ⟨list, hlist, fetched, hfetched Unit, hedits.trans ?_⟩
  have hfollowing : (ofItems? byRank ranked).map (fun list => list.following nameless.current)
      = .ok [(.obj [("name", .str "a"), ("rank", .int 2)], .tuple [.int 2, .text "a"]),
          (.obj [("name", .str "c"), ("rank", .int 2)], .tuple [.int 2, .text "c"]),
          (.obj [("name", .str "b"), ("rank", .int 1)], .tuple [.int 1, .text "b"])] := by
    cbv
  rw [hlist] at hfollowing
  rw [show list.following nameless.current = _ from Except.ok.inj hfollowing]
  rfl

end ItemList

end KeysetPaging
