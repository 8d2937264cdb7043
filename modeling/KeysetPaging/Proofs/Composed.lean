import KeysetPaging.Proofs.Boxes
import Mathlib

/-! # Merges of orderly collections

A merge compares bookmarks. Where its sources are lists, these are the keys of the items, but of a
concatenation or of another merge they are cursors, in which labels come before keys. So orderly
sources do not make an orderly merge. They do if the bookmarks of different sources agree with the
keys: whatever goes before another item by its bookmark does not come after it by its key. It takes
sources that are sorted from every place that they hand out, and not from their beginning only.
-/

namespace KeysetPaging

variable {σ α : Type} {direction : Direction} {key : α → Bookmark}

/-! ## Lanes -/

/-- These items are read from a lane on: what it holds is sorted together with what comes after it,
which is nothing when its source has ended, and is shown. -/
structure Lane.Leads (direction : Direction) (key : α → Bookmark) (shown : α × Bookmark → Prop)
    (lane : Lane α) (items : List α) : Prop where
  held : ∃ rest, items.Perm (lane.buffer.map (·.1) ++ rest) ∧ (lane.hasMore = false → rest = []) ∧
    direction.SortsBy key (lane.buffer.map (·.1) ++ rest)
  shows : ∀ e ∈ lane.buffer, shown e

namespace Lane.Leads

variable {shown : α × Bookmark → Prop} {lane : Lane α} {items : List α}

/-- A lane that gives its front leads what comes after it. -/
theorem advance {e : α × Bookmark} {rest : List (α × Bookmark)}
    (h : lane.Leads direction key shown (e.1 :: items)) (hbuffer : lane.buffer = e :: rest) :
    lane.advance.Leads direction key shown items := by
  obtain ⟨⟨more, hperm, hmore, hsorts⟩, hshows⟩ := h
  obtain ⟨label, place, buffer, hasMore, resumeAt⟩ := lane
  obtain rfl : buffer = e :: rest := hbuffer
  refine ⟨⟨more, ?_, hmore, ?_⟩, fun f hf => hshows f (List.mem_cons_of_mem e hf)⟩
  · simpa [Lane.advance] using hperm
  · exact (List.pairwise_cons.mp hsorts).2

/-- The front of a lane that is not starved does not come after anything that is read from the
lane on. -/
theorem front_le (h : lane.Leads direction key shown items) (hfed : lane.isStarved = false) {x : α}
    (hx : x ∈ items) : ∃ g, lane.buffer.head? = some g ∧ shown g ∧
      direction.order (key g.1) (key x) ≠ .gt := by
  obtain ⟨⟨more, hperm, hmore, hsorts⟩, hshows⟩ := h
  have hx := hperm.mem_iff.mp hx
  obtain ⟨label, place, buffer, hasMore, resumeAt⟩ := lane
  cases buffer with
  | nil =>
    -- The lane holds nothing and its source has ended, so nothing is read from it.
    obtain rfl : hasMore = false := by simpa [isStarved] using hfed
    obtain rfl := hmore rfl
    cases hx
  | cons g buffer =>
    refine ⟨g, rfl, hshows g List.mem_cons_self, ?_⟩
    rcases List.mem_cons.mp hx with rfl | hx
    · simp [Std.ReflCmp.compare_self]
    · exact (List.pairwise_cons.mp hsorts).1 x hx

end Lane.Leads

/-- Of what different sources show, nothing whose bookmark goes before another one comes after it by
its key. -/
def Direction.Agrees (direction : Direction) (key : α → Bookmark)
    (shown : Nat → α × Bookmark → Prop) : Prop :=
  ∀ i k, i ≠ k → ∀ e f, shown i e → shown k f →
    Merge.Precedes direction (i, e.2) (k, f.2) → direction.order (key e.1) (key f.1) ≠ .gt

/-- The items of the turns are sorted. -/
def Turns.SortedBy (direction : Direction) (key : α → Bookmark) (turns : Turns α) : Prop :=
  direction.SortsBy key (turns.map (·.2.1))

/-- **Lanes whose bookmarks agree with the keys take turns in the order of the keys.** -/
theorem Merge.turns_sortedBy {shown : Nat → α × Bookmark → Prop}
    (hagrees : direction.Agrees key shown) (room : Nat) {lanes : List (Lane α)} {later : Turns α}
    (hlater : ∀ turn ∈ later, turn.1 < lanes.length)
    (hleads : ∀ (i : Nat) (lane : Lane α), lanes[i]? = some lane →
      lane.Leads direction key (shown i)
        (((turns direction room lanes ++ later).share i).map (·.1)))
    (hsorted : later.SortedBy direction key) :
    (turns direction room lanes ++ later).SortedBy direction key := by
  rw [Turns.SortedBy, Direction.SortsBy, List.pairwise_map] at hsorted ⊢
  refine turns_pairwise (H := fun i lane es => lane.Leads direction key (shown i) (es.map (·.1)))
    Lane.Leads.advance ?_ room hlater hleads hsorted
  intro i k lane other e f rest es fs hlane hbuffer hother hf hfed hsame hleast
  obtain ⟨g, hg, hshown, hle⟩ := hother.front_le hfed (List.mem_map_of_mem hf)
  by_cases hik : i = k
  · -- Both turns are of the lane that is picked.
    obtain rfl := hsame hik
    obtain rfl : e = g := by simpa [hbuffer] using hg
    exact hle
  · have hshown' : shown i e := hlane.shows e (by rw [hbuffer]; exact List.mem_cons_self)
    have hfirst := hagrees i k hik e g hshown' hshown (hleast g hg)
    exact Ordering.isLE_iff_ne_gt.mp (Std.TransCmp.isLE_trans
      (Ordering.isLE_iff_ne_gt.mpr hfirst) (Ordering.isLE_iff_ne_gt.mpr hle))

/-! ## The branches of a merge -/

namespace Branches

theorem courses_eq : ∀ {labels : List String} (branches : Branches labels α),
    branches.courses = branches.trees.map fun lane => (lane.1, lane.2.course)
  | _, .nil => rfl
  | _, .cons _ _ rest => by rw [courses, trees, List.map_cons, courses_eq rest]

/-- No tree in a row nests deeper than the row. -/
theorem levels_le_of_mem : ∀ {labels : List String} {branches : Branches labels α}
    {lane : String × Tree α}, lane ∈ branches.trees → lane.2.levels ≤ branches.levels
  | _, .cons label tree rest, lane, h => by
    rw [levels]
    rcases List.mem_cons.mp h with rfl | h
    · exact Nat.le_max_left _ _
    · exact Nat.le_trans (levels_le_of_mem h) (Nat.le_max_right _ _)

/-- A row follows the courses that its trees follow. -/
theorem follow_of_trees {f : String × Tree α → Course α} : ∀ {labels : List String}
    {branches : Branches labels α},
    (∀ lane ∈ branches.trees, (lane.2.collection σ).supply.Follows (f lane)) →
      (branches.sources σ).Follow (branches.trees.map fun lane => (lane.1, f lane))
  | _, .nil, _ => .nil
  | _, .cons _ _ _, h =>
    .cons (h _ List.mem_cons_self) (follow_of_trees fun lane hlane =>
      h lane (List.mem_cons_of_mem _ hlane))

/-- A row keeps the places that its trees keep. -/
theorem keep_of_trees {Q : String → Option Bookmark → Prop} : ∀ {labels : List String}
    {branches : Branches labels α},
    (∀ lane ∈ branches.trees,
      Q lane.1 none ∧ (lane.2.collection σ).supply.Keeps fun b => Q lane.1 (some b)) →
      (branches.sources σ).Keep Q
  | _, .nil, _ => trivial
  | _, .cons _ _ _, h =>
    ⟨h _ List.mem_cons_self, keep_of_trees fun lane hlane => h lane (List.mem_cons_of_mem _ hlane)⟩

/-- The places that the trees of a row hand out, under their labels. -/
def Hands (σ : Type) {labels : List String} (branches : Branches labels α) (label : String)
    (position : Option Bookmark) : Prop :=
  ∀ lane ∈ branches.trees, lane.1 = label → (lane.2.collection σ).Hands position

/-- A row of trees under labels that differ keeps to the places that the trees hand out. -/
theorem keep_hands {labels : List String} {branches : Branches labels α} (hlabels : labels.Nodup) :
    (branches.sources σ).Keep (branches.Hands σ) := by
  refine keep_of_trees fun lane hlane => ⟨fun _ _ _ => .start, ?_⟩
  -- Only this tree has its label.
  have hunique : ∀ other ∈ branches.trees, other.1 = lane.1 → other = lane := by
    intro other hother heq
    exact List.inj_on_of_nodup_map (by rwa [labels_trees]) hother hlane heq
  have hhands : (fun b => branches.Hands σ lane.1 (some b))
      = fun b => (lane.2.collection σ).Hands (some b) := by
    funext b
    refine propext ⟨fun h => h lane hlane rfl, fun h other hother heq => ?_⟩
    rwa [hunique other hother heq]
  rw [hhands]
  exact Collection.keeps_hands (lane.2.keeps_levels σ (Nat.le_refl _))

end Branches

/-! ## Merges of orderly trees -/

/-- A lane of an orderly tree leads what is read from its place, if the tree hands out that place
and the one at which it resumes. -/
theorem Lane.Answers.leads [Nonempty σ] {t : Tree α} (hlevels : t.levels ≤ 127)
    (horderly : (t.collection σ).Orderly direction key) {lane : Lane α}
    (h : lane.Answers (t.course.orderly direction key (t.collection σ)))
    (hplace : (t.collection σ).Hands lane.place)
    (hresume : ∀ b ∈ lane.resumeAt, (t.collection σ).Hands (some b)) {zs : List (α × Bookmark)}
    (hzs : (t.course.orderly direction key (t.collection σ) lane.place).Reads zs) :
    lane.Leads direction key (t.collection σ).Shows (zs.map (·.1)) := by
  have hkeeps := t.keeps σ hlevels
  have hfollows := horderly.follows t.settled (t.follows σ) hkeeps fun _ hb => hb
  obtain ⟨ws, hws⟩ : ∃ ws, ((t.course.orderly direction key (t.collection σ)).ahead
      lane.resumeAt).Reads ws :=
    Collection.exists_reads_ahead hfollows hkeeps (fun _ hb => hb)
      fun b hb => (hresume b hb).of_keeps hkeeps b rfl
  have hread := h.covers.goes ws hws
  obtain ⟨hsorts, hshows⟩ := hread.2 hplace
  obtain ⟨items, hitems⟩ := t.settled lane.place
  rw [List.map_append] at hsorts
  refine ⟨⟨ws.map (·.1), ?_, fun hends => ?_, hsorts⟩, fun e he =>
    hshows e (List.mem_append_left ws he)⟩
  · rw [← List.map_append]
    exact (hitems _ hzs.1).trans (hitems _ hread.1).symm
  · have hresume : lane.resumeAt = none := by
      rw [h.goesOn] at hends
      simpa using hends
    rw [hresume] at hws
    obtain rfl : ws = [] := hws
    rfl

namespace Branches

variable {labels : List String} (branches : Branches labels α)

/-- The bookmarks that the trees of a row show agree with the keys of their items. -/
def Agree (σ : Type) (direction : Direction) (key : α → Bookmark) : Prop :=
  direction.Agrees key fun i e => ∃ lane, branches.trees[i]? = some lane ∧
    (lane.2.collection σ).Shows e

/-- What is read of orderly trees, each from the places that it hands out. -/
def orderlyCourses (σ : Type) (direction : Direction) (key : α → Bookmark) :
    List (String × Course α) :=
  branches.trees.map fun lane =>
    (lane.1, lane.2.course.orderly direction key (lane.2.collection σ))

/-- What is read of orderly trees from their starts are their items. -/
theorem gathers_orderlyCourses : ∀ {labels : List String} (branches : Branches labels α),
    List.Forall₂ (fun course items => (course.2 none).Gathers items)
      (branches.orderlyCourses σ direction key) branches.items
  | _, .nil => .nil
  | _, .cons _ tree rest =>
    .cons (fun zs hzs => tree.gathers zs hzs.1) rest.gathers_orderlyCourses

variable {branches}

@[simp] theorem labels_orderlyCourses :
    (branches.orderlyCourses σ direction key).map (·.1) = labels := by
  simp [orderlyCourses, Function.comp_def]

theorem getElem?_orderlyCourses {i : Nat} {lane : String × Tree α}
    (h : branches.trees[i]? = some lane) : (branches.orderlyCourses σ direction key)[i]?
      = some (lane.1, lane.2.course.orderly direction key (lane.2.collection σ)) := by
  rw [orderlyCourses, List.getElem?_map, h]
  rfl

/-- **Lanes of orderly trees whose bookmarks agree with the keys are ready to take turns in the
order of the keys.** -/
theorem ready [Nonempty σ] (hlevels : branches.levels ≤ 127)
    (horderly : ∀ lane ∈ branches.trees, (lane.2.collection σ).Orderly direction key)
    (hagree : branches.Agree σ direction key) {lanes : List (Lane α)}
    (hasked : Merge.Asked (branches.orderlyCourses σ direction key) lanes)
    (hwithin : ∀ lane ∈ lanes, lane.Within (branches.Hands σ)) :
    Merge.Ready direction (Turns.SortedBy direction key)
      (branches.orderlyCourses σ direction key) lanes where
  asked := hasked
  fits room later hlater hreads hsorted := by
    have hlength : branches.trees.length = lanes.length := by
      simpa [orderlyCourses] using List.Forall₂.length_eq hasked
    refine Merge.turns_sortedBy hagree room (by simpa [orderlyCourses, hlength] using hlater)
      (fun i lane hlane => ?_) hsorted
    obtain ⟨hi, -⟩ := List.getElem?_eq_some_iff.mp hlane
    obtain ⟨tree, htree⟩ : ∃ tree, branches.trees[i]? = some tree :=
      ⟨_, List.getElem?_eq_getElem (by omega)⟩
    have hmem := List.mem_of_getElem? htree
    have hcourse : (branches.orderlyCourses σ direction key)[i]? = _ :=
      getElem?_orderlyCourses htree
    have hlabel : tree.1 = lane.label := by
      have hlabels : (lanes.map (·.label))[i]?
          = ((branches.orderlyCourses σ direction key).map (·.1))[i]? := by rw [hasked.labels]
      rw [List.getElem?_map, List.getElem?_map, hlane, hcourse] at hlabels
      exact (Option.some.inj hlabels).symm
    have hplaces := hwithin lane (List.mem_of_getElem? hlane)
    have hleads := (hasked.answers hcourse hlane).leads
      (Nat.le_trans (levels_le_of_mem hmem) hlevels) (horderly _ hmem)
      (hplaces.place _ hmem hlabel) (fun b hb => hplaces.resumes b hb _ hmem hlabel)
      (hreads i _ lane hcourse hlane)
    rw [Turns.share_append]
    exact ⟨hleads.held, fun e he => ⟨_, htree, hleads.shows e he⟩⟩

/-- Asked at places that they hand out, orderly trees answer with lanes that are ready. -/
theorem lanes_ready [Nonempty σ] (hlabels : labels.Nodup) (hlevels : branches.levels ≤ 127)
    (horderly : ∀ lane ∈ branches.trees, (lane.2.collection σ).Orderly direction key)
    (hagree : branches.Agree σ direction key) {known : List (String × Option Bookmark)}
    (hknown : ∀ p ∈ known, ∀ b ∈ p.2, branches.Hands σ p.1 (some b)) {perPage : Nat}
    (hperPage : 0 < perPage) :
    Run.Ensures ((branches.sources σ).lanes known perPage) fun answer =>
      ∃ lanes, answer = .ok lanes ∧ Merge.Ready direction (Turns.SortedBy direction key)
        (branches.orderlyCourses σ direction key) lanes ∧
          List.Forall₂ (fun course lane => lane.place = (known.lookup course.1).join)
            (branches.orderlyCourses σ direction key) lanes := by
  have hfollow : (branches.sources σ).Follow (branches.orderlyCourses σ direction key) := by
    refine follow_of_trees fun lane hlane => ?_
    exact (horderly lane hlane).follows lane.2.settled (lane.2.follows σ)
      (lane.2.keeps σ (Nat.le_trans (levels_le_of_mem hlane) hlevels)) fun _ hb => hb
  refine ((Sources.lanes_follow hfollow known hperPage).and
    ((branches.sources σ).lanes_keeps known perPage (keep_hands hlabels) hknown)).mono ?_
  rintro _ ⟨⟨lanes, rfl, hlanes⟩, hwithin⟩
  exact ⟨lanes, rfl, ready hlevels horderly hagree (hlanes.imp fun _ _ h => ⟨h.1, h.2.2⟩)
    (hwithin lanes rfl), hlanes.imp fun _ _ h => h.2.1⟩

end Branches

namespace Tree

variable {labels : List String} {branches : Branches labels α}
  (labelled : checkLabels .merge labels = .ok ())

/-- A place that a merge accepts, that nests no deeper than a token can, and that is made of places
which the sources of the merge hand out. -/
def Joint (σ : Type) (t : Tree α) (branches : Branches labels α) (b : Bookmark) : Prop :=
  ((t.collection σ).accepts b ∧ b.levels ≤ 127) ∧
    ∀ p ∈ Course.known (some b), branches.Hands σ p.1 p.2

/-- A merge keeps to places that are made of places which its sources hand out. -/
theorem merge_keeps (hlevels : (merge branches direction labelled).levels ≤ 127) :
    ((merge branches direction labelled).collection σ).supply.Keeps
      ((merge branches direction labelled).Joint σ branches) := by
  refine ((merge branches direction labelled).keeps σ hlevels).and ?_
  refine Merge.keeps direction (Branches.keep_hands (nodup_of_checkLabels labelled))
    (fun ps h => h) ?_
  rintro ps h ⟨label, _⟩ hp b rfl
  exact h _ hp

/-- **A merge of orderly trees answers along the course on which turns are sorted**, if the
bookmarks that the trees show agree with the keys. -/
theorem merge_gives (hlevels : (merge branches direction labelled).levels ≤ 127)
    (horderly : ∀ lane ∈ branches.trees, (lane.2.collection σ).Orderly direction key)
    (hagree : branches.Agree σ direction key) :
    ((merge branches direction labelled).collection σ).supply.Gives
      ((merge branches direction labelled).Joint σ branches)
      fun place page => page.Answers (Course.merge (Turns.SortedBy direction key)
        (branches.orderlyCourses σ direction key)) place := by
  have hlevels' : branches.levels ≤ 127 := by
    rw [levels] at hlevels
    omega
  have hlabels : labels.Nodup := nodup_of_checkLabels labelled
  intro perPage place hperPage hplace j
  have : Nonempty σ := ⟨j.state⟩
  have hknown : ∀ p ∈ Course.known place, ∀ b ∈ p.2, branches.Hands σ p.1 (some b) := by
    rintro ⟨label, _⟩ hp b rfl
    cases place with
    | none => cases hp
    | some c => exact (hplace c rfl).2 _ hp
  have hlanes := Branches.lanes_ready hlabels hlevels' horderly hagree hknown hperPage
  have hnodup : ((branches.orderlyCourses σ direction key).map (·.1)).Nodup := by
    rwa [Branches.labels_orderlyCourses]
  obtain ⟨page, hpage, hanswers⟩ := Merge.answers hperPage hnodup .nil hlanes j
  obtain ⟨hwithin, hcurrent⟩ := merge_keeps labelled hlevels perPage place hplace j page hpage
  exact ⟨page, hpage, hwithin, hcurrent, hanswers⟩

/-- What turns that are sorted read is sorted. -/
theorem sortsBy_of_reads {courses : List (String × Course α)} {place : Option Bookmark}
    {zs : List (α × Bookmark)}
    (h : (Course.merge (Turns.SortedBy direction key) courses place).Reads zs) :
    direction.SortsBy key (zs.map (·.1)) := by
  obtain ⟨turns, hzs, -, -, hsorted⟩ := h
  rw [hzs]
  exact hsorted

/-- **A merge of orderly trees is orderly** if the bookmarks that the trees show agree with the
keys. So it can be a source of another merge. -/
theorem merge_orderly (hlevels : (merge branches direction labelled).levels ≤ 127)
    (horderly : ∀ lane ∈ branches.trees, (lane.2.collection σ).Orderly direction key)
    (hagree : branches.Agree σ direction key) :
    ((merge branches direction labelled).collection σ).Orderly direction key :=
  Collection.orderly_of_reads (merge_gives labelled hlevels horderly hagree)
    (merge_keeps labelled hlevels) (fun _ hb => hb.1) fun _ _ _ => sortsBy_of_reads

end Tree

/-! ## Merges of boxes -/

/-- **Boxes with one label agree with the keys**, since their bookmarks differ in nothing else. -/
theorem Branches.agree_of_boxes {labels : List String} {branches : Branches labels α}
    (label : String) (hlabel : label ≠ "")
    (h : ∀ lane ∈ branches.trees, ∃ shelf, lane.2 = Tree.boxed label hlabel shelf ∧
      lane.2.levels ≤ 127 ∧ shelf.KeyedBy direction key) :
    branches.Agree σ direction key := by
  have hshows : ∀ {i : Nat} {e : α × Bookmark}, (∃ lane, branches.trees[i]? = some lane ∧
      (lane.2.collection σ).Shows e) → e.2 = Concat.place label (key e.1) := by
    rintro i e ⟨⟨name, tree⟩, hlane, he⟩
    obtain ⟨shelf, rfl, hlevels, hkeyed⟩ := h _ (List.mem_of_getElem? hlane)
    exact Tree.boxed_shows hlabel hlevels hkeyed he
  intro i k _ e f he hf hprecedes
  rw [Merge.Precedes, hshows he, hshows hf, Direction.order_place] at hprecedes
  rcases hprecedes with hlt | ⟨heq, -⟩
  · simp [hlt]
  · simp [heq]

/-- Four letters in two boxes. -/
def Branches.letterBoxes (left right : String) (hleft : left ≠ "") (hright : right ≠ "") :
    Branches ["left", "right"] String :=
  .cons "left" (.boxed left hleft (.letters "a" "e" (by decide)))
    (.cons "right" (.boxed right hright (.letters "b" "d" (by decide))) .nil)

/-- The boxes are orderly, whatever their labels. -/
theorem Branches.letterBoxes_orderly {left right : String} (hleft : left ≠ "")
    (hright : right ≠ "") : ∀ lane ∈ (letterBoxes left right hleft hright).trees,
      (lane.2.collection σ).Orderly .ascending .text := by
  intro lane hlane
  rcases List.mem_cons.mp hlane with rfl | hlane
  · exact Tree.boxed_orderly hleft (by rw [Tree.levels_boxed]; decide) (Shelf.letters_keyedBy _)
  · obtain rfl := List.mem_singleton.mp hlane
    exact Tree.boxed_orderly hright (by rw [Tree.levels_boxed]; decide) (Shelf.letters_keyedBy _)

/-! ## Walks -/

/-- **A walk through a merge of orderly trees is sorted by the key.** -/
theorem Tree.merge_walk_sorted {labels : List String} {branches : Branches labels α}
    (labelled : checkLabels .merge labels = .ok ())
    (hlevels : (merge branches direction labelled).levels ≤ 127)
    (horderly : ∀ lane ∈ branches.trees, (lane.2.collection σ).Orderly direction key)
    (hagree : branches.Agree σ direction key) {sizes : Nat → Nat} (hsizes : ∀ n, 0 < sizes n)
    {most : Nat} (hmost : ((merge branches direction labelled).course none).left < most) :
    Run.Ensures (((merge branches direction labelled).collection σ).walkBy sizes most none)
      fun walk => walk.failure = none ∧ walk.finished = true ∧
        walk.items.Perm (merge branches direction labelled).items ∧
          direction.SortsBy key walk.items := by
  have hleft : (Course.merge (Turns.SortedBy direction key)
      (branches.orderlyCourses σ direction key) none).left
        = ((merge branches direction labelled).course none).left := by
    rw [course, branches.courses_eq]
    simp [Course.merge, Remainder.weave, Branches.orderlyCourses, Course.orderly,
      Function.comp_def]
  refine (Collection.walkBy_readsAll (merge_gives labelled hlevels horderly hagree)
    (fun _ hb => hb.1) hsizes most (by simp [Collection.startOf])).mono ?_
  intro walk hwalk
  obtain ⟨hunfailing, hfinished, -, zs, hzs, hitems⟩ := hwalk (by rwa [← hleft] at hmost)
  rw [hitems]
  refine ⟨hunfailing, hfinished, ?_, sortsBy_of_reads hzs⟩
  rw [items]
  exact Course.gathers_merge _ branches.gathers_orderlyCourses zs hzs

/-- Under different labels all letters of one box come before all letters of the other, although
each box alone is read in the order of the alphabet. -/
theorem Branches.letterBoxes_unsorted :
    (∀ lane ∈ (letterBoxes "x" "y" (by decide) (by decide)).trees,
      (lane.2.collection Unit).Orderly .ascending .text) ∧
    ¬ Run.Ensures (((Tree.merge (letterBoxes "x" "y" (by decide) (by decide)) .ascending
      rfl).collection Unit).walk 4 2 none) fun walk =>
        Direction.SortsBy .ascending .text walk.items := by
  refine ⟨letterBoxes_orderly _ _, fun h => ?_⟩
  have hitems : (((Tree.merge (letterBoxes "x" "y" (by decide) (by decide)) .ascending
      rfl).collection Unit).walk 4 2 none ⟨[], ()⟩).1.items = ["a", "e", "b", "d"] := by
    have hae : (Shelf.letters "a" "e" (by decide)).list = _ := Shelf.list_letters _ (by decide)
    have hbd : (Shelf.letters "b" "d" (by decide)).list = _ := Shelf.list_letters _ (by decide)
    simp only [letterBoxes, Tree.collection, Tree.boxed, sources, Shelf.collection, hae, hbd]
    decide +kernel
  have hsorted : Direction.SortsBy .ascending .text ["a", "e", "b", "d"] := by
    rw [← hitems]
    exact h ⟨[], ()⟩
  simp [Direction.SortsBy, Direction.order, Direction.apply, Bookmark.compare, compareText,
    compareChars, compareInt] at hsorted

/-- Under one label the letters of both boxes are read in the order of the alphabet. -/
theorem Branches.letterBoxes_sorted :
    Run.Ensures (((Tree.merge (letterBoxes "x" "x" (by decide) (by decide)) .ascending
      rfl).collection Unit).walkBy (· + 1) ((Tree.course (.merge
        (letterBoxes "x" "x" (by decide) (by decide)) .ascending rfl) none).left + 1) none)
      fun walk => walk.failure = none ∧ walk.finished = true ∧
        walk.items.Perm ["a", "e", "b", "d"] ∧ Direction.SortsBy .ascending .text walk.items := by
  refine Tree.merge_walk_sorted rfl ?_ (letterBoxes_orderly _ _) ?_ (fun n => Nat.succ_pos n)
    (Nat.lt_succ_self _)
  · decide
  · refine agree_of_boxes "x" (by decide) fun lane hlane => ?_
    rcases List.mem_cons.mp hlane with rfl | hlane
    · exact ⟨_, rfl, by decide, Shelf.letters_keyedBy _⟩
    · obtain rfl := List.mem_singleton.mp hlane
      exact ⟨_, rfl, by decide, Shelf.letters_keyedBy _⟩

/-! ## Sorted from the beginning only

A merge asks a lane again at the place of the last item that it took, in the middle of a page of the
lane, where no walk of the lane itself would ask. A lane that is a merge of merges may be sorted
from its beginning and not from there.
-/

/-- A walk through a tree from its beginning gives what the tree gives page by page. -/
theorem Tree.walk_items (t : Tree α) (hlevels : t.levels ≤ 127) {perPage : Nat}
    (hperPage : 0 < perPage) (j : Journal σ) (most : Nat) :
    Run.Ensures ((t.collection σ).walk perPage most none) fun walk => walk.items
      = ((t.collection σ).supply.pagesFrom j perPage most none).flatMap (·.items) := by
  refine (Collection.walk_pages (t.steady σ) (t.keeps σ hlevels) (fun _ hb => hb) hperPage j most
    none (by simp)).mono fun walk hpages => ?_
  rw [Walk.items, hpages]

/-- A walk is sorted, however soon it stops, if the items of some more pages are. -/
theorem Tree.walk_sortsBy (t : Tree α) (hlevels : t.levels ≤ 127) {perPage : Nat}
    (hperPage : 0 < perPage) (j : Journal σ) (most more : Nat)
    (h : direction.SortsBy key
      (((t.collection σ).supply.pagesFrom j perPage (most + more) none).flatMap (·.items))) :
    Run.Ensures ((t.collection σ).walk perPage most none) fun walk =>
      direction.SortsBy key walk.items := by
  refine (t.walk_items hlevels hperPage j most).mono fun walk hitems => ?_
  obtain ⟨rest, hrest⟩ := (t.collection σ).supply.pagesFrom_prefix more most none
  rw [← hrest, List.flatMap_append] at h
  rw [hitems]
  exact (List.pairwise_append.mp h).1

/-- Truth values are sorted with the falsehoods first. -/
theorem Direction.sortsBy_bool {items : List Bool} :
    Direction.ascending.SortsBy .bool items ↔ items.Pairwise (· ≤ ·) := by
  have horder : ∀ a b : Bool, Direction.ascending.order (.bool a) (.bool b) ≠ .gt ↔ a ≤ b := by
    intro a b
    cases a <;> cases b <;> simp [order, apply, Bookmark.compare, compareInt]
  simp only [SortsBy, horder]

/-- The places of a merge are merges. -/
theorem Tree.exists_merge_of_accepts {labels : List String} {branches : Branches labels α}
    {labelled : checkLabels .merge labels = .ok ()} {b : Bookmark}
    (h : ((merge branches direction labelled).collection σ).accepts b) : ∃ ps, b = .merge ps := by
  cases b with
  | merge ps => exact ⟨ps, rfl⟩
  | null | bool | int | text | time | tuple | concat =>
    simp [Tree.collection, Collection.accepts] at h

/-- At most one truth value as a list of items, marked by itself. -/
def Shelf.truth (truth? : Option Bool) : Shelf Bool where
  bookmarker := .key .bool Bookmarker.acceptsKey .ascending
  items := truth?.toList
  marked := truth?.toList.map fun b => (b, .bool b)
  standard := .key _ _ _
  mark_eq := by cases truth? <;> rfl
  distinct := by cases truth? <;> simp
  accepted := by cases truth? <;> simp [Bookmarker.key, Bookmarker.acceptsKey, Bookmark.isScalar]

theorem Shelf.list_truth (truth? : Option Bool) :
    (truth truth?).list = ⟨(truth truth?).bookmarker, (truth truth?).marked⟩ := by
  cases truth? <;> simp [list, ItemList.sort, truth]

theorem Tree.truth_items {perPage : Nat} (hperPage : 0 < perPage) (most : Nat) :
    (((leaf (.truth (some false))).collection Unit).supply.pagesFrom ⟨[], ()⟩ perPage (most + 1)
      none).flatMap (·.items) = [false] := by
  simp only [Tree.collection, Shelf.collection, Shelf.list_truth]
  rcases perPage with - | - | n
  · exact absurd hperPage (Nat.lt_irrefl 0)
  all_goals cbv

/-- A merge of two merges of concatenations, with one truth among six values. -/
def Tree.askew : Tree Bool :=
  .merge (.cons "y" (.merge
        (.cons "x" (.concat (.cons "b" (.leaf (.truth (some false)))
          (.cons "c" (.leaf (.truth none)) .nil)) rfl)
        (.cons "z" (.concat (.cons "a" (.leaf (.truth (some false)))
          (.cons "b" (.leaf (.truth (some true))) .nil)) rfl) .nil)) .ascending rfl)
    (.cons "x" (.merge
        (.cons "x" (.concat (.cons "a" (.leaf (.truth (some false)))
          (.cons "b" (.leaf (.truth (some false)))
            (.cons "c" (.leaf (.truth none)) .nil))) rfl)
        (.cons "y" (.concat (.cons "c" (.leaf (.truth (some false))) .nil) rfl) .nil))
      .ascending rfl) .nil)) .ascending rfl

/-- From the beginning the truth comes last, whatever the size of the pages. -/
theorem Tree.askew_items {perPage : Nat} (hperPage : 0 < perPage) (most : Nat) :
    ((askew.collection Unit).supply.pagesFrom ⟨[], ()⟩ perPage (most + 7) none).flatMap (·.items)
      = [false, false, false, false, false, true] := by
  simp only [askew, Tree.collection, Branches.sources, Shelf.collection, Shelf.list_truth]
  -- Where a page has room for more than all the items, how much more is of no account.
  rcases perPage with - | - | - | - | - | - | - | n
  · exact absurd hperPage (Nat.lt_irrefl 0)
  all_goals cbv

/-- One falsehood in front of such a merge. -/
def Branches.besideAskew : Branches ["first", "askew"] Bool :=
  .cons "first" (.leaf (.truth (some false))) (.cons "askew" .askew .nil)

/-- On pages of two, a falsehood comes last. -/
theorem Branches.besideAskew_items :
    (((Tree.merge besideAskew .ascending rfl).collection Unit).supply.pagesFrom ⟨[], ()⟩ 2 4
      none).flatMap (·.items) = [false, false, false, false, false, true, false] := by
  simp only [besideAskew, Tree.askew, Tree.collection, sources, Shelf.collection, Shelf.list_truth]
  cbv

/-- What is in front is the least value, and its bookmark goes before those of the merge. -/
theorem Branches.besideAskew_agree : besideAskew.Agree Unit .ascending .bool := by
  have hfirst : ∀ e, ((Tree.leaf (.truth (some false))).collection Unit).Shows e →
      e = (false, .bool false) := by
    intro e he
    have hlevels : (Tree.leaf (.truth (some false))).levels ≤ 127 := by decide
    obtain ⟨place, zs, -, hzs, hmem⟩ := he.exists_reads (Tree.follows Unit _)
      (Tree.keeps Unit _ hlevels) fun _ hb => hb
    rw [Tree.course, Shelf.course_eq] at hzs
    obtain rfl := hzs
    have hentry := ItemList.mem_entries_of_mem_after hmem
    rw [Shelf.list_truth] at hentry
    simpa [Shelf.truth] using hentry
  have haskew : ∀ e, (Tree.askew.collection Unit).Shows e → ∃ ps, e.2 = .merge ps := by
    intro e he
    have hlevels : Tree.askew.levels ≤ 127 := by decide
    exact Tree.exists_merge_of_accepts (he.of_keeps (Tree.askew.keeps Unit hlevels)).1
  rintro i k hne e f ⟨lane, hlane, he⟩ ⟨other, hother, hf⟩ hprecedes
  rcases i with - | - | i
  · obtain rfl := Option.some.inj hlane
    rw [hfirst e he]
    cases f.1 <;> simp [Direction.order, Direction.apply, Bookmark.compare, compareInt]
  · rcases k with - | - | k
    · obtain rfl := Option.some.inj hlane
      obtain rfl := Option.some.inj hother
      obtain ⟨ps, hps⟩ := haskew e he
      simp [Merge.Precedes, hps, hfirst f hf, Direction.order, Direction.apply, Bookmark.compare,
        Bookmark.rank, compareInt] at hprecedes
    · exact absurd rfl hne
    · cases hother
  · cases hlane

/-- **Lanes that are sorted from their beginning are not enough.** With pages of every size both of
these are, their bookmarks agree with the keys, and yet a truth comes before a falsehood in their
merge. -/
theorem Branches.besideAskew_unsorted :
    (∀ lane ∈ besideAskew.trees, ∀ perPage most, 0 < perPage →
      Run.Ensures ((lane.2.collection Unit).walk perPage most none) fun walk =>
        Direction.SortsBy .ascending .bool walk.items) ∧
    besideAskew.Agree Unit .ascending .bool ∧
    ¬ Run.Ensures (((Tree.merge besideAskew .ascending rfl).collection Unit).walk 2 4 none)
      fun walk => Direction.SortsBy .ascending .bool walk.items := by
  refine ⟨fun lane hlane perPage most hperPage => ?_, besideAskew_agree, fun h => ?_⟩
  · rcases List.mem_cons.mp hlane with rfl | hlane
    · refine Tree.walk_sortsBy _ (by decide) hperPage ⟨[], ()⟩ most 1 ?_
      rw [Tree.truth_items hperPage]
      exact List.pairwise_singleton _ _
    · obtain rfl := List.mem_singleton.mp hlane
      refine Tree.askew.walk_sortsBy (by decide) hperPage ⟨[], ()⟩ most 7 ?_
      rw [Tree.askew_items hperPage, Direction.sortsBy_bool]
      decide
  · have hwalk := (Tree.merge besideAskew .ascending rfl).walk_items (by decide +kernel)
      (Nat.succ_pos 1) ⟨[], ()⟩ 4 ⟨[], ()⟩
    have hsorted : Direction.SortsBy .ascending .bool _ := h ⟨[], ()⟩
    rw [hwalk, besideAskew_items, Direction.sortsBy_bool] at hsorted
    revert hsorted
    decide

end KeysetPaging
