import KeysetPaging.Proofs.Interleave
import KeysetPaging.Proofs.Row
import Mathlib.Data.List.Forall2

/-! # Merged collections follow a course

Every lane of a merge holds a page of its source. What a lane has given leads its source from the
place at which it was asked to the place that the merge remembers for it, so the places of all lanes
together are a place from which the merge goes on. A merge that gives out nothing makes progress
still: a starved lane moves on to where its source resumes.
-/

namespace KeysetPaging

variable {σ α : Type}

/-! ## Lanes -/

/-- A lane holds what its source answers from the place of the lane on. -/
structure Lane.Answers (course : Course α) (lane : Lane α) : Prop where
  goesOn : lane.hasMore = lane.resumeAt.isSome
  covers : course.Covers (course lane.place) lane.buffer (course.ahead lane.resumeAt)
  gains : ∀ b ∈ lane.resumeAt, (course (some b)).left < (course lane.place).left

namespace Lane.Answers

variable {course : Course α} {lane after : Lane α} {taken : List (α × Bookmark)}

/-- What a lane has given leads to the place that it has reached. -/
theorem reaches (h : lane.Answers course) (hgives : lane.Gives taken after) :
    (course lane.place).Reaches taken (course after.place) := by
  rw [hgives.place]
  cases hlast : taken.getLast? with
  | none =>
    obtain rfl := List.getLast?_eq_none_iff.mp hlast
    exact .refl _
  | some e =>
    have hcovers := h.covers
    rw [hgives.buffer] at hcovers
    exact (hcovers.front hlast).toReaches

/-- A lane that is starved leads to where its source resumes, which is further on. -/
theorem reaches_settle (h : lane.Answers course) (hgives : lane.Gives taken after) :
    (course lane.place).Reaches taken (course after.settle.place) ∧
      (after.isStarved → (course after.settle.place).left < (course lane.place).left) := by
  rw [Lane.settle]
  split
  next hstarved =>
    obtain ⟨hempty, hmore⟩ := by simpa [isStarved] using hstarved
    have hresume : lane.resumeAt.isSome := by rw [← h.goesOn, ← hgives.hasMore, hmore]
    obtain ⟨b, hb⟩ := Option.isSome_iff_exists.mp hresume
    have hcovers := h.covers
    rw [hgives.buffer, hempty, List.append_nil, hb] at hcovers
    dsimp only
    rw [hgives.resumeAt, hb]
    exact ⟨hcovers.toReaches, fun _ => h.gains b hb⟩
  next hstarved => exact ⟨h.reaches hgives, fun hs => absurd hs hstarved⟩

/-- A lane that has given all and whose source has ended leads to the end. -/
theorem reaches_done (h : lane.Answers course) (hgives : lane.Gives taken after)
    (hempty : after.buffer = []) (hends : after.hasMore = false) :
    (course lane.place).Reaches taken .done := by
  have hcovers := h.covers
  have hresume : lane.resumeAt = none := by
    rw [hgives.hasMore, h.goesOn] at hends
    simpa using hends
  rw [hgives.buffer, hempty, List.append_nil, hresume] at hcovers
  exact hcovers.toReaches

end Lane.Answers

/-! ## The places of all lanes -/

/-- The places that are known for labels which differ are found under these labels. -/
theorem lookup_of_nodup {β : Type} : ∀ {ps : List (String × β)}, (ps.map (·.1)).Nodup →
    ∀ {label : String} {b : β}, (label, b) ∈ ps → ps.lookup label = some b
  | [], _, _, _, h => by cases h
  | (other, c) :: ps, hnodup, label, b, h => by
    obtain ⟨hother, hps⟩ := List.nodup_cons.mp hnodup
    rcases List.mem_cons.mp h with heq | hmem
    · obtain ⟨rfl, rfl⟩ := Prod.mk.inj heq
      exact List.lookup_cons_self
    · have hne : label ≠ other := by
        rintro rfl
        exact hother (List.mem_map.mpr ⟨(label, b), hmem, rfl⟩)
      rw [List.lookup_cons, beq_false_of_ne hne]
      exact lookup_of_nodup hps hmem

/-- What is left of the sources of a merge from the places of lanes on. -/
def Course.ofLanes (courses : List (String × Course α)) (lanes : List (Lane α)) :
    List (Remainder α) :=
  List.zipWith (fun course lane => course.2 lane.place) courses lanes

theorem Course.ofLanes_eq_some {courses : List (String × Course α)} {lanes : List (Lane α)}
    {i : Nat} {r : Remainder α} : (ofLanes courses lanes)[i]? = some r ↔
      ∃ course lane, courses[i]? = some course ∧ lanes[i]? = some lane ∧
        course.2 lane.place = r :=
  List.getElem?_zipWith_eq_some

/-- Lanes that stand at the places which are known for their labels are at the places from which a
merge is read. -/
theorem Course.ofLanes_eq_map {courses : List (String × Course α)} {lanes : List (Lane α)}
    (place : String → Option Bookmark)
    (h : List.Forall₂ (fun course lane => lane.place = place course.1) courses lanes) :
    ofLanes courses lanes = courses.map fun course => course.2 (place course.1) := by
  induction h with
  | nil => rfl
  | cons hplace _ ih =>
    rw [ofLanes] at ih
    rw [ofLanes, List.zipWith_cons_cons, List.map_cons, hplace, ih]

/-- The bookmark of a merge leads on from the places of all lanes. -/
theorem Course.merge_snapshot (T : Turns α → Prop) {courses : List (String × Course α)}
    {lanes : List (Lane α)} (hlabels : lanes.map (·.label) = courses.map (·.1))
    (hnodup : (courses.map (·.1)).Nodup) :
    Course.merge T courses (some (Lane.snapshot lanes)) = .weave T (ofLanes courses lanes) := by
  have hlength : lanes.length = courses.length := by simpa using congrArg List.length hlabels
  rw [merge, Lane.snapshot, known, ofLanes]
  refine congrArg (Remainder.weave T) (List.ext_getElem (by simp [hlength]) fun i hi hi' => ?_)
  rw [List.length_map] at hi
  have hlabel : lanes[i].label = courses[i].1 := by
    have := congrArg (·[i]?) hlabels
    simpa [hi, hlength] using this
  have hlookup : (lanes.map fun lane => (lane.label, lane.place)).lookup courses[i].1
      = some lanes[i].place := by
    refine lookup_of_nodup ?_ (List.mem_map.mpr ⟨lanes[i], List.getElem_mem _, by rw [hlabel]⟩)
    rw [← hlabels] at hnodup
    simpa [Function.comp_def] using hnodup
  simp only [List.getElem_map, List.getElem_zipWith, hlookup, Option.join_some]

namespace Merge

variable {direction : Direction} {T : Turns α → Prop} {courses : List (String × Course α)}
  {lanes : List (Lane α)}

/-- Lanes that hold what the sources of a merge answer, each from its own place on. -/
def Asked (courses : List (String × Course α)) (lanes : List (Lane α)) : Prop :=
  List.Forall₂ (fun course lane => lane.label = course.1 ∧ lane.Answers course.2) courses lanes

/-- The turns that lanes take fit before whatever turns are possible after them. -/
structure Ready (direction : Direction) (T : Turns α → Prop) (courses : List (String × Course α))
    (lanes : List (Lane α)) : Prop where
  asked : Asked courses lanes
  fits : ∀ (room : Nat) (later : Turns α), (∀ turn ∈ later, turn.1 < courses.length) →
    (∀ (i : Nat) (course : String × Course α) (lane : Lane α), courses[i]? = some course →
      lanes[i]? = some lane → (course.2 lane.place).Reads
        ((turns direction room lanes).share i ++ later.share i)) →
      T later → T (turns direction room lanes ++ later)

theorem Asked.labels (h : Asked courses lanes) : lanes.map (·.label) = courses.map (·.1) := by
  induction h with
  | nil => rfl
  | cons hlane _ ih => rw [List.map_cons, List.map_cons, hlane.1, ih]

theorem Asked.answers (h : Asked courses lanes) {i : Nat} {course : String × Course α}
    {lane : Lane α} (hcourse : courses[i]? = some course) (hlane : lanes[i]? = some lane) :
    lane.Answers course.2 := by
  induction h generalizing i with
  | nil => simp at hcourse
  | cons hfirst _ ih =>
    cases i with
    | zero =>
      obtain rfl := Option.some.inj hcourse
      obtain rfl := Option.some.inj hlane
      exact hfirst.2
    | succ i => exact ih hcourse hlane

theorem Ready.length_eq (h : Ready direction T courses lanes) : lanes.length = courses.length := by
  simpa using congrArg List.length h.asked.labels

/-- What each source is asked for, and what its lane has given of it. -/
theorem Ready.lane (h : Ready direction T courses lanes) (room : Nat) {i : Nat} {r : Remainder α}
    (hr : (Course.ofLanes courses lanes)[i]? = some r) :
    ∃ (course : String × Course α) (lane after : Lane α), courses[i]? = some course ∧
      r = course.2 lane.place ∧ lane.Answers course.2 ∧
        (interleave direction room lanes).2[i]? = some after ∧
          lane.Gives ((turns direction room lanes).share i) after := by
  obtain ⟨course, lane, hcourse, hlane, rfl⟩ := Course.ofLanes_eq_some.mp hr
  obtain ⟨hi, -⟩ := List.getElem?_eq_some_iff.mp hlane
  have hi' : i < (interleave direction room lanes).2.length := by
    rw [length_left]
    exact hi
  have hafter := List.getElem?_eq_getElem hi'
  exact ⟨course, lane, _, hcourse, rfl, h.asked.answers hcourse hlane, hafter,
    gives room hlane hafter⟩

/-- What each lane has given leads its source to some remainder, and so all that is given out leads
the merge to these remainders together. -/
theorem Ready.reaches (h : Ready direction T courses lanes) (room : Nat)
    {rs : List (Remainder α)} (hlength : rs.length = courses.length)
    (hreaches : ∀ (i : Nat) (r r' : Remainder α), (Course.ofLanes courses lanes)[i]? = some r →
      rs[i]? = some r' → r.Reaches ((turns direction room lanes).share i) r') :
    (Remainder.weave T (Course.ofLanes courses lanes)).Reaches
      (interleave direction room lanes).1 (.weave T rs) := by
  have hlanes := h.length_eq
  have hofLanes : (Course.ofLanes courses lanes).length = courses.length := by
    simp [Course.ofLanes, hlanes]
  refine Remainder.weave_reaches (by rw [hofLanes, hlength]) (items_interleave room lanes) ?_
    hreaches ?_
  · intro turn hturn
    rw [hofLanes, ← hlanes]
    exact turns_lt room lanes turn hturn
  · intro later hlater hreads
    rw [hofLanes] at hlater
    exact h.fits room later hlater fun i course lane hcourse hlane =>
      hreads i _ (Course.ofLanes_eq_some.mpr ⟨course, lane, hcourse, hlane, rfl⟩)

/-- What is given out leads the merge to the places that its lanes have reached. -/
theorem Ready.reaches_left (h : Ready direction T courses lanes) (room : Nat) :
    (Remainder.weave T (Course.ofLanes courses lanes)).Reaches (interleave direction room lanes).1
      (.weave T (Course.ofLanes courses (interleave direction room lanes).2)) := by
  refine h.reaches room (by simp [Course.ofLanes, h.length_eq]) fun i r r' hr hr' => ?_
  obtain ⟨course, lane, after, hcourse, rfl, hanswers, hafter, hgives⟩ := h.lane room hr
  obtain ⟨course', after', hcourse', hafter', rfl⟩ := Course.ofLanes_eq_some.mp hr'
  obtain rfl := Option.some.inj (hcourse.symm.trans hcourse')
  obtain rfl := Option.some.inj (hafter.symm.trans hafter')
  exact hanswers.reaches hgives

/-- Each source is led to the place of its lane, or to where it resumes when the lane is starved. -/
theorem Ready.reaches_settle (h : Ready direction T courses lanes) (room : Nat) {i : Nat}
    {r r' : Remainder α} (hr : (Course.ofLanes courses lanes)[i]? = some r)
    (hr' : (Course.ofLanes courses
      ((interleave direction room lanes).2.map Lane.settle))[i]? = some r') :
    r.Reaches ((turns direction room lanes).share i) r' ∧
      ∀ after, (interleave direction room lanes).2[i]? = some after → after.isStarved →
        r'.left < r.left := by
  obtain ⟨course, lane, after, hcourse, rfl, hanswers, hafter, hgives⟩ := h.lane room hr
  obtain ⟨course', settled, hcourse', hsettled, rfl⟩ := Course.ofLanes_eq_some.mp hr'
  obtain rfl := Option.some.inj (hcourse.symm.trans hcourse')
  obtain rfl : after.settle = settled := by simpa [hafter] using hsettled
  obtain ⟨hreaches, hless⟩ := hanswers.reaches_settle hgives
  refine ⟨hreaches, fun after' hafter' hstarved => hless ?_⟩
  obtain rfl := Option.some.inj (hafter.symm.trans hafter')
  exact hstarved

/-- The labels of the lanes stay as they are. -/
theorem Ready.labels_left (h : Ready direction T courses lanes) (room : Nat) :
    (interleave direction room lanes).2.map (·.label) = courses.map (·.1) := by
  rw [← h.asked.labels]
  refine List.ext_getElem (by simp) fun i hi hi' => ?_
  rw [List.length_map] at hi hi'
  have hgives : lanes[i].Gives ((turns direction room lanes).share i)
      (interleave direction room lanes).2[i] :=
    gives room (List.getElem?_eq_getElem hi') (List.getElem?_eq_getElem hi)
  simp [hgives.label]

/-- Every item that is given out is marked with a place from which the merge goes on. -/
theorem Ready.covers (h : Ready direction T courses lanes) (hnodup : (courses.map (·.1)).Nodup)
    (room : Nat) {there : Remainder α}
    (hreaches : (Remainder.weave T (Course.ofLanes courses lanes)).Reaches
      (interleave direction room lanes).1 there) :
    (Course.merge T courses).Covers (.weave T (Course.ofLanes courses lanes))
      (interleave direction room lanes).1 there where
  toReaches := hreaches
  marks before e after heq := by
    -- With less room the same lanes would have stopped right after this item.
    have hfits : (interleave direction room lanes).1.length ≤ room := by
      rw [interleave_take (Nat.le_refl room) lanes]
      exact List.length_take_le room _
    have hle : before.length + 1 ≤ room := by
      rw [heq, List.length_append, List.length_cons] at hfits
      omega
    have hfront : (interleave direction (before.length + 1) lanes).1 = before ++ [e] := by
      rw [interleave_take hle lanes, heq]
      simp [List.take_append, List.take_of_length_le]
    have hmark : e.2 = Lane.snapshot (interleave direction (before.length + 1) lanes).2 :=
      last_mark (by simp [hfront])
    have hleft := h.reaches_left (before.length + 1)
    rw [hfront] at hleft
    rw [hmark, Course.merge_snapshot T (h.labels_left _) hnodup]
    exact hleft

/-- A merge that gives out nothing although there is something left has a starved lane. -/
theorem exists_starved {room : Nat} (hroom : 0 < room)
    (hnil : (interleave direction room lanes).1 = [])
    (hmore : lanes.any fun lane => lane.hasMore || !lane.buffer.isEmpty) :
    ∃ lane ∈ lanes, lane.isStarved := by
  obtain ⟨room, rfl⟩ := Nat.exists_eq_add_one_of_ne_zero (Nat.ne_of_gt hroom)
  rcases interleave_step direction room lanes with
    ⟨hpick, -⟩ | ⟨i, lane, e, rest, -, -, -, hgo, -⟩
  · exact exists_starved_of_pick hpick hmore
  · rw [hgo] at hnil
    cases hnil

/-- The places of all lanes, with starved ones moved on to where their sources resume, leave less to
read than those at which the lanes were asked. -/
theorem Ready.left_settle_lt (h : Ready direction T courses lanes) {room : Nat} (hroom : 0 < room)
    (hmore : (interleave direction room lanes).2.any fun lane =>
      lane.hasMore || !lane.buffer.isEmpty)
    (hreaches : (Remainder.weave T (Course.ofLanes courses lanes)).Reaches
      (interleave direction room lanes).1 (.weave T (Course.ofLanes courses
        ((interleave direction room lanes).2.map Lane.settle)))) :
    (Remainder.weave T (Course.ofLanes courses
        ((interleave direction room lanes).2.map Lane.settle))).left
      < (Remainder.weave T (Course.ofLanes courses lanes)).left := by
  by_cases hnil : (interleave direction room lanes).1 = []
  · -- Nothing was given out, so the lanes are as they were and one of them is starved.
    have hleft := left_of_nil hnil
    rw [hleft] at hmore
    obtain ⟨lane, hlane, hstarved⟩ := exists_starved hroom hnil hmore
    obtain ⟨i, hi⟩ := List.mem_iff_getElem?.mp hlane
    obtain ⟨hlt, -⟩ := List.getElem?_eq_some_iff.mp hi
    rw [h.length_eq] at hlt
    have hcourse := List.getElem?_eq_getElem hlt
    have hr := Course.ofLanes_eq_some.mpr ⟨_, lane, hcourse, hi, rfl⟩
    have hr' : (Course.ofLanes courses
        ((interleave direction room lanes).2.map Lane.settle))[i]? = some _ :=
      Course.ofLanes_eq_some.mpr ⟨_, lane.settle, hcourse, by simp [hleft, hi], rfl⟩
    refine (Remainder.sum_left_le (by simp [Course.ofLanes, h.length_eq]) ?_).2
      ⟨i, _, _, hr, hr', ?_⟩
    · exact fun k r r' hr hr' => (h.reaches_settle room hr hr').1.le
    · exact (h.reaches_settle room hr hr').2 lane (by rw [hleft]; exact hi) hstarved
  · exact hreaches.lt hnil

/-- **Lanes fill a page that goes on exactly where it leaves off.** -/
theorem Ready.fill_answers (h : Ready direction T courses lanes)
    (hnodup : (courses.map (·.1)).Nodup) (hT : T []) {page : Page α} {start : Option Bookmark}
    (hpage : page.Holds (Course.merge T courses) start (.weave T (Course.ofLanes courses lanes)))
    (hroom : page.isFull = false) :
    (fill direction lanes page).Answers (Course.merge T courses) start := by
  have hremaining := page.remaining_pos hroom
  rw [fill]
  dsimp only
  split
  next hmore =>
    -- The page goes on at the places of all lanes, of which the starved ones have moved on.
    have hlabels : ((interleave direction page.remaining lanes).2.map Lane.settle).map (·.label)
        = courses.map (·.1) := by
      rw [← h.labels_left page.remaining, List.map_map]
      refine List.map_congr_left fun lane _ => ?_
      simp only [Function.comp_def, Lane.settle]
      split <;> rfl
    have hreaches := h.reaches page.remaining (by simp [Course.ofLanes, h.length_eq])
      fun i r r' hr hr' => (h.reaches_settle page.remaining hr hr').1
    have hless := h.left_settle_lt hremaining hmore hreaches
    have happended := hpage.append (h.covers hnodup page.remaining hreaches)
    rw [← Course.merge_snapshot T hlabels hnodup] at happended hless
    exact happended.resume (Nat.lt_of_lt_of_le hless hpage.covers.le)
  next hmore =>
    -- Every lane has given all and no source goes on, so nothing is left.
    have hended : ∀ lane ∈ (interleave direction page.remaining lanes).2,
        lane.buffer = [] ∧ lane.hasMore = false := by
      intro lane hlane
      have hnone : ¬ (lane.hasMore || !lane.buffer.isEmpty) = true := fun h =>
        hmore (List.any_eq_true.mpr ⟨lane, hlane, h⟩)
      simpa [and_comm] using hnone
    have hreaches : (Remainder.weave T (Course.ofLanes courses lanes)).Reaches
        (interleave direction page.remaining lanes).1
        (.weave T (List.replicate courses.length .done)) := by
      refine h.reaches page.remaining (by simp) fun i r r' hr hr' => ?_
      obtain ⟨course, lane, after, hcourse, rfl, hanswers, hafter, hgives⟩ :=
        h.lane page.remaining hr
      obtain ⟨hempty, hends⟩ := hended after (List.mem_of_getElem? hafter)
      rw [List.getElem?_replicate] at hr'
      split_ifs at hr'
      obtain rfl := Option.some.inj hr'
      exact hanswers.reaches_done hgives hempty hends
    refine (hpage.append (h.covers hnodup page.remaining hreaches)).finish ?_
    refine ⟨[], rfl, by simp, fun i r hr => ?_, hT⟩
    rw [List.getElem?_replicate] at hr
    split_ifs at hr
    obtain rfl := Option.some.inj hr
    rfl

end Merge

/-! ## Merges -/

/-- What the sources of a merge answer when they follow their courses: a lane for each of them, from
the place that is known for its label on. -/
theorem Sources.lanes_follow {sources : Sources σ α} {courses : List (String × Course α)}
    (h : sources.Follow courses) (known : List (String × Option Bookmark)) {perPage : Nat}
    (hperPage : 0 < perPage) :
    Run.Ensures (sources.lanes known perPage) fun answer => ∃ lanes, answer = .ok lanes ∧
      List.Forall₂ (fun course lane => lane.label = course.1 ∧
        lane.place = (known.lookup course.1).join ∧ lane.Answers course.2) courses lanes := by
  induction h with
  | nil =>
    rw [lanes]
    exact .pure ⟨[], rfl, .nil⟩
  | cons hc _ ih =>
    rw [lanes]
    refine (hc perPage _ hperPage).bind ?_
    rintro _ ⟨sub, rfl, hsub⟩
    refine .note (ih.bind ?_)
    rintro _ ⟨lanes, rfl, hlanes⟩
    exact .pure ⟨_, rfl, .cons ⟨rfl, rfl, hsub.goesOn, hsub.covers, hsub.gains⟩ hlanes⟩

/-- A merge whose sources answer with lanes that keep a promise about their turns answers with a
page that follows its course. -/
theorem Merge.answers {sources : Sources σ α} {courses : List (String × Course α)}
    {direction : Direction} {T : Turns α → Prop} {perPage : Nat} {place : Option Bookmark}
    (hperPage : 0 < perPage) (hlabels : (courses.map (·.1)).Nodup) (hT : T [])
    (h : Run.Ensures (sources.lanes (Course.known place) perPage) fun answer =>
      ∃ lanes, answer = .ok lanes ∧ Merge.Ready direction T courses lanes ∧
        List.Forall₂ (fun course lane => lane.place = ((Course.known place).lookup course.1).join)
          courses lanes) :
    Run.Ensures ((Collection.merge sources direction).supply perPage place) fun answer =>
      ∃ page, answer = .ok page ∧ page.Answers (Course.merge T courses) place := by
  refine Supply.ofFill_answers hperPage ?_
  have hblank := Page.Holds.blank (Course.merge T courses) hperPage place
  have hroom := Page.isFull_blank (α := α) hperPage place
  rw [Collection.fill]
  refine h.bind ?_
  rintro _ ⟨lanes, rfl, hready, hplaces⟩
  have hstart : Course.merge T courses place = .weave T (Course.ofLanes courses lanes) := by
    rw [Course.merge, Course.ofLanes_eq_map (fun label => ((Course.known place).lookup label).join)
      hplaces]
  rw [hstart] at hblank
  exact .pure ⟨rfl, hready.fill_answers hlabels hT hblank hroom⟩

/-- **A merge follows its course**, whatever is promised about its turns, if the lanes that its
sources answer with keep that promise. -/
theorem Merge.follows {sources : Sources σ α} {courses : List (String × Course α)}
    (direction : Direction) {T : Turns α → Prop} (h : sources.Follow courses)
    (hlabels : (courses.map (·.1)).Nodup) (hT : T [])
    (hready : ∀ lanes : List (Lane α), Merge.Asked courses lanes →
      Merge.Ready direction T courses lanes) :
    (Collection.merge sources direction).supply.Follows (Course.merge T courses) := by
  intro perPage place hperPage
  refine Merge.answers hperPage hlabels hT
    ((Sources.lanes_follow h (Course.known place) hperPage).mono ?_)
  rintro _ ⟨lanes, rfl, hlanes⟩
  have hasked : Merge.Asked courses lanes := hlanes.imp fun _ _ h => ⟨h.1, h.2.2⟩
  exact ⟨lanes, rfl, hready lanes hasked, hlanes.imp fun _ _ h => h.2.1⟩

end KeysetPaging
