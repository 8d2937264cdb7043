import KeysetPaging.Proofs.Following
import KeysetPaging.Proofs.Joints

/-! # Collections in a row

What is read of a concatenation is the rest of one source and then all of every later one. A page
takes what is left of a source and goes on with the next, so the place that it leads to is always
the start of one of the sources that are still to be asked.
-/

namespace KeysetPaging

variable {σ α : Type}

/-- What is read of collections in a row, from a place in the one with the label `from?` on, or in
the first one: the rest of that collection, and all of every later one. -/
def Course.row : List (String × Course α) → (from? : Option String) →
    (position : Option Bookmark) → Remainder α
  | [], _, _ => .done
  | (label, course) :: rest, from?, position =>
      if from?.any (· ≠ label) then row rest from? position
      else
        ((course position).map fun e => (e.1, Concat.place label e.2)).append (row rest none none)

/-- What is read of a concatenation. A place in a source that it does not have is one in the first
source. -/
def Course.concat (courses : List (String × Course α)) : Course α
  | some (.concat label position) =>
      row courses (if (courses.map (·.1)).contains label then some label else none) position
  | _ => row courses none none

/-- The collections of a row follow courses, which stand under the same labels. -/
inductive Sources.Follow : Sources σ α → List (String × Course α) → Prop where
  | nil : Follow .nil []
  | cons {label : String} {c : Collection σ α} {course : Course α} {rest : Sources σ α}
      {courses : List (String × Course α)} :
      c.supply.Follows course → rest.Follow courses →
        Follow (.cons label c rest) ((label, course) :: courses)

/-- The labels of a row are those of the courses that it follows. -/
theorem Sources.Follow.labels_eq {sources : Sources σ α} {courses : List (String × Course α)}
    (h : sources.Follow courses) : sources.labels = courses.map (·.1) := by
  induction h with
  | nil => rfl
  | cons _ _ ih => rw [labels, ih, List.map_cons]

theorem Sources.Follow.firstLabel?_eq {sources : Sources σ α} {courses : List (String × Course α)}
    (h : sources.Follow courses) : sources.firstLabel? = courses.head?.map (·.1) := by
  cases h <;> rfl

namespace Course

variable {label : String} {inner outer : Course α} {courses : List (String × Course α)}

/-- The first collection is read from the place in it, and the later ones as a whole. -/
theorem row_here {from? : Option String} (h : from?.any (· ≠ label) = false)
    (position : Option Bookmark) : row ((label, inner) :: courses) from? position
      = ((inner position).map fun e => (e.1, Concat.place label e.2)).append
          (row courses none none) := by
  rw [row, if_neg (by rw [h]; exact Bool.false_ne_true)]

/-- A row in which a later collection is meant is read from there on. -/
theorem row_later {from? : Option String} (h : from?.any (· ≠ label) = true)
    (position : Option Bookmark) :
    row ((label, inner) :: courses) from? position = row courses from? position := by
  rw [row, if_pos h]

/-- The places of a course are those of a row of collections, as far as their labels go. -/
def Extends (outer : Course α) (courses : List (String × Course α)) : Prop :=
  ∀ label ∈ courses.map (·.1), ∀ position,
    outer (some (.concat label position)) = row courses (some label) position

theorem concat_extends (courses : List (String × Course α)) :
    (concat courses).Extends courses := by
  intro label hlabel position
  rw [concat, if_pos (by simpa using hlabel)]

/-- The places of a course are those of the later collections of a row, whose labels differ from
the first. -/
theorem Extends.later (h : outer.Extends ((label, inner) :: courses))
    (hlabel : label ∉ courses.map (·.1)) : outer.Extends courses := by
  intro other hother position
  have hne : other ≠ label := by
    rintro rfl
    exact hlabel hother
  rw [h other (by simp [hother]), row_later (by simpa using hne)]

/-- The place that a page of the first collection leads to. -/
theorem Extends.here (h : outer.Extends ((label, inner) :: courses)) (position : Option Bookmark) :
    outer (some (.concat label position))
      = ((inner position).map fun e => (e.1, Concat.place label e.2)).append
          (row courses none none) := by
  rw [h label (by simp), row_here (by simp)]

/-- What leads on in the first collection leads on in the row, with what comes after it still to be
read. -/
theorem Covers.row {here there : Remainder α} {es : List (α × Bookmark)}
    (hextends : outer.Extends ((label, inner) :: courses)) (h : inner.Covers here es there) :
    outer.Covers ((here.map fun e => (e.1, Concat.place label e.2)).append (row courses none none))
      (es.map fun e => (e.1, Concat.place label e.2))
      ((there.map fun e => (e.1, Concat.place label e.2)).append (row courses none none)) := by
  rw [← List.filterMap_eq_map]
  refine h.filterMap (T := fun r => (r.map fun e => (e.1, Concat.place label e.2)).append
    (Course.row courses none none)) ?_ (fun _ => rfl) ?_
  · rintro here there es hgoes _ ⟨_, zs, ⟨fs, hfs, rfl⟩, hzs, rfl⟩
    exact ⟨_, zs, ⟨es ++ fs, hgoes fs hfs, rfl⟩, hzs, by simp⟩
  · rintro e _ ⟨⟩
    exact hextends.here (some e.2)

end Course

/-- **A row of collections follows its course.** What the page holds leads to the place in the row
at which it is asked, and every collection that is used up moves this place to the next one. -/
theorem Sources.fill_follows {outer : Course α} {start : Option Bookmark} :
    ∀ (sources : Sources σ α) {courses : List (String × Course α)} (from? : Option String)
      (position : Option Bookmark) {page : Page α}, sources.Follow courses →
        (courses.map (·.1)).Nodup → outer.Extends courses →
          page.Holds outer start (Course.row courses from? position) → page.isFull = false →
            Run.Ensures (sources.fill from? position page) (Filled.Answers outer start)
  | .nil, _, _, _, page => by
    rintro ⟨⟩ - - hpage -
    rw [fill]
    exact .pure ⟨rfl, hpage.finish rfl⟩
  | .cons label c rest, _, from?, position, page => by
    rintro (_ | ⟨hc, hrest⟩) hlabels hextends hpage hroom
    rename_i course courses
    obtain ⟨hlabel, hnodup⟩ := List.nodup_cons.mp hlabels
    have hlater := hextends.later hlabel
    rw [fill]
    -- Collections in front of the one that is meant have been read before.
    cases hskip : from?.any (· ≠ label) with
    | true =>
      rw [Course.row_later hskip] at hpage
      exact fill_follows rest from? position hrest hnodup hlater hpage hroom
    | false =>
      rw [Course.row_here hskip] at hpage
      rw [if_neg Bool.false_ne_true]
      refine (hc page.remaining position (page.remaining_pos hroom)).bind ?_
      rintro _ ⟨sub, rfl, hsub⟩
      refine .note ?_
      have happended := hpage.append (hsub.covers.row hextends)
      cases hnext : sub.nextBookmark with
      | some b =>
        rw [hnext, Course.ahead, ← hextends.here] at happended
        simp only [hsub.goesOn, hnext]
        refine .pure ⟨rfl, happended.resume ?_⟩
        rw [hextends.here]
        have hle := hpage.covers.le
        have hlt := hsub.gains b hnext
        simp only [Remainder.append, Remainder.map] at hle ⊢
        omega
      | none =>
        -- This collection is used up, so only the later ones are left.
        have hused : (page.append (sub.entries.map fun e => (e.1, Concat.place label e.2))).Holds
            outer start (Course.row courses none none) := by
          rw [hnext] at happended
          refine ⟨happended.paired, happended.unmarked, happended.unfixed,
            happended.covers.weaken (fun zs hzs => ⟨[], zs, ⟨[], rfl, rfl⟩, hzs, rfl⟩) ?_⟩
          simp [Remainder.append, Remainder.map]
        simp only [hsub.goesOn, hnext]
        rw [if_neg (by simp)]
        split_ifs with hfull
        · -- The page is full, so it has an item, and what is left has become less.
          have hlt := hused.covers.lt (hused.entries_ne_nil hfull)
          rw [hrest.firstLabel?_eq]
          cases hcourses : courses with
          | nil =>
            rw [hcourses] at hused
            exact .pure ⟨rfl, hused.finish rfl⟩
          | cons next courses =>
            obtain ⟨nextLabel, nextCourse⟩ := next
            subst hcourses
            have hplace : outer (some (.concat nextLabel none))
                = Course.row ((nextLabel, nextCourse) :: courses) none none := by
              rw [hlater nextLabel (by simp), Course.row_here (by simp), Course.row_here (by simp)]
            rw [← hplace] at hused hlt
            exact .pure ⟨rfl, hused.resume hlt⟩
        · exact fill_follows rest none none hrest hnodup hlater hused (by simpa using hfull)

/-- **A concatenation follows its course.** -/
theorem Concat.follows {sources : Sources σ α} {courses : List (String × Course α)}
    (h : sources.Follow courses) (hlabels : (courses.map (·.1)).Nodup) :
    (Collection.concat sources).supply.Follows (Course.concat courses) := by
  refine .ofFill fun perPage place hperPage => ?_
  have hblank := Page.Holds.blank (Course.concat courses) hperPage place
  have hroom := Page.isFull_blank (α := α) hperPage place
  rw [Collection.fill]
  dsimp only
  split
  next label position =>
    rw [h.labels_eq]
    exact Sources.fill_follows sources _ position h hlabels (Course.concat_extends courses) hblank
      hroom
  next hother =>
    have hcourse : Course.concat courses place = Course.row courses none none := by
      rw [Course.concat.eq_2 _ _ hother]
    rw [hcourse] at hblank
    exact Sources.fill_follows sources none none h hlabels (Course.concat_extends courses) hblank
      hroom

end KeysetPaging
