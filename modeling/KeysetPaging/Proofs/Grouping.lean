import KeysetPaging.Proofs.Behind
import KeysetPaging.Proofs.Handing
import KeysetPaging.Proofs.Images

/-! # Concatenations in groups

Collections one after another may be put in groups, each a concatenation of its own, and the groups
one after another. The places get a label more, but every page holds the same items as without
groups and goes on if that one does: a group fills the rest of a page as a page of its own, and what
it leaves the next group fills from its front on.
-/

namespace KeysetPaging

variable {σ α : Type}

/-! ## Rows in groups -/

namespace Sources

/-- Rows in groups: of each row one collection, under a name of its own. -/
def grouped : List (String × Sources σ α) → Sources σ α
  | [] => .nil
  | (name, row) :: rest => .cons name (.concat row) (grouped rest)

/-- Rows without groups: one behind the other. -/
def joined : List (String × Sources σ α) → Sources σ α
  | [] => .nil
  | (_, row) :: rest => row.append (joined rest)

theorem labels_grouped : ∀ groups : List (String × Sources σ α),
    (grouped groups).labels = groups.map (·.1)
  | [] => rfl
  | (name, _) :: rest => by rw [grouped, labels, labels_grouped rest, List.map_cons]

/-- Labels of a row are labels of the rows together. -/
theorem mem_labels_joined {name : String} {row : Sources σ α} {label : String}
    (hlabel : label ∈ row.labels) : ∀ {groups : List (String × Sources σ α)},
      (name, row) ∈ groups → label ∈ (joined groups).labels
  | (_, first) :: rest, h => by
    rw [joined, labels_append, List.mem_append]
    rcases List.mem_cons.mp h with heq | h
    · obtain ⟨-, rfl⟩ := Prod.mk.inj heq
      exact .inl hlabel
    · exact .inr (mem_labels_joined hlabel h)

/-! ## The same place in groups and without -/

/-- The place in the groups and the place in the rows without groups are the same. The place at the
front of a group is the one at the front of its first collection. -/
inductive SamePlace (groups : List (String × Sources σ α)) : Bookmark → Bookmark → Prop where
  | inside {name : String} {row : Sources σ α} {label : String} (position : Option Bookmark) :
      (name, row) ∈ groups → label ∈ row.labels →
        SamePlace groups (.concat name (some (.concat label position))) (.concat label position)
  | front {name : String} {row : Sources σ α} {label : String} :
      (name, row) ∈ groups → row.firstLabel? = some label →
        SamePlace groups (.concat name none) (.concat label none)

/-- The same places are labelled ones. -/
theorem SamePlace.exists_concat {groups : List (String × Sources σ α)} {b c : Bookmark}
    (h : SamePlace groups b c) : ∃ name place label position,
      b = .concat name place ∧ c = .concat label position := by
  cases h with
  | inside position => exact ⟨_, _, _, _, rfl, rfl⟩
  | front => exact ⟨_, _, _, _, rfl, rfl⟩

/-- The same places have labels of the groups and of the rows. -/
theorem SamePlace.mem_labels {groups : List (String × Sources σ α)} {name label : String}
    {place position : Option Bookmark}
    (h : SamePlace groups (.concat name place) (.concat label position)) :
    name ∈ (grouped groups).labels ∧ label ∈ (joined groups).labels := by
  rw [labels_grouped]
  cases h with
  | inside position hmem hlabel =>
    exact ⟨List.mem_map_of_mem hmem, mem_labels_joined hlabel hmem⟩
  | front hmem hfirst =>
    exact ⟨List.mem_map_of_mem hmem, mem_labels_joined (mem_labels_of_firstLabel? hfirst) hmem⟩

/-- The same place in groups is in the first of them, at a place of its row or at its front, or it
is behind the first one. -/
theorem SamePlace.here_or_later {name wanted : String} {row : Sources σ α}
    {rest : List (String × Sources σ α)} {place : Option Bookmark} {label : String}
    {position : Option Bookmark}
    (h : SamePlace ((name, row) :: rest) (.concat wanted place) (.concat label position)) :
    (wanted = name ∧ (label ∈ row.labels ∧ place = some (.concat label position) ∨
      row.firstLabel? = some label ∧ place = none ∧ position = none)) ∨
    (wanted ∈ rest.map (·.1) ∧ label ∈ (joined rest).labels ∧
      SamePlace rest (.concat wanted place) (.concat label position)) := by
  cases h with
  | inside position hmem hlabel =>
    rcases List.mem_cons.mp hmem with heq | hmem
    · obtain ⟨rfl, rfl⟩ := Prod.mk.inj heq
      exact .inl ⟨rfl, .inl ⟨hlabel, rfl⟩⟩
    · exact .inr ⟨List.mem_map_of_mem hmem, mem_labels_joined hlabel hmem,
        .inside position hmem hlabel⟩
  | front hmem hfirst =>
    rcases List.mem_cons.mp hmem with heq | hmem
    · obtain ⟨rfl, rfl⟩ := Prod.mk.inj heq
      exact .inl ⟨rfl, .inr ⟨hfirst, rfl, rfl⟩⟩
    · exact .inr ⟨List.mem_map_of_mem hmem,
        mem_labels_joined (mem_labels_of_firstLabel? hfirst) hmem, .front hmem hfirst⟩

end Sources

/-! ## Pages that match -/

/-- Two pages that are being filled have the same size and hold the same items, and neither says yet
that there is more. -/
structure Page.Level (page other : Page α) : Prop where
  perPage_eq : page.perPage = other.perPage
  items_eq : page.items = other.items
  unmarked : page.hasMore = false
  other_unmarked : other.hasMore = false
  other_unfixed : other.resumeAt = none

/-- Two pages hold the same items, and both go on or neither does. The places where they go on are
related. -/
structure Page.Matches (R : Bookmark → Bookmark → Prop) (page other : Page α) : Prop where
  items_eq : page.items = other.items
  hasMore_eq : page.hasMore = other.hasMore
  next : Option.Rel R page.nextBookmark other.nextBookmark

/-- Both pages were filled and match, or neither could be, for the same reason. -/
structure Filled.Matches (R : Bookmark → Bookmark → Prop) (filled other : Filled α) : Prop where
  failure_eq : filled.failure = other.failure
  page : other.failure = none → filled.page.Matches R other.page

/-- A page whose next place is fixed goes on there. -/
theorem Page.nextBookmark_fixed {page : Page α} {b : Bookmark} (hmore : page.hasMore)
    (hresume : page.resumeAt = some b) : page.nextBookmark = some b := by
  rw [nextBookmark, if_pos hmore, hresume, Option.some_or]

namespace Page.Level

variable {page other : Page α}

theorem remaining_eq (h : page.Level other) : page.remaining = other.remaining := by
  rw [remaining, remaining, h.perPage_eq, h.items_eq]

theorem isFull_eq (h : page.Level other) : page.isFull = other.isFull := by
  rw [isFull, isFull, h.perPage_eq, h.items_eq]

/-- Whatever label its items get, a page of its own adds to the one page what it is behind the
other. -/
theorem items_behind (h : page.Level other) {sub : Page α}
    (hsub : sub.items.length = sub.bookmarks.length) (label : String) :
    (page.append (sub.entries.map fun e => (e.1, Concat.place label e.2))).items
      = (other.followed sub).items := by
  simp only [append, followed, h.items_eq, List.map_map]
  exact congrArg _ (map_entries hsub).1

/-- Pages that end here match. -/
theorem matches_ended (h : page.Level other) (R : Bookmark → Bookmark → Prop) :
    page.Matches R other := by
  refine ⟨h.items_eq, by rw [h.unmarked, h.other_unmarked], ?_⟩
  simp only [nextBookmark, h.unmarked, h.other_unmarked, Bool.false_eq_true, if_false]
  exact .none

/-- Pages that go on at related places match. -/
theorem matches_resumed (h : page.Level other) {R : Bookmark → Bookmark → Prop} {b c : Bookmark}
    (hR : R b c) : (page.markMore.resume (some b)).Matches R (other.markMore.resume (some c)) :=
  ⟨h.items_eq, rfl, .some hR⟩

end Page.Level

/-! ## A group fills a page as its row does -/

namespace Sources

/-- The row always fills a page alike, and all its collections say where they go on. -/
structure Sound (row : Sources σ α) : Prop where
  steady : ∀ from? position page, (row.fill from? position page).Steady
  goesOn : row.Each fun _ c => c.supply.GoesOn

/-- Whether it fills the rest of a page or a page of its own, a sound row does it alike. -/
theorem Sound.fill_blank {row : Sources σ α} (hrow : row.Sound) {page : Page α}
    (from? : Option String) (position : Option Bookmark) {size : Nat} (hpos : 0 < size)
    (place : Option Bookmark) (hsize : size = page.remaining) (hmore : page.hasMore = false)
    (hresume : page.resumeAt = none) :
    Run.Agree (fun filled whole => whole = filled.behind page)
      (row.fill from? position { perPage := size, current := place, perPage_pos := hpos })
      (row.fill from? position page) := by
  let blank : Page α := { perPage := size, current := place, perPage_pos := hpos }
  have hwhole : Run.InStep (· = Filled.behind page ·)
      (row.fill from? position (page.followed blank)) (row.fill from? position blank) :=
    row.fill_followed from? position hsize
  rw [Page.followed_blank hmore hresume] at hwhole
  intro j k
  rw [(hwhole k).1, (hrow.steady from? position blank).agree j k]

/-- The group is one of all, and its row is sound and not empty. -/
structure Fits (all : List (String × Sources σ α)) (group : String × Sources σ α) : Prop where
  mem : group ∈ all
  sound : group.2.Sound
  nonempty : group.2.firstLabel?.isSome

variable {all rest : List (String × Sources σ α)}

/-- A group in front of other groups fills a page as its row does in front of the other rows, if
they do. -/
theorem fill_group {name : String} {row : Sources σ α}
    (hgroups : ∀ g ∈ (name, row) :: rest, Fits all g)
    (hrest : ∀ {page other : Page α}, page.Level other → other.isFull = false →
      Run.Agree (Filled.Matches (SamePlace all)) ((grouped rest).fill none none page)
        ((joined rest).fill none none other))
    {wanted? from? : Option String} {place position : Option Bookmark}
    (hhere : ¬ wanted?.any (· ≠ name)) (hfrom : ∀ label ∈ from?, label ∈ row.labels)
    (hposition : from? = none → position = none)
    (hplace : ∀ page : Page α, page.current = place →
      (Collection.concat row).fill page = row.fill from? position page)
    {page other : Page α} (hlevel : page.Level other) (hroom : other.isFull = false) :
    Run.Agree (Filled.Matches (SamePlace all))
      ((grouped ((name, row) :: rest)).fill wanted? place page)
      ((row.append (joined rest)).fill from? position other) := by
  obtain ⟨⟨hname, hrow, -⟩, hothers⟩ := List.forall_mem_cons.mp hgroups
  have hsize : 0 < page.remaining := by
    rw [hlevel.remaining_eq]
    exact other.remaining_pos hroom
  -- The group is asked for the rest of the page, as a page of its own.
  let blank : Page α := { perPage := page.remaining, current := place, perPage_pos := hsize }
  have hfilled := hrow.fill_blank from? position hsize place hlevel.remaining_eq
    hlevel.other_unmarked hlevel.other_unfixed
  have hensured : Run.Ensures (row.fill from? position blank) fun filled =>
      filled.page.Extends blank ∧ (filled.failure = none → filled.page.hasMore →
        ∃ label ∈ row.labels, ∃ inner, filled.page.resumeAt = some (.concat label inner)) :=
    .and (row.fill_extends from? position (.refl blank))
      (row.fill_resumes from? position hrow.goesOn rfl)
  rw [grouped, fill, if_neg hhere, fill_append _ row from? position hfrom hposition hroom
    hlevel.other_unmarked, Supply.ofFill, Page.start?, dif_pos hsize]
  simp only [bind_assoc]
  rw [hplace _ rfl]
  refine (hfilled.and_left hensured).bind ?_
  rintro ⟨sub, _ | e⟩ _ ⟨rfl, hextends, hresumes⟩
  · have hitems := hlevel.items_behind (hextends.paired rfl) name
    simp only [pure_bind]
    refine .note ?_
    cases hmore : sub.hasMore with
    | true =>
      -- The row was left before its end, at a place that the group labels.
      obtain ⟨label, hlabel, inner, hinner⟩ := hresumes rfl hmore
      rw [goOn_of_left _ (.inr hmore), if_pos rfl, sub.nextBookmark_fixed hmore hinner]
      have hwhole : (other.followed sub).nextBookmark = some (.concat label inner) :=
        Page.nextBookmark_fixed hmore hinner
      refine .pure ⟨rfl, fun _ => ⟨hitems, hmore.symm, ?_⟩⟩
      change Option.Rel _ (some _) (other.followed sub).nextBookmark
      rw [hwhole]
      exact .some (.inside inner hname hlabel)
    | false =>
      have hlevel : (page.append (sub.entries.map fun e => (e.1, Concat.place name e.2))).Level
          (other.followed sub) :=
        ⟨hlevel.perPage_eq, hitems, hlevel.unmarked, hmore, hextends.fixed hmore⟩
      change Run.Agree _ _ (goOn _ { page := other.followed sub })
      rw [if_neg Bool.false_ne_true, hlevel.isFull_eq]
      cases hfull : (other.followed sub).isFull with
      | true =>
        -- The page is full behind this group, which may be the last one.
        rw [goOn_of_full _ hlevel.other_unmarked hfull, if_pos rfl]
        cases rest with
        | nil => exact .pure ⟨rfl, fun _ => hlevel.matches_ended _⟩
        | cons g later =>
          obtain ⟨hnext, -, hsome⟩ := hothers g List.mem_cons_self
          obtain ⟨label, hlabel⟩ := Option.isSome_iff_exists.mp hsome
          rw [grouped, joined, firstLabel?_append hlabel]
          exact .pure ⟨rfl, fun _ => hlevel.matches_resumed (.front hnext hlabel)⟩
      | false =>
        rw [goOn_of_room _ hlevel.other_unmarked hfull, if_neg Bool.false_ne_true]
        exact hrest hlevel hfull
  · rw [goOn_of_left _ (.inl (Option.some_ne_none e))]
    exact .pure ⟨rfl, fun h => absurd h (Option.some_ne_none e)⟩

/-- From their fronts on, groups fill a page as their rows do. -/
theorem fill_groups : ∀ {groups : List (String × Sources σ α)}, (∀ g ∈ groups, Fits all g) →
    ∀ {page other : Page α}, page.Level other → other.isFull = false →
      Run.Agree (Filled.Matches (SamePlace all)) ((grouped groups).fill none none page)
        ((joined groups).fill none none other)
  | [], _, page, other, hlevel, _ => by
    rw [grouped, joined, fill, fill]
    exact .pure ⟨rfl, fun _ => hlevel.matches_ended _⟩
  | (name, row) :: rest, hgroups, page, other, hlevel, hroom => by
    refine fill_group hgroups (fill_groups (List.forall_mem_cons.mp hgroups).2) (by simp) (by simp)
      (fun _ => rfl) ?_ hlevel hroom
    intro page hcurrent
    rw [Collection.fill, hcurrent]

/-- From the same place on, groups fill a page as their rows do. -/
theorem fill_groups_at {wanted label : String} {place position : Option Bookmark} :
    ∀ {groups : List (String × Sources σ α)}, (∀ g ∈ groups, Fits all g) →
      (groups.map (·.1)).Nodup → (joined groups).labels.Nodup →
        SamePlace groups (.concat wanted place) (.concat label position) →
          ∀ {page other : Page α}, page.Level other → other.isFull = false →
            Run.Agree (Filled.Matches (SamePlace all))
              ((grouped groups).fill (some wanted) place page)
              ((joined groups).fill (some label) position other)
  | (name, row) :: rest, hgroups, hnames, hlabels, hsame, page, other, hlevel, hroom => by
    have hrest := (List.forall_mem_cons.mp hgroups).2
    rw [List.map_cons, List.nodup_cons] at hnames
    rw [joined, labels_append, List.nodup_append'] at hlabels
    rcases hsame.here_or_later with
      ⟨rfl, ⟨hlabel, rfl⟩ | ⟨hfirst, rfl, rfl⟩⟩ | ⟨hlater, hlabel, hsame⟩
    · refine fill_group hgroups (fill_groups hrest) (by simp) ?_ (by simp) ?_ hlevel hroom
      · rintro _ ⟨⟩
        exact hlabel
      · intro page hcurrent
        rw [Collection.fill, hcurrent]
        simp [hlabel]
    · rw [joined, fill_firstLabel (firstLabel?_append hfirst)]
      refine fill_group hgroups (fill_groups hrest) (by simp) (by simp) (fun _ => rfl) ?_ hlevel
        hroom
      intro page hcurrent
      rw [Collection.fill, hcurrent]
    · -- The place is behind this group, so neither the group nor its row is asked.
      have hwanted : wanted ≠ name := by
        rintro rfl
        exact hnames.1 hlater
      have hbehind : label ∉ row.labels := fun hmem => hlabels.2.2 hmem hlabel
      rw [grouped, fill, if_pos (by simpa using hwanted), joined,
        fill_append_of_notMem _ position other hbehind]
      exact fill_groups_at hrest hnames.2 hlabels.2.1 hsame hlevel hroom

end Sources

/-- Groups with different names, of rows with different labels. No row is empty. -/
structure Sources.Apart (groups : List (String × Sources σ α)) : Prop where
  names : (groups.map (·.1)).Nodup
  labels : (joined groups).labels.Nodup
  fits : ∀ g ∈ groups, Fits groups g

/-- **A concatenation in groups answers as it does without groups**, at the same place. -/
theorem Collection.grouped_answers {groups : List (String × Sources σ α)}
    (hgroups : Sources.Apart groups) (perPage : Nat) {place position : Option Bookmark}
    (hsame : Option.Rel (Sources.SamePlace groups) place position) :
    Run.Agree (Answers (Page.Matches (Sources.SamePlace groups)))
      ((concat (.grouped groups)).supply perPage place)
      ((concat (.joined groups)).supply perPage position) := by
  rw [supply, supply, Supply.ofFill, Supply.ofFill, Page.start?, Page.start?]
  split_ifs with hsize
  · let blank : Page α := { perPage, current := place, perPage_pos := hsize }
    let other : Page α := { perPage, current := position, perPage_pos := hsize }
    have hlevel : blank.Level other := ⟨rfl, rfl, rfl, rfl, rfl⟩
    have hfilled : Run.Agree (Filled.Matches (Sources.SamePlace groups))
        ((concat (.grouped groups)).fill blank) ((concat (.joined groups)).fill other) := by
      have hroom : other.isFull = false := Page.isFull_blank hsize position
      rw [fill, fill]
      cases hsame with
      | none => exact Sources.fill_groups hgroups.fits hlevel hroom
      | some hsame =>
        obtain ⟨wanted, inner, label, innermost, rfl, rfl⟩ := hsame.exists_concat
        obtain ⟨hwanted, hlabel⟩ := hsame.mem_labels
        simp only [blank, other, List.contains_iff_mem, hwanted, hlabel, if_true]
        exact Sources.fill_groups_at hgroups.fits hgroups.names hgroups.labels hsame hlevel hroom
    refine hfilled.bind ?_
    rintro ⟨page, failure⟩ ⟨otherPage, _⟩ ⟨rfl, hpage⟩
    cases failure with
    | some e => exact .pure (.failed e)
    | none => exact .pure (.answered (hpage rfl))
  · exact .pure (.failed _)

/-! ## Walks in step -/

/-- Both walks show the same items on every page, and after every page both go on or neither does.
They end in the same way. -/
structure Walk.Matches (walk other : Walk α) : Prop where
  pages_eq : walk.pages.map (fun page => (page.items, page.hasMore))
    = other.pages.map fun page => (page.items, page.hasMore)
  failure_eq : walk.failure = other.failure
  finished_eq : walk.finished = other.finished

/-- Collections that answer alike at related places, and keep their places, are walked through page
by page in the same way. -/
theorem Collection.walkBy_matches {c d : Collection σ α} {R : Bookmark → Bookmark → Prop}
    {P Q : Bookmark → Prop} (hc : c.supply.Keeps P) (hd : d.supply.Keeps Q)
    (hP : ∀ b, P b → c.accepts b ∧ b.levels ≤ Document.maxLevels)
    (hQ : ∀ b, Q b → d.accepts b ∧ b.levels ≤ Document.maxLevels)
    (hanswers : ∀ perPage place position, Option.Rel R place position →
      Run.Agree (Answers (Page.Matches R)) (c.supply perPage place) (d.supply perPage position))
    {sizes : Nat → Nat} (hsizes : ∀ n, 0 < sizes n) (most : Nat) {place position : Option Bookmark}
    (hR : Option.Rel R place position) (hplace : ∀ b ∈ place, P b)
    (hposition : ∀ b ∈ position, Q b) :
    Run.Agree Walk.Matches (c.walkBy sizes most (place.map Bookmark.token))
      (d.walkBy sizes most (position.map Bookmark.token)) := by
  induction most generalizing sizes place position with
  | zero => exact .pure ⟨rfl, rfl, rfl⟩
  | succ most ih =>
    have hagree := ((hanswers (sizes 0) place position hR).and_left
      (hc (sizes 0) place hplace)).and_right (hd (sizes 0) position hposition)
    rw [← startOf_map_token fun b hb => hP b (hplace b hb),
      ← startOf_map_token fun b hb => hQ b (hposition b hb)] at hagree
    rw [walkBy, walkBy]
    refine (paginate_agree rfl rfl (hsizes 0) (hsizes 0) hagree).bind ?_
    rintro _ _ ⟨⟨e | hpage, hwithin⟩, hwithin'⟩
    · exact .pure ⟨rfl, rfl, rfl⟩
    next page other =>
      obtain ⟨hwithin, -⟩ := hwithin page rfl
      obtain ⟨hwithin', -⟩ := hwithin' other rfl
      have hshown : (page.items, page.hasMore) = (other.items, other.hasMore) := by
        rw [hpage.items_eq, hpage.hasMore_eq]
      have hnext := hpage.next
      have hkept := hwithin.next
      have hkept' := hwithin'.next
      simp only [Page.nextToken]
      generalize page.nextBookmark = next at hnext hkept ⊢
      generalize other.nextBookmark = next' at hnext hkept' ⊢
      cases hnext with
      | none => exact .pure ⟨by simp [hshown], rfl, rfl⟩
      | some hR =>
        refine (ih (fun n => hsizes (n + 1)) (.some hR) hkept hkept').bind ?_
        rintro walk otherWalk hwalk
        exact .pure ⟨by simp [hshown, hwalk.pages_eq], hwalk.failure_eq, hwalk.finished_eq⟩

/-! ## Trees in groups -/

/-- A collection that follows a course says where its pages go on. -/
theorem Collection.goesOn_of_follows {c : Collection σ α} {course : Course α}
    (h : c.supply.Follows course) : c.supply.GoesOn := by
  intro perPage place
  cases perPage with
  | zero => exact .pure (by simp)
  | succ size =>
    refine (h (size + 1) place (Nat.succ_pos size)).mono ?_
    rintro _ ⟨sub, rfl, hanswers⟩ page hpage hmore
    obtain rfl := Except.ok.inj hpage
    rw [← hanswers.goesOn, hmore]

/-- Some trees in a row under their labels, with a name for them. -/
structure Group (α : Type) where
  name : String
  labels : List String
  branches : Branches labels α
  nonempty : labels ≠ []

/-- Labels that pass the check do so in groups as well. -/
theorem Group.labelled {groups : List (Group α)}
    (h : checkLabels .concat (groups.flatMap (·.labels)) = .ok ()) :
    ∀ group ∈ groups, checkLabels .concat group.labels = .ok () := by
  intro group hgroup
  obtain ⟨-, hnodup, hempty⟩ := checkLabels_eq_ok_iff.mp h
  refine checkLabels_eq_ok_iff.mpr ⟨group.nonempty, ?_, fun hmem => hempty ?_⟩
  · exact (List.nodup_flatMap.mp hnodup).1 group hgroup
  · exact List.mem_flatMap.mpr ⟨group, hgroup, hmem⟩

namespace Branches

/-- Trees in a row, and others behind them. -/
def append : {labels more : List String} → Branches labels α → Branches more α →
    Branches (labels ++ more) α
  | _, _, .nil, others => others
  | _, _, .cons label tree rest, others => .cons label tree (rest.append others)

/-- Of each group one tree, the concatenation of its trees. -/
def grouped : (groups : List (Group α)) →
    (∀ group ∈ groups, checkLabels .concat group.labels = .ok ()) → Branches (groups.map (·.name)) α
  | [], _ => .nil
  | group :: rest, h =>
      .cons group.name (.concat group.branches (h group List.mem_cons_self))
        (grouped rest fun other hother => h other (List.mem_cons_of_mem group hother))

/-- The trees of all groups in a row. -/
def joined : (groups : List (Group α)) → Branches (groups.flatMap (·.labels)) α
  | [] => .nil
  | group :: rest => group.branches.append (joined rest)

/-- The rows of collections of groups, with the names of these. -/
def rows (σ : Type) (groups : List (Group α)) : List (String × Sources σ α) :=
  groups.map fun group => (group.name, group.branches.sources σ)

theorem sources_append : ∀ {labels more : List String} (branches : Branches labels α)
    (others : Branches more α),
    (branches.append others).sources σ = (branches.sources σ).append (others.sources σ)
  | _, _, .nil, others => by rw [append, sources, Sources.append]
  | _, _, .cons label tree rest, others => by
    rw [append, sources, sources, sources_append rest others, Sources.append]

theorem sources_grouped : ∀ (groups : List (Group α)) (h),
    (grouped groups h).sources σ = Sources.grouped (rows σ groups)
  | [], _ => rfl
  | group :: rest, h => by
    rw [grouped, sources, Tree.collection, sources_grouped rest]
    rfl

theorem sources_joined : ∀ groups : List (Group α),
    (joined groups).sources σ = Sources.joined (rows σ groups)
  | [] => rfl
  | group :: rest => by
    rw [joined, sources_append, sources_joined rest]
    rfl

theorem levels_append : ∀ {labels more : List String} (branches : Branches labels α)
    (others : Branches more α), (branches.append others).levels = max branches.levels others.levels
  | _, _, .nil, others => by rw [append, levels, Nat.zero_max]
  | _, _, .cons label tree rest, others => by
    rw [append, levels, levels, levels_append rest others, Nat.max_assoc]

/-- Without groups bookmarks nest no deeper. -/
theorem levels_joined_le : ∀ (groups : List (Group α)) (h),
    (joined groups).levels ≤ (grouped groups h).levels
  | [], _ => Nat.le_refl _
  | group :: rest, h => by
    have hrest := levels_joined_le rest fun other hother =>
      h other (List.mem_cons_of_mem group hother)
    rw [joined, levels_append, grouped, levels, Tree.levels]
    omega

theorem goesOn (σ : Type) : ∀ {labels : List String} (branches : Branches labels α),
    (branches.sources σ).Each fun _ c => c.supply.GoesOn
  | _, .nil => trivial
  | _, .cons _ tree rest => ⟨Collection.goesOn_of_follows (tree.follows σ), rest.goesOn σ⟩

/-- A row of labels has a first one. -/
theorem firstLabel?_sources {labels : List String} (branches : Branches labels α)
    (h : labels ≠ []) : (branches.sources σ).firstLabel?.isSome := by
  cases branches with
  | nil => exact absurd rfl h
  | cons label tree rest => rfl

/-- Groups whose names and whose labels pass the check are apart. -/
theorem apart_rows (σ : Type) {groups : List (Group α)}
    (hnames : checkLabels .concat (groups.map (·.name)) = .ok ())
    (hlabels : checkLabels .concat (groups.flatMap (·.labels)) = .ok ()) :
    Sources.Apart (rows σ groups) where
  names := by
    rw [rows, List.map_map]
    exact nodup_of_checkLabels hnames
  labels := by
    rw [← sources_joined, labels_sources]
    exact nodup_of_checkLabels hlabels
  fits := by
    intro g hg
    obtain ⟨group, -, rfl⟩ := List.mem_map.mp hg
    exact ⟨hg, ⟨group.branches.fill_steady σ, group.branches.goesOn σ⟩,
      group.branches.firstLabel?_sources group.nonempty⟩

end Branches

/-- The concatenation of all trees of some groups, one after another. -/
def Tree.joined (groups : List (Group α))
    (hlabels : checkLabels .concat (groups.flatMap (·.labels)) = .ok ()) : Tree α :=
  .concat (.joined groups) hlabels

/-- The concatenation of groups, of which each is the concatenation of its trees. -/
def Tree.grouped (groups : List (Group α))
    (hnames : checkLabels .concat (groups.map (·.name)) = .ok ())
    (hlabels : checkLabels .concat (groups.flatMap (·.labels)) = .ok ()) : Tree α :=
  .concat (.grouped groups (Group.labelled hlabels)) hnames

/-- **Groups of collections one after another show the same pages as the collections do.** Trees
under different labels are cut into groups, each with a name. The walk through the concatenation of
the groups and the walk through the concatenation of the trees themselves, with pages of the same
sizes, show the same items on every page, and after every page both go on or neither does. No page
fails, and both walks come to the end if they may take one page more than there are items of
leaves. -/
theorem Tree.walk_grouped (groups : List (Group α))
    (hnames : checkLabels .concat (groups.map (·.name)) = .ok ())
    (hlabels : checkLabels .concat (groups.flatMap (·.labels)) = .ok ())
    (hlevels : (Tree.grouped groups hnames hlabels).levels ≤ 127) {sizes : Nat → Nat}
    (hsizes : ∀ n, 0 < sizes n) (most : Nat) :
    Run.Agree (fun walk other => walk.Matches other ∧ other.failure = none ∧
        (((Tree.joined groups hlabels).course none).left < most → other.finished = true))
      (((Tree.grouped groups hnames hlabels).collection σ).walkBy sizes most none)
      (((Tree.joined groups hlabels).collection σ).walkBy sizes most none) := by
  have hkeeps := (Tree.grouped groups hnames hlabels).keeps σ hlevels
  have hlevels' : (Tree.joined groups hlabels).levels ≤ 127 := by
    have hle := Branches.levels_joined_le groups (Group.labelled hlabels)
    rw [Tree.grouped, Tree.levels] at hlevels
    rw [Tree.joined, Tree.levels]
    omega
  have hkeeps' := (Tree.joined groups hlabels).keeps σ hlevels'
  have hgrouped : (Tree.grouped groups hnames hlabels).collection σ
      = .concat (.grouped (Branches.rows σ groups)) := by
    rw [Tree.grouped, Tree.collection, Branches.sources_grouped]
  have hjoined : (Tree.joined groups hlabels).collection σ
      = .concat (.joined (Branches.rows σ groups)) := by
    rw [Tree.joined, Tree.collection, Branches.sources_joined]
  have hanswers : ∀ perPage place position,
      Option.Rel (Sources.SamePlace (Branches.rows σ groups)) place position →
        Run.Agree (Answers (Page.Matches (Sources.SamePlace (Branches.rows σ groups))))
          (((Tree.grouped groups hnames hlabels).collection σ).supply perPage place)
          (((Tree.joined groups hlabels).collection σ).supply perPage position) := by
    intro perPage place position hsame
    rw [hgrouped, hjoined]
    exact Collection.grouped_answers (Branches.apart_rows σ hnames hlabels) perPage hsame
  have hmatches := Collection.walkBy_matches hkeeps hkeeps' (fun _ hb => hb) (fun _ hb => hb)
    hanswers hsizes most .none nofun nofun
  have hlinked : Run.Ensures (((Tree.joined groups hlabels).collection σ).walkBy sizes most none)
      (Walk.Linked none most (((Tree.joined groups hlabels).course none).left + 1)) :=
    Collection.walkBy_linked (((Tree.joined groups hlabels).follows σ).gives hkeeps')
      (fun _ hb => hb) hsizes most nofun
  intro j k
  refine ⟨hmatches j k, (hlinked k).unfailing, fun hmost => ?_⟩
  exact (Collection.walkBy_ensures ((Tree.joined groups hlabels).follows σ) hkeeps'
    (fun _ hb => hb) hsizes (by simp [Collection.startOf]) hmost k).finished

/-- The vowels among some letters, and other letters. -/
def Group.vowels : Group String where
  name := "vowels"
  labels := ["first", "second"]
  branches := .cons "first" (.leaf (.letters "e" "a" (by decide)))
    (.cons "second" (.filter (.leaf (.letters "b" "i" (by decide))) (· == "i") .sync (by decide))
      .nil)
  nonempty := List.cons_ne_nil _ _

/-- Two letters in a group of their own. -/
def Group.others : Group String where
  name := "others"
  labels := ["third"]
  branches := .cons "third" (.leaf (.letters "c" "d" (by decide))) .nil
  nonempty := List.cons_ne_nil _ _

/-- Two groups of letters, read to the end with pages of growing size. -/
theorem Tree.letters_grouped :
    Run.Agree (fun walk other => walk.Matches other ∧ other.failure = none ∧
        other.finished = true)
      (((Tree.grouped [.vowels, .others] rfl rfl).collection Unit).walkBy (· + 1)
        (((Tree.joined [.vowels, .others] rfl).course none).left + 1) none)
      (((Tree.joined [.vowels, .others] rfl).collection Unit).walkBy (· + 1)
        (((Tree.joined [.vowels, .others] rfl).course none).left + 1) none) :=
  (walk_grouped [.vowels, .others] rfl rfl (by decide) (fun n => Nat.succ_pos n) _).mono
    fun _ _ h => ⟨h.1, h.2.1, h.2.2 (Nat.lt_succ_self _)⟩

end KeysetPaging
