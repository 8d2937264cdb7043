import KeysetPaging.Collection.Walk
import KeysetPaging.Proofs.Paginate
import KeysetPaging.Proofs.Tree
import Mathlib.Data.List.Chain

/-! # Walks read everything once

A walk asks for page after page, each by the token of the one before, and the sizes of the pages may
differ. When a collection follows a course and keeps its places, every token leads exactly to where
the page before left off, and every page leaves less to read, so the walk comes to an end and has
read what the course says.
-/

namespace KeysetPaging

variable {σ α : Type}

namespace Collection

/-- Walks through at most `most` pages from a token on, each of the next of the given sizes. -/
def walkBy (c : Collection σ α) :
    (sizes : Nat → Nat) → (most : Nat) → (token : Option String) → Run σ (Walk α)
  | _, 0, _ => return {}
  | sizes, most + 1, token => do
      match ← c.paginate { page := token, perPage := some (sizes 0) } with
      | .error e => return { failure := some e }
      | .ok page =>
          match page.nextToken with
          | none => return { pages := [page], finished := true }
          | some next =>
              let walk ← c.walkBy (fun n => sizes (n + 1)) most (some next)
              return { walk with pages := page :: walk.pages }

/-- A walk with pages of one size is a walk whose sizes are all the same. -/
theorem walk_eq_walkBy (c : Collection σ α) (perPage most : Nat) (token : Option String) :
    c.walk perPage most token = c.walkBy (fun _ => perPage) most token := by
  induction most generalizing token with
  | zero => rfl
  | succ most ih =>
    rw [walk, walkBy]
    refine congrArg (_ >>= ·) (funext fun answer => ?_)
    cases answer with
    | error e => rfl
    | ok page =>
      cases hnext : page.nextToken with
      | none => simp only [hnext]
      | some next => simp only [hnext, ih]

end Collection

/-- The items of a walk, page after page. -/
def Walk.items (walk : Walk α) : List α :=
  walk.pages.flatMap (·.items)

/-- The walk came to the end of the sequence, over at most one page more than there were items of
leaves left, and read what was left. -/
structure Walk.ReadsAll (r : Remainder α) (walk : Walk α) : Prop where
  unfailing : walk.failure = none
  finished : walk.finished = true
  length_le : walk.pages.length ≤ r.left + 1
  reads : ∃ zs, r.Reads zs ∧ walk.items = zs.map (·.1)

/-- The items of a page are those of its entries. -/
theorem Page.Answers.items_eq {course : Course α} {place : Option Bookmark} {page : Page α}
    (h : page.Answers course place) : page.items = page.entries.map (·.1) := by
  rw [Page.entries, List.map_fst_zip (Nat.le_of_eq h.paired)]

/-- Asked at a place with the property `P`, the supply answers with a page of which `A` holds. The
page starts there and holds only places with the property. -/
def Supply.Gives (P : Bookmark → Prop) (A : Option Bookmark → Page α → Prop)
    (supply : Supply σ α) : Prop :=
  ∀ perPage place, 0 < perPage → (∀ b ∈ place, P b) → Run.Ensures (supply perPage place)
    fun answer => ∃ page, answer = .ok page ∧ page.Within P ∧ page.current = place ∧ A place page

/-- A supply that follows a course answers at the places that it keeps with pages that follow it. -/
theorem Supply.Follows.gives {supply : Supply σ α} {course : Course α} {P : Bookmark → Prop}
    (hfollows : supply.Follows course) (hkeeps : supply.Keeps P) :
    supply.Gives P fun place page => page.Answers course place := by
  intro perPage place hperPage hplace
  refine ((hfollows perPage place hperPage).and (hkeeps perPage place hplace)).mono ?_
  rintro _ ⟨⟨page, rfl, hpage⟩, hwithin⟩
  obtain ⟨hwithin, hcurrent⟩ := hwithin page rfl
  exact ⟨page, rfl, hwithin, hcurrent, hpage⟩

/-- **Walks go from place to place.** What a walk is said to have in common with its starting place
holds of every walk if it holds of the walk of no page, of every page that is the last, and of every
page in front of a walk that starts where the page leaves off. The collection has to keep places
that it accepts and that nest no deeper than a token can. -/
theorem Collection.walkBy_induction {c : Collection σ α} {P : Bookmark → Prop}
    {A : Option Bookmark → Page α → Prop} {motive : Option Bookmark → Nat → Walk α → Prop}
    (hgives : c.supply.Gives P A)
    (hP : ∀ b, P b → c.accepts b ∧ b.levels ≤ Document.maxLevels)
    (unread : ∀ place, motive place 0 {})
    (last : ∀ place most page, A place page → page.current = place → page.nextBookmark = none →
      motive place (most + 1) { pages := [page], finished := true })
    (next : ∀ place most page b walk, A place page → page.current = place →
      page.nextBookmark = some b → motive (some b) most walk →
        motive place (most + 1) { walk with pages := page :: walk.pages })
    {sizes : Nat → Nat} (hsizes : ∀ n, 0 < sizes n) {most : Nat} {token : Option String}
    (hstart : ∀ b ∈ c.startOf token, P b) :
    Run.Ensures (c.walkBy sizes most token) (motive (c.startOf token) most) := by
  induction most generalizing sizes token with
  | zero => exact .pure (unread _)
  | succ most ih =>
    rw [walkBy]
    refine (paginate_ensures { page := token, perPage := some (sizes 0) } rfl (hsizes 0)
      (hgives (sizes 0) (c.startOf token) (hsizes 0) hstart)).bind ?_
    rintro _ ⟨page, rfl, hwithin, hcurrent, hpage⟩
    cases hnext : page.nextBookmark with
    | none =>
      simp only [Page.nextToken, hnext, Option.map_none]
      exact .pure (last _ most page hpage hcurrent hnext)
    | some b =>
      -- The token of the next page names the place where it resumes.
      obtain ⟨haccepts, hlevels⟩ := hP b (hwithin.next b hnext)
      have htoken : c.startOf (some b.token) = some b := startOf_token haccepts hlevels
      simp only [Page.nextToken, hnext, Option.map_some]
      have hrest : Run.Ensures (c.walkBy (fun n => sizes (n + 1)) most (some b.token))
          (motive (some b) most) := by
        rw [← htoken]
        refine ih (fun n => hsizes (n + 1)) ?_
        rw [htoken]
        rintro _ ⟨⟩
        exact hwithin.next b hnext
      exact hrest.bind fun walk hwalk =>
        .pure (next _ most page b walk hpage hcurrent hnext hwalk)

/-- **What a walk to the end has read** is what the course of a collection reads from its start.
Each page reads some of what is left, and leaves the rest to the pages that its token leads to. -/
theorem Collection.walkBy_reads {c : Collection σ α} {course : Course α} {P : Bookmark → Prop}
    (hgives : c.supply.Gives P fun place page => page.Answers course place)
    (hP : ∀ b, P b → c.accepts b ∧ b.levels ≤ Document.maxLevels) {sizes : Nat → Nat}
    (hsizes : ∀ n, 0 < sizes n) (most : Nat) {token : Option String}
    (hstart : ∀ b ∈ c.startOf token, P b) :
    Run.Ensures (c.walkBy sizes most token) fun walk => walk.finished = true →
      ∃ zs, (course (c.startOf token)).Reads zs ∧ walk.items = zs.map (·.1) := by
  refine walkBy_induction (motive := fun place _ walk => walk.finished = true →
    ∃ zs, (course place).Reads zs ∧ walk.items = zs.map (·.1)) hgives hP ?_ ?_ ?_ hsizes hstart
  · intro place hfinished
    cases hfinished
  · intro place most page hpage _ hnext _
    have hcovers := hpage.covers
    rw [hnext] at hcovers
    refine ⟨page.entries, ?_, by simp [Walk.items, hpage.items_eq]⟩
    simpa using hcovers.goes [] rfl
  · intro place most page b walk hpage _ hnext hwalk hfinished
    have hcovers := hpage.covers
    rw [hnext] at hcovers
    obtain ⟨zs, hzs, hitems⟩ := hwalk hfinished
    refine ⟨page.entries ++ zs, hcovers.goes zs hzs, ?_⟩
    rw [List.map_append, ← hpage.items_eq, ← hitems]
    rfl

/-- **A collection is read to the end** when its pages follow a course and enough of them are
allowed, since every page leaves less to read. -/
theorem Collection.walkBy_readsAll {c : Collection σ α} {course : Course α} {P : Bookmark → Prop}
    (hgives : c.supply.Gives P fun place page => page.Answers course place)
    (hP : ∀ b, P b → c.accepts b ∧ b.levels ≤ Document.maxLevels) {sizes : Nat → Nat}
    (hsizes : ∀ n, 0 < sizes n) (most : Nat) {token : Option String}
    (hstart : ∀ b ∈ c.startOf token, P b) :
    Run.Ensures (c.walkBy sizes most token) fun walk =>
      (course (c.startOf token)).left < most → Walk.ReadsAll (course (c.startOf token)) walk := by
  have hends : Run.Ensures (c.walkBy sizes most token) fun walk =>
      (course (c.startOf token)).left < most → walk.failure = none ∧ walk.finished = true ∧
        walk.pages.length ≤ (course (c.startOf token)).left + 1 := by
    refine walkBy_induction (motive := fun place most walk => (course place).left < most →
      walk.failure = none ∧ walk.finished = true ∧ walk.pages.length ≤ (course place).left + 1)
      hgives hP ?_ ?_ ?_ hsizes hstart
    · intro place hmost
      omega
    · intro place most page _ _ _ _
      exact ⟨rfl, rfl, by simp⟩
    · intro place most page b walk hpage _ hnext hwalk hmost
      have hgains := hpage.gains b hnext
      obtain ⟨hunfailing, hfinished, hlength⟩ := hwalk (by omega)
      refine ⟨hunfailing, hfinished, ?_⟩
      simp only [List.length_cons]
      omega
  refine (hends.and (walkBy_reads hgives hP hsizes most hstart)).mono ?_
  rintro walk ⟨hends, hreads⟩ hmost
  obtain ⟨hunfailing, hfinished, hlength⟩ := hends hmost
  exact ⟨hunfailing, hfinished, hlength, hreads hfinished⟩

/-- **A collection that follows a course is read to the end**, if it keeps places that it accepts
and that nest no deeper than a token can. -/
theorem Collection.walkBy_ensures {c : Collection σ α} {course : Course α} {P : Bookmark → Prop}
    (hfollows : c.supply.Follows course) (hkeeps : c.supply.Keeps P)
    (hP : ∀ b, P b → c.accepts b ∧ b.levels ≤ Document.maxLevels) {sizes : Nat → Nat}
    (hsizes : ∀ n, 0 < sizes n) {most : Nat} {token : Option String}
    (hstart : ∀ b ∈ c.startOf token, P b) (hmost : (course (c.startOf token)).left < most) :
    Run.Ensures (c.walkBy sizes most token) (Walk.ReadsAll (course (c.startOf token))) :=
  (walkBy_readsAll (hfollows.gives hkeeps) hP hsizes most hstart).mono fun _ hreads => hreads hmost

/-- The pages of a walk of at most `most` pages hang together: the first one starts at the given
place, every other one where the page before it leaves off, and only the last one may leave off
nowhere, in which case the walk has come to the end. There are at most as many pages as said. -/
structure Walk.Linked (start : Option Bookmark) (most bound : Nat) (walk : Walk α) : Prop where
  unfailing : walk.failure = none
  starts : ∀ page ∈ walk.pages.head?, page.current = start
  chain : walk.pages.IsChain fun page next =>
    page.nextBookmark.isSome ∧ next.current = page.nextBookmark
  ends : walk.finished = true →
    ∃ page, walk.pages.getLast? = some page ∧ page.nextBookmark = none
  stops : walk.finished = true ∨ walk.pages.length = most
  length_le : walk.pages.length ≤ bound

/-- The pages of a walk through a collection hang together, and there are at most as many as there
are items of leaves left and one more, however many are allowed. -/
theorem Collection.walkBy_linked {c : Collection σ α} {course : Course α} {P : Bookmark → Prop}
    (hgives : c.supply.Gives P fun place page => page.Answers course place)
    (hP : ∀ b, P b → c.accepts b ∧ b.levels ≤ Document.maxLevels) {sizes : Nat → Nat}
    (hsizes : ∀ n, 0 < sizes n) (most : Nat) {token : Option String}
    (hstart : ∀ b ∈ c.startOf token, P b) :
    Run.Ensures (c.walkBy sizes most token)
      (Walk.Linked (c.startOf token) most ((course (c.startOf token)).left + 1)) := by
  refine walkBy_induction (motive := fun place most walk =>
    Walk.Linked place most ((course place).left + 1) walk) hgives hP ?_ ?_ ?_ hsizes hstart
  · intro place
    exact ⟨rfl, by simp, .nil, by simp, .inr rfl, Nat.zero_le _⟩
  · intro place most page _ hcurrent hnext
    exact ⟨rfl, by simp [hcurrent], .singleton _, fun _ => ⟨page, rfl, hnext⟩, .inl rfl,
      by simp⟩
  · intro place most page b walk hpage hcurrent hnext hwalk
    have hgains := hpage.gains b hnext
    refine ⟨hwalk.unfailing, by simp [hcurrent], ?_, fun hfinished => ?_, ?_, ?_⟩
    · refine hwalk.chain.cons fun first hfirst => ?_
      rw [hwalk.starts first hfirst, hnext]
      exact ⟨rfl, rfl⟩
    · obtain ⟨final, hfinal, hdone⟩ := hwalk.ends hfinished
      exact ⟨final, by simp [List.getLast?_cons, hfinal], hdone⟩
    · exact hwalk.stops.imp id fun hlength => by simp [hlength]
    · have hlength := hwalk.length_le
      simp only [List.length_cons]
      omega

/-- **A walk through a tree reads exactly what comes after its starting place.** Whatever token it
starts from, and whatever the sizes of its pages, it ends after at most one page more than there are
items of leaves left, and its pages together hold what the course of the tree reads from the place
of the token on: after a place in a list, the items that follow it; of a transformed tree, the
images; of a filtered one, what passes; of a concatenation, the rest of one source and then every
later one; and of a merge, all its sources in turns, each in its own order. -/
theorem Tree.walk_reads_rest (t : Tree α) (hlevels : t.levels ≤ 127) (token : Option String)
    {sizes : Nat → Nat} (hsizes : ∀ n, 0 < sizes n) {most : Nat}
    (hmost : (t.course ((t.collection σ).startOf token)).left < most) :
    Run.Ensures ((t.collection σ).walkBy sizes most token)
      (Walk.ReadsAll (t.course ((t.collection σ).startOf token))) :=
  Collection.walkBy_ensures (t.follows σ) (t.keeps σ hlevels) (fun _ hb => hb) hsizes
    (fun b hb => Collection.accepts_startOf b hb) hmost

/-- Two letters as a list of items, marked by themselves. -/
def Shelf.letters (first second : String) (h : first ≠ second) : Shelf String where
  bookmarker := .key .text Bookmarker.acceptsKey .ascending
  items := [first, second]
  marked := [(first, .text first), (second, .text second)]
  standard := .key _ _ _
  mark_eq := rfl
  distinct := by simpa using h
  accepted := by simp [Bookmarker.key, Bookmarker.acceptsKey, Bookmark.isScalar]

/-- A concatenation of a filtered list and of a merge of two lists. -/
def Tree.letters : Tree String :=
  .concat
    (.cons "vowels" (.filter (.leaf (.letters "e" "b" (by decide))) (· == "e") {} (by decide))
      (.cons "others" (.merge (.cons "left" (.leaf (.letters "a" "d" (by decide)))
        (.cons "right" (.leaf (.letters "c" "a" (by decide))) .nil)) .ascending rfl) .nil))
    rfl

/-- A walk through the letters from the beginning, with pages of growing size. -/
theorem Tree.letters_walk :
    Run.Ensures ((letters.collection Unit).walkBy (· + 1) ((letters.course none).left + 1) none)
      (Walk.ReadsAll (letters.course none)) :=
  letters.walk_reads_rest (by decide) none (fun n => Nat.succ_pos n) (Nat.lt_succ_self _)

end KeysetPaging
