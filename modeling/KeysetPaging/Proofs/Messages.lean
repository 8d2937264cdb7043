import KeysetPaging.CommandLine.Run
import KeysetPaging.Proofs.Walk

/-! # Messages about pages

A message names the bookmark that its page starts after, the place where the next page resumes and
the token that asks for it. So from the messages about the pages of a walk a reader can tell that
they are counted from one, that each page goes on where the one before it leaves off, and whether
the last one is the end.
-/

namespace KeysetPaging

theorem Json.sortedItems_eq (items : List Json) : sortedItems items = items.map sorted := by
  induction items with
  | nil => rfl
  | cons v rest ih => rw [sortedItems, ih, List.map_cons]

namespace CommandLine

/-- The fields of the message about a page stand in the order of their names. -/
theorem pageMessage_eq (collection : String) (number : Nat) (page : Page Json) :
    pageMessage collection number page = .obj [("collection", .str collection),
      ("number", .int number),
      ("page", .obj [("current_bookmark", (bookmarkJson page.current).sorted),
        ("items", .arr (page.items.map Json.sorted)),
        ("next_bookmark", (bookmarkJson page.nextBookmark).sorted),
        ("next_page", .ofText? page.nextToken)]),
      ("type", .str "PAGE")] := by
  cases htoken : page.nextToken <;>
    simp only [pageMessage, message, Json.ofFields, Json.sortFields, Json.insertField, Json.sorted,
      Json.sortedValues, Json.sortedItems_eq, Json.ofText?, htoken, List.foldl_cons,
      List.foldl_nil, String.reduceLT, String.reduceEq, reduceIte]

section

variable (collection : String) (number : Nat) (page : Page Json)

theorem pageMessage_type :
    (pageMessage collection number page).atPath? "type" = some (.str "PAGE") := by
  rw [pageMessage_eq]
  rfl

theorem pageMessage_number :
    (pageMessage collection number page).atPath? "number" = some (.int number) := by
  rw [pageMessage_eq]
  rfl

theorem pageMessage_current : (pageMessage collection number page).atPath? "page.current_bookmark"
    = some (bookmarkJson page.current).sorted := by
  rw [pageMessage_eq]
  rfl

theorem pageMessage_nextBookmark : (pageMessage collection number page).atPath? "page.next_bookmark"
    = some (bookmarkJson page.nextBookmark).sorted := by
  rw [pageMessage_eq]
  rfl

theorem pageMessage_nextPage : (pageMessage collection number page).atPath? "page.next_page"
    = some (.ofText? page.nextToken) := by
  rw [pageMessage_eq]
  rfl

theorem pageMessage_items : (pageMessage collection number page).atPath? "page.items"
    = some (.arr (page.items.map Json.sorted)) := by
  rw [pageMessage_eq]
  rfl

end

/-- At least one page is shown. -/
theorem pageLimit_pos (all : Bool) (maxPages : Option Nat) : 0 < pageLimit all maxPages := by
  rw [pageLimit]
  split
  · omega
  · exact Nat.one_pos

/-- The items in the message about a page. -/
def shownItems (message : Json) : List Json :=
  match message.atPath? "page.items" with
  | some (.arr items) => items
  | _ => []

/-- A message names the bookmark and the token at which the next page resumes, and the next message
the bookmark after which that page starts. -/
def LeadsTo (message next : Json) : Prop :=
  ∃ b : Bookmark, message.atPath? "page.next_bookmark" = some b.toJson.sorted ∧
    message.atPath? "page.next_page" = some (.str b.token) ∧
    next.atPath? "page.current_bookmark" = some b.toJson.sorted

/-- The message says that no page comes after this one. -/
def EndsAt (message : Json) : Prop :=
  message.atPath? "page.next_bookmark" = some .null ∧
    message.atPath? "page.next_page" = some .null

variable {collection : String}

theorem length_pageMessages (number : Nat) (pages : List (Page Json)) :
    (pageMessages collection number pages).length = pages.length := by
  induction pages generalizing number with
  | nil => rfl
  | cons page rest ih => rw [pageMessages, List.length_cons, List.length_cons, ih]

/-- The messages are counted on from the first number. -/
theorem map_number_pageMessages (number : Nat) (pages : List (Page Json)) :
    (pageMessages collection number pages).map (·.atPath? "number")
      = (List.range' number pages.length).map fun n => some (.int n) := by
  induction pages generalizing number with
  | nil => rfl
  | cons page rest ih =>
    rw [pageMessages, List.map_cons, pageMessage_number, ih, List.length_cons, List.range'_succ,
      List.map_cons]

/-- The messages show the items of the pages. -/
theorem flatMap_shownItems_pageMessages (number : Nat) (pages : List (Page Json)) :
    (pageMessages collection number pages).flatMap shownItems
      = (pages.flatMap (·.items)).map Json.sorted := by
  induction pages generalizing number with
  | nil => rfl
  | cons page rest ih =>
    rw [pageMessages, List.flatMap_cons, ih, shownItems, pageMessage_items, List.flatMap_cons,
      List.map_append]

/-- Every message is about a page. -/
theorem forall_mem_pageMessages {Q : Json → Prop} {pages : List (Page Json)}
    (h : ∀ page ∈ pages, ∀ number, Q (pageMessage collection number page)) (number : Nat) :
    ∀ message ∈ pageMessages collection number pages, Q message := by
  induction pages generalizing number with
  | nil => simp [pageMessages]
  | cons page rest ih =>
    simp only [pageMessages, List.mem_cons, forall_eq_or_imp]
    exact ⟨h page List.mem_cons_self number,
      ih (fun page hpage => h page (List.mem_cons_of_mem _ hpage)) (number + 1)⟩

/-- What pages say about the next ones, their messages say about the next ones. -/
theorem isChain_pageMessages {R : Page Json → Page Json → Prop} {Q : Json → Json → Prop}
    (h : ∀ page next, R page next → ∀ number later,
      Q (pageMessage collection number page) (pageMessage collection later next))
    (number : Nat) {pages : List (Page Json)} (hpages : pages.IsChain R) :
    (pageMessages collection number pages).IsChain Q := by
  induction hpages generalizing number with
  | nil => exact .nil
  | singleton page => exact .singleton _
  | cons_cons hfirst _ ih => exact .cons_cons (h _ _ hfirst _ _) (ih (number + 1))

/-- The last message is about the last page. -/
theorem getLast?_pageMessages (collection : String) {pages : List (Page Json)} {page : Page Json}
    (h : pages.getLast? = some page) (number : Nat) :
    ∃ n, (pageMessages collection number pages).getLast?
      = some (pageMessage collection n page) := by
  induction pages generalizing number with
  | nil => cases h
  | cons first rest ih =>
    cases rest with
    | nil =>
      obtain rfl : first = page := by simpa using h
      exact ⟨number, rfl⟩
    | cons second later =>
      obtain ⟨n, hn⟩ := ih (by simpa [List.getLast?_cons_cons] using h) (number + 1)
      exact ⟨n, by rw [pageMessages, pageMessages, List.getLast?_cons_cons, ← hn, pageMessages]⟩

/-- A page that another one goes on from names the place in its message. -/
theorem leadsTo_pageMessage {page next : Page Json}
    (h : page.nextBookmark.isSome ∧ next.current = page.nextBookmark) (number later : Nat) :
    LeadsTo (pageMessage collection number page) (pageMessage collection later next) := by
  obtain ⟨b, hb⟩ := Option.isSome_iff_exists.mp h.1
  refine ⟨b, ?_, ?_, ?_⟩
  · rw [pageMessage_nextBookmark, hb, bookmarkJson]
  · rw [pageMessage_nextPage, Page.nextToken, hb]
    rfl
  · rw [pageMessage_current, h.2, hb, bookmarkJson]

/-- A page that leaves off nowhere says so in its message. -/
theorem endsAt_pageMessage {page : Page Json} (h : page.nextBookmark = none) (number : Nat) :
    EndsAt (pageMessage collection number page) := by
  refine ⟨?_, ?_⟩
  · rw [pageMessage_nextBookmark, h]
    rfl
  · rw [pageMessage_nextPage, Page.nextToken, h]
    rfl

/-! ## Reports -/

/-- A run prints at least one message and at most so many. It stops at the message about the last
page, or when as many messages are printed as there may be. -/
structure Report.Stops (limit bound : Nat) (report : Report) : Prop where
  unfailing : report.failure = none
  nonempty : report.messages ≠ []
  length_le : report.messages.length ≤ bound
  stops : report.messages.length = limit ∨
    ∃ message, report.messages.getLast? = some message ∧ EndsAt message

/-- The messages of a run are about pages, counted from one. The first page starts at the beginning,
every other one where the page before it leaves off, and the last page is the end. Together the
pages show the given items. -/
structure Report.Tells (items : List Json) (report : Report) : Prop where
  unfailing : report.failure = none
  pages : ∀ message ∈ report.messages, message.atPath? "type" = some (.str "PAGE")
  numbered : report.messages.map (·.atPath? "number")
    = (List.range' 1 report.messages.length).map fun n => some (.int n)
  starts : ∀ message ∈ report.messages.head?,
    message.atPath? "page.current_bookmark" = some .null
  chained : report.messages.IsChain LeadsTo
  ends : ∃ message, report.messages.getLast? = some message ∧ EndsAt message
  shown : report.messages.flatMap shownItems = items

/-- The messages about the pages of a walk stop where the walk does. -/
theorem Report.stops_of_linked (name : String) {start : Option Bookmark} {limit bound : Nat}
    {walk : Walk Json} (h : walk.Linked start limit bound) (hlimit : 0 < limit) :
    Report.Stops limit bound { messages := pageMessages name 1 walk.pages } := by
  have hends : walk.finished = true → ∃ message,
      (pageMessages name 1 walk.pages).getLast? = some message ∧ EndsAt message := by
    intro hfinished
    obtain ⟨page, hlast, hnext⟩ := h.ends hfinished
    obtain ⟨n, hn⟩ := getLast?_pageMessages name hlast 1
    exact ⟨_, hn, endsAt_pageMessage hnext n⟩
  refine ⟨rfl, ?_, ?_, ?_⟩
  · rcases h.stops with hfinished | hlength
    · obtain ⟨message, hmessage, -⟩ := hends hfinished
      exact List.ne_nil_of_mem (List.mem_of_getLast? hmessage)
    · refine List.ne_nil_of_length_pos ?_
      rw [length_pageMessages, hlength]
      exact hlimit
  · rw [length_pageMessages]
    exact h.length_le
  · rw [length_pageMessages]
    exact h.stops.symm.imp id hends

/-- The messages about the pages of a walk from the beginning to the end tell its items. -/
theorem Report.tells_of_linked (name : String) {limit bound : Nat} {walk : Walk Json}
    (h : walk.Linked none limit bound) (hfinished : walk.finished = true) :
    Report.Tells (walk.items.map Json.sorted)
      { messages := pageMessages name 1 walk.pages } where
  unfailing := rfl
  pages := forall_mem_pageMessages (fun page _ number => pageMessage_type name number page) 1
  numbered := by
    rw [map_number_pageMessages, length_pageMessages]
  starts := by
    have hstarts := h.starts
    cases hpages : walk.pages with
    | nil => simp [pageMessages]
    | cons page rest =>
      rw [hpages] at hstarts
      rintro _ ⟨⟩
      rw [pageMessage_current, hstarts page rfl]
      rfl
  chained := isChain_pageMessages (fun _ _ => leadsTo_pageMessage) 1 h.chain
  ends := by
    obtain ⟨page, hlast, hnext⟩ := h.ends hfinished
    obtain ⟨n, hn⟩ := getLast?_pageMessages name hlast 1
    exact ⟨_, hn, endsAt_pageMessage hnext n⟩
  shown := flatMap_shownItems_pageMessages 1 walk.pages

end CommandLine

end KeysetPaging
