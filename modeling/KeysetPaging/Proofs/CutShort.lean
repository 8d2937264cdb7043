import KeysetPaging.Proofs.Printing
import KeysetPaging.Proofs.Steady
import Mathlib

/-! # Walks that are cut short

A walk may be allowed fewer pages than it takes to come to the end. When a collection always answers
alike, the pages of a shorter walk are the first pages of a longer one from the same token, since
nothing about a page depends on how many may follow. So the command that shows all pages of a
definition prints under a limit what it prints without one, up to the limit. It looks at the limit
only after a page is printed, and for this reason the limit of no page is one of one page.
-/

namespace KeysetPaging

open CommandLine

variable {σ α : Type}

/-- A walk went through the first pages of another one, as many as it was allowed, and failed only
where the other one did. -/
structure Walk.CutsShort (most : Nat) (walk whole : Walk α) : Prop where
  pages_eq : walk.pages = whole.pages.take most
  failure_eq : walk.failure = none ∨ walk.failure = whole.failure

/-- **A walk that is allowed fewer pages goes through the first pages of a longer one**, when the
collection always answers alike. -/
theorem Collection.walk_cutsShort {c : Collection σ α} (hc : c.supply.Steady) {perPage : Nat}
    (hperPage : 0 < perPage) {few many : Nat} (h : few ≤ many) (token : Option String) :
    Run.Agree (Walk.CutsShort few) (c.walk perPage few token) (c.walk perPage many token) := by
  induction few generalizing many token with
  | zero => exact fun _ _ => ⟨rfl, .inl rfl⟩
  | succ few ih =>
    obtain ⟨many, rfl⟩ : ∃ n, many = n + 1 := ⟨many - 1, by omega⟩
    rw [walk, walk]
    refine (paginate_agree rfl rfl hperPage hperPage (hc perPage _).agree).bind ?_
    rintro answer _ rfl
    cases answer with
    | error e => exact .pure ⟨rfl, .inr rfl⟩
    | ok page =>
      dsimp only
      cases page.nextToken with
      | none => exact .pure ⟨by simp, .inr rfl⟩
      | some next =>
        refine (ih (Nat.le_of_succ_le_succ h) (some next)).bind fun walk whole hwalk => ?_
        exact .pure ⟨by simp [hwalk.pages_eq], hwalk.failure_eq⟩

/-! ## Messages -/

namespace CommandLine

/-- The messages about the first pages are the first messages. -/
theorem pageMessages_take (collection : String) (n number : Nat) (pages : List (Page Json)) :
    pageMessages collection number (pages.take n)
      = (pageMessages collection number pages).take n := by
  induction pages generalizing n number with
  | nil => simp [pageMessages]
  | cons page rest ih =>
    cases n with
    | zero => rfl
    | succ n => rw [List.take_succ_cons, pageMessages, pageMessages, ih, List.take_succ_cons]

/-- Neither of two runs fails, and the first one prints the first messages of the other, as many as
said if there are so many. -/
structure Report.CutsShort (most : Nat) (report whole : Report) : Prop where
  unfailing : report.failure = none
  whole_unfailing : whole.failure = none
  messages_eq : report.messages = whole.messages.take most

/-- What is shown of a collection are the messages about the pages of a walk. -/
theorem showPages_answer (name : String) (c : Collection σ Json) (perPage : Nat)
    (token : Option String) (limit : Nat) (j : Journal σ) :
    (showPages name c perPage token limit j).1 =
      { messages := pageMessages name 1 (c.walk perPage limit token j).1.pages
        failure := (c.walk perPage limit token j).1.failure } := by
  generalize hwalk : c.walk perPage limit token j = walked
  rw [showPages, Run.bind_of_eq hwalk]
  dsimp only
  split <;> rfl

/-- Of a collection that always answers alike, fewer pages show the first messages of more pages,
unless the walk through these fails. -/
theorem showPages_cutsShort {c : Collection σ Json} (hc : c.supply.Steady) (name : String)
    {perPage : Nat} (hperPage : 0 < perPage) {few many : Nat} (h : few ≤ many)
    (token : Option String) :
    Run.Agree (fun report whole => whole.failure = none → Report.CutsShort few report whole)
      (showPages name c perPage token few) (showPages name c perPage token many) := by
  intro j k hwhole
  have hcut := Collection.walk_cutsShort hc hperPage h token j k
  rw [showPages_answer] at hwhole ⊢
  rw [showPages_answer]
  refine ⟨hcut.failure_eq.elim id (·.trans hwhole), hwhole, ?_⟩
  rw [← pageMessages_take, ← hcut.pages_eq]

end CommandLine

/-! ## Definitions -/

/-- An override is read in one way. -/
theorem Settings.withOverride_steady (settings : Settings) (override : Option String) :
    (settings.withOverride override : Run σ Settings).Steady := by
  rw [withOverride.eq_def]
  split
  · exact .pure _
  · split
    · exact .pure _
    · exact (Run.closed_steady.note _).bind fun _ => .pure _

namespace Definition

/-- A definition that lists its items, itself or in a file, opens in one way. -/
theorem openWith_steady {definition : Definition} {files : Files} {items : List Json}
    (hitems : definition.source.items? files = some items) (database : Sql.Database σ)
    (override : Option String) :
    (definition.openWith database files override).Steady := by
  rw [openWith]
  refine (Settings.withOverride_steady _ override).bind fun settings => ?_
  rw [openSource_eq database hitems, pure_bind]
  cases openItems definition.sort settings items with
  | error e => exact .pure _
  | ok opened => exact (Run.closed_steady.note _).bind fun _ => .pure _

/-- A definition over a list of items always answers alike. -/
theorem collection_steady (definition : Definition) (list : ItemList Json) (settings : Settings) :
    (definition.collection ⟨list.bookmarker, list.source, settings⟩
      : Collection σ Json).supply.Steady := by
  refine Run.closed_steady.ofFill (Run.closed_steady.collection_fill _ ?_)
  have hlist (page : Page Json) : ((list.source : Source σ Json).fetch page).Steady := .pure _
  unfold collection
  cases definition.filter <;> cases definition.select <;> exact hlist

/-- A limit of pages that a command line can name is no more than there are without one. -/
theorem pageLimit_le {maxPages : Nat} (h : maxPages ≤ Decimal.maxCount) :
    pageLimit true (some maxPages) ≤ pageLimit true none := by
  simp only [pageLimit, Option.getD_some, Option.getD_none, if_true]
  omega

end Definition

/-- Two commands that show pages of one definition agree as what they show does. -/
theorem CommandLine.Invocation.run_agree {invocation other : Invocation} {definition : Definition}
    {files : Files} {database : Sql.Database σ} {override : Option String} {perPage : Nat}
    {token : Option String} {all : Bool} {maxPages otherMax : Option Nat}
    {R : Report → Report → Prop}
    (hcommand : invocation.command = .page perPage token all maxPages)
    (hother : other.command = .page perPage token all otherMax)
    (hload : Run.Ensures (loadDefinition (σ := σ) files invocation) fun answer =>
      answer = .ok definition)
    (hload' : Run.Ensures (loadDefinition (σ := σ) files other) fun answer =>
      answer = .ok definition)
    (h : Run.Agree R (definition.printPages database files override perPage token all maxPages)
      (definition.printPages database files override perPage token all otherMax)) :
    Run.Agree R (invocation.run database files override) (other.run database files override) := by
  rw [Invocation.run, Invocation.run, hcommand, hother]
  have hloads : Run.Agree (fun answer answer' => answer = .ok definition ∧ answer' = .ok definition)
      (loadDefinition (σ := σ) files invocation) (loadDefinition files other) :=
    fun j k => ⟨hload j, hload' k⟩
  refine hloads.bind ?_
  rintro _ _ ⟨rfl, rfl⟩
  exact h

namespace Definition

/-- **A limit cuts the pages short.** A definition without faults, whose items all have a value of
every sort field, prints under a limit the messages that it prints without one, up to the limit:
as many as the limit says, at least one, and all of them when there are fewer. Both runs answer
without failure, whatever the token, the size of the pages, the override and what was noted before
them. Keys may be level. -/
theorem printPages_cutShort {definition : Definition} (hvalid : definition.check = .ok ())
    {files : Files} {items : List Json} (hitems : definition.source.items? files = some items)
    (hkeyed : SortField.Keyed definition.sort items) (database : Sql.Database σ)
    (override : Option String) {perPage : Nat} (hperPage : 0 < perPage) (token : Option String)
    {maxPages : Nat} (hmax : maxPages ≤ Decimal.maxCount) :
    Run.Agree (Report.CutsShort (max 1 maxPages))
        (definition.printPages database files override perPage token true (some maxPages))
        (definition.printPages database files override perPage token true none) ∧
      ∀ limited unlimited : Invocation,
        limited.command = .page perPage token true (some maxPages) →
        unlimited.command = .page perPage token true none →
        Run.Ensures (loadDefinition (σ := σ) files limited) (fun d => d = .ok definition) →
        Run.Ensures (loadDefinition (σ := σ) files unlimited) (fun d => d = .ok definition) →
          Run.Agree (Report.CutsShort (max 1 maxPages))
            (limited.run database files override) (unlimited.run database files override) := by
  obtain ⟨marked, hmarked⟩ := hkeyed.exists_mark
  have hordered := ItemList.ordered_sort (Bookmarker.ofFields_standard definition.sort) hmarked
  have hcut : Run.Agree (Report.CutsShort (max 1 maxPages))
      (definition.printPages database files override perPage token true (some maxPages))
      (definition.printPages database files override perPage token true none) := by
    have hunfailing : Run.Ensures
        (definition.printPages database files override perPage token true none)
        fun report => report.failure = none := by
      refine (printPages_ensures hvalid hitems hmarked hordered.follows database override hperPage
        token true none).mono ?_
      rintro _ ⟨_, _, -, rfl, -⟩
      rfl
    suffices h : Run.Agree
        (fun report whole => whole.failure = none → Report.CutsShort (max 1 maxPages) report whole)
        (definition.printPages database files override perPage token true (some maxPages))
        (definition.printPages database files override perPage token true none) from
      (h.and_right hunfailing).mono fun _ _ hcut => hcut.1 hcut.2
    rw [printPages, printPages]
    -- Both runs open the same list, and go through it with another limit.
    refine ((openWith_steady hitems database override).agree.and_left
      (openWith_ensures database override hvalid hitems hmarked)).bind ?_
    rintro _ _ ⟨rfl, settings, -, rfl⟩
    exact showPages_cutsShort (collection_steady definition
      ⟨_, ItemList.sort (.ofFields definition.sort) marked⟩ settings) definition.name hperPage
      (pageLimit_le hmax) token
  exact ⟨hcut, fun limited unlimited hlimited hunlimited hload hload' =>
    Invocation.run_agree hlimited hunlimited hload hload' hcut⟩

/-- Under a limit of no page, one page is printed and not none. -/
theorem fruits_uncut :
    let printed (maxPages : Option Nat) := ((fruits []).printPages (Sql.Database.silent Unit)
      (fun _ => .error "") none 1 none true maxPages ⟨[], ()⟩).1
    (printed (some 0)).messages ≠ (printed none).messages.take (min 0 (printed none).messages.length)
      ∧ (printed (some 0)).messages.length = 1 := by
  have hlength : ((fruits []).printPages (Sql.Database.silent Unit) (fun _ => .error "") none 1 none
      true (some 0) ⟨[], ()⟩).1.messages.length = 1 := by
    cbv
  refine ⟨fun h => ?_, hlength⟩
  rw [h] at hlength
  simp at hlength

/-- Two pages of the fruits are printed under a limit of two, from a token that names no place. -/
theorem fruits_cutShort :
    Run.Agree (Report.CutsShort 2)
      ((fruits []).printPages (Sql.Database.silent Unit) (fun _ => .error "") (some " 1") 1
        (some "7") true (some 2))
      ((fruits []).printPages (Sql.Database.silent Unit) (fun _ => .error "") (some " 1") 1
        (some "7") true none) := by
  have hkeyed : SortField.Keyed (fruits []).sort fruitItems := by
    simp only [SortField.Keyed, fruits, fruitItems, List.mem_cons, List.not_mem_nil, or_false,
      forall_eq_or_imp, forall_eq]
    refine ⟨?_, ?_, ?_, ?_⟩ <;> exact ⟨_, rfl⟩
  have hvalid : (fruits []).check = .ok () := rfl
  have hitems : (fruits []).source.items? (fun _ => .error "") = some fruitItems := rfl
  exact (printPages_cutShort hvalid hitems hkeyed (Sql.Database.silent Unit) (some " 1")
    Nat.one_pos (some "7") (show 2 ≤ Decimal.maxCount by decide)).1

end Definition

end KeysetPaging
