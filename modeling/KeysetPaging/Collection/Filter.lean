import KeysetPaging.Source

/-! # Filters

A filter keeps the items of an inner collection that pass a test. The filling mode asks for inner
pages of growing size until the page is full, and the sifting mode returns what is left of one
inner page, asking again only while nothing is left. Both stop after a number of rounds.
-/

namespace KeysetPaging

/-- How a filter uses inner pages. -/
inductive FilterMode where
  /-- Asks for inner pages until the page is full. -/
  | filling
  /-- Returns what passes of one inner page, and asks again only while nothing does. -/
  | sifting
  deriving DecidableEq, Repr, Inhabited

/-- The name of a mode. -/
def FilterMode.name : FilterMode → String
  | .filling => "async"
  | .sifting => "sync"

/-- The name of a mode as a constructor of a shape. -/
def FilterMode.label : FilterMode → String
  | .filling => "Async"
  | .sifting => "Sync"

/-- The mode with the given name. -/
def FilterMode.ofName? (name : String) : Option FilterMode :=
  if name = "async" then some .filling
  else if name = "sync" then some .sifting
  else none

/-- The limits of a filter. -/
structure FilterOptions where
  mode : FilterMode := .filling
  /-- The most inner pages for one page. -/
  maxRounds : Nat := 64
  /-- The size that inner pages grow to, unless the page itself is larger. -/
  maxFetch : Nat := 1000
  deriving DecidableEq, Repr, Inhabited

namespace FilterOptions

/-- The options of a filter that returns what is left of one inner page. -/
def sync : FilterOptions :=
  { mode := .sifting }

/-- The options with another number of rounds, which is at least one. -/
def withMaxRounds (options : FilterOptions) (maxRounds : Nat) : FilterOptions :=
  { options with maxRounds := if maxRounds = 0 then 1 else maxRounds }

/-- The options with another size to grow to, which is at least one. -/
def withMaxFetch (options : FilterOptions) (maxFetch : Nat) : FilterOptions :=
  { options with maxFetch := if maxFetch = 0 then 1 else maxFetch }

/-- Reads the options of a filter. Each part may be missing. -/
def ofDocument? (d : Document) : Option FilterOptions := do
  match ← d.parts? ["mode", "max_rounds", "max_fetch"] with
  | [mode, maxRounds, maxFetch] =>
      some {
        mode := ← Option.partOr .filling (SortField.choice? FilterMode.ofName?) mode
        maxRounds := ← Option.partOr 64 Document.count? maxRounds
        maxFetch := ← Option.partOr 1000 Document.count? maxFetch }
  | _ => none

/-- The written form of the options. -/
def toJson (options : FilterOptions) : Json :=
  .ofFields [("mode", .str options.mode.name), ("max_rounds", .int options.maxRounds),
    ("max_fetch", .int options.maxFetch)]

end FilterOptions

namespace Filter

variable {σ α : Type}

/-- The size of the inner page after one of the given size. It doubles up to the limit, and never
falls below the size of the page itself. -/
def grow (options : FilterOptions) (perPage size : Nat) : Nat :=
  min (2 * size) (max options.maxFetch perPage)

/-- What the page becomes with the entries of one inner page that pass: the page, and whether it
is full now. At least one entry is taken, and as many as there is room for. When entries are left
over, the next page resumes after the last one taken. When none are left over but the inner
sequence goes on, it resumes after the inner page. -/
def take (kept : List (α × Bookmark)) (sub page : Page α) : Page α × Bool :=
  let room := max 1 page.remaining
  let taken := page.append (kept.take room)
  if room < kept.length then (taken.markMore, true)
  else if room = kept.length then
    (if sub.hasMore then taken.markMore.resume sub.nextBookmark else taken, true)
  else (taken, false)

/-- Fills a page from inner pages, with `left` rounds to go. -/
def fillRounds (options : FilterOptions) (keep : α → Bool) (supply : Supply σ α) :
    (left round : Nat) → (place : Option Bookmark) → (size : Nat) → Page α → Run σ (Filled α)
  | 0, _, place, _, page => do
      Run.note (.filterLimit options.maxRounds page.items.length)
      return { page := page.markMore.resume place }
  | left + 1, round, place, size, page => do
      match ← supply size place with
      | .error e => return { page, failure := some e }
      | .ok sub =>
          Run.note (.filterRound round sub.items.length sub.hasMore)
          let kept := sub.entries.filter fun entry => keep entry.1
          let (page, full) := take kept sub page
          if full || !sub.hasMore then return { page }
          else
            fillRounds options keep supply left (round + 1) sub.nextBookmark
              (grow options page.perPage size) page

/-- Sifts inner pages until something is left of one, with `left` rounds to go. -/
def siftRounds (options : FilterOptions) (keep : α → Bool) (supply : Supply σ α) :
    (left round : Nat) → (place : Option Bookmark) → Page α → Run σ (Filled α)
  | 0, _, place, page => do
      Run.note (.syncLimit options.maxRounds)
      return { page := page.markMore.resume place }
  | left + 1, round, place, page => do
      match ← supply page.perPage place with
      | .error e => return { page, failure := some e }
      | .ok sub =>
          Run.note (.syncRound round sub.items.length sub.hasMore)
          let page := page.append (sub.entries.filter fun entry => keep entry.1)
          if !sub.hasMore then return { page }
          else if !page.items.isEmpty then
            return { page := page.markMore.resume sub.nextBookmark }
          else siftRounds options keep supply left (round + 1) sub.nextBookmark page

/-- Fills a page with the items of an inner collection that pass a test. -/
def fill (options : FilterOptions) (keep : α → Bool) (supply : Supply σ α) (page : Page α) :
    Run σ (Filled α) :=
  match options.mode with
  | .filling =>
      fillRounds options keep supply options.maxRounds 0 page.current page.perPage page
  | .sifting => siftRounds options keep supply options.maxRounds 0 page.current page

end Filter

end KeysetPaging
