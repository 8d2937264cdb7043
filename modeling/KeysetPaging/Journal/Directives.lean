import KeysetPaging.Journal
import KeysetPaging.Text.Parts

/-! # Which events are shown

A list of directives, separated by commas, sets the level for parts of the program: `part=level`,
or `part` alone for every level. Of the directives that name the start of a part, the longest
counts. Parts without a directive have the level of the program, which a directive cannot change.
-/

namespace KeysetPaging

/-- The levels that parts of the program are shown at, by the start of their names. A level is the
rank of the last severity that is shown. -/
structure Directives where
  base : Nat
  parts : List (String × Nat) := []

namespace Directives

/-- The character with a capital letter made small. -/
def small (c : Char) : Char :=
  if 'A' ≤ c && c ≤ 'Z' then Char.ofNat (c.toNat + 32) else c

/-- The rank that a word or a digit names. -/
def rank? (word : String) : Option Nat :=
  let word := String.ofList (word.toList.map small)
  if word = "off" then some 0
  else match [Severity.error, .warn, .info, .debug, .trace].find? fun severity =>
      word = String.ofList (severity.name.toList.map small) ∨ word = toString severity.rank with
    | some severity => some severity.rank
    | none => if word = "0" then some 0 else none

/-- The character can be part of the name of a part. -/
def isPartChar (c : Char) : Bool :=
  c.isAlphanum || c == '_' || c == ':' || c == '-' || 128 ≤ c.toNat

/-- The part and the rank of a directive. A directive that names no part has no effect, and
neither has one that makes no sense. -/
def part? (directive : List Char) : Option (String × Nat) :=
  let name := directive.takeWhile (· ≠ '=')
  let word := String.ofList ((directive.dropWhile (· ≠ '=')).drop 1)
  if name.isEmpty || !name.all isPartChar then none
  else if name.length = directive.length then
    if (rank? (String.ofList name)).isSome then none
    else some (String.ofList name, Severity.trace.rank)
  else if word.isEmpty then some (String.ofList name, Severity.trace.rank)
  else (rank? word).map fun rank => (String.ofList name, rank)

/-- Reads directives. Of two for one part the last counts. -/
def ofText (base : Severity) (text : String) : Directives where
  base := base.rank
  parts := ((Text.cutAt ',' text.toList).filterMap part?).reverse

/-- The longest start of a name that has a directive. -/
def longest (name : String) : List (String × Nat) → Option (String × Nat)
  | [] => none
  | part :: rest =>
      match longest name rest with
      | none => if name.startsWith part.1 then some part else none
      | some other =>
          if name.startsWith part.1 && other.1.length ≤ part.1.length then some part
          else some other

/-- The event is shown. -/
def shows (directives : Directives) (e : Event) : Bool :=
  e.severity.rank ≤ ((longest e.target directives.parts).map (·.2)).getD directives.base

end Directives

end KeysetPaging
