import KeysetPaging.Proofs.Deriving
import KeysetPaging.Proofs.Instant
import Mathlib

/-! # One instant, however it is written

A clock that is ahead of universal time reads the seconds of universal time and those that it is
ahead by. What it reads is written in the strict form or in the database form, with its offset, or
in universal time without one. The reader takes the offset off again and finds the same instant,
which is also the one that the number of seconds names.
-/

namespace KeysetPaging.Instant

open Decimal (padded)
open Text (trimStart isBlank)

/-! ## Clocks -/

/-- The reading of a clock that counts so many seconds since it read the start of 1970. -/
def WallTime.ofSeconds (seconds : Int) : WallTime where
  date := Date.ofDays (seconds / 86400)
  hour := (seconds % 86400).toNat / 3600
  minute := (seconds % 86400).toNat / 60 % 60
  second := (seconds % 86400).toNat % 60
  nanos := 0

/-- The year is written in four digits and without a sign. -/
def WallTime.HasShortYear (w : WallTime) : Prop :=
  0 ≤ w.date.year ∧ w.date.year ≤ 9999

instance (w : WallTime) : Decidable w.HasShortYear := by
  unfold WallTime.HasShortYear; infer_instance

/-- In universal time an instant of whole seconds is read off its seconds. -/
theorem toWallTime_eq_ofSeconds {t : Instant} (h : t.nanos = 0) :
    t.toWallTime = WallTime.ofSeconds t.seconds := by
  simp [toWallTime, WallTime.ofSeconds, h]

/-- Which seconds lie in the years 0 to 9999. -/
theorem WallTime.hasShortYear_ofSeconds {seconds : Int} :
    (ofSeconds seconds).HasShortYear ↔ -62167219200 ≤ seconds ∧ seconds < 253402300800 := by
  rw [HasShortYear, ofSeconds, Date.year_ofDays_bounds]
  omega

/-- A reading with a short year exists. -/
theorem WallTime.valid_ofSeconds {seconds : Int} (h : (ofSeconds seconds).HasShortYear) :
    (ofSeconds seconds).Valid := by
  rw [hasShortYear_ofSeconds] at h
  refine ⟨Date.valid_ofDays ?_ ?_, ?_, ?_, ?_, ?_⟩
  · simp only [Date.firstDay]
    omega
  · simp only [Date.lastDay]
    omega
  all_goals
    simp only [ofSeconds]
    omega

/-- **A clock with an offset is set back by it.** A place that is ahead of universal time by so many
minutes reads that much more, at the same instant. -/
theorem ofWallTime?_ofSeconds {seconds offset : Int}
    (h : (WallTime.ofSeconds (seconds + 60 * offset)).HasShortYear) (hlow : -1440 < offset)
    (hhigh : offset < 1440) :
    ofWallTime? (WallTime.ofSeconds (seconds + 60 * offset)) offset = ofSeconds? seconds := by
  have hvalid := WallTime.valid_ofSeconds h
  rw [ofWallTime?, if_pos ⟨hvalid, hlow, hhigh⟩]
  simp only [WallTime.ofSeconds, Date.toDays_ofDays]
  rw [if_neg (by omega), ofSeconds?]
  congr 1
  omega

/-! ## Offsets -/

/-- The sign of an offset, which may be either when there is none. -/
inductive IsSign (shift : Int) : Char → Prop
  | ahead (h : 0 ≤ shift) : IsSign shift '+'
  | behind (h : shift ≤ 0) : IsSign shift '-'

/-- How the strict form writes an offset: the hours and the minutes in two digits each, with a colon
between them, or `Z` for no offset. -/
inductive Zone (shift : Int) : List Char → Prop
  | zulu (h : shift = 0) : Zone shift ['Z']
  | numeric {sign : Char} (h : IsSign shift sign) :
      Zone shift (sign :: (padded 2 (shift.natAbs / 60) ++ ':' :: padded 2 (shift.natAbs % 60)))

/-- How the database form writes an offset. It can leave out the colon, or minutes of zero. -/
inductive LooseZone (shift : Int) : List Char → Prop
  | zone {zone : List Char} (h : Zone shift zone) : LooseZone shift zone
  | packed {sign : Char} (h : IsSign shift sign) :
      LooseZone shift (sign :: (padded 2 (shift.natAbs / 60) ++ padded 2 (shift.natAbs % 60)))
  | hours {sign : Char} (h : IsSign shift sign) (hminutes : shift % 60 = 0) :
      LooseZone shift (sign :: padded 2 (shift.natAbs / 60))

/-- A sign and the minutes behind it make the offset. -/
theorem IsSign.exists_factor {shift : Int} {sign : Char} (h : IsSign shift sign) :
    ∃ s, offsetSign? sign = some s ∧
      s * (shift.natAbs / 60 * 60 + shift.natAbs % 60 : Nat) = shift := by
  cases h with
  | ahead h => exact ⟨1, by decide, by omega⟩
  | behind h => exact ⟨-1, by decide, by omega⟩

theorem IsSign.ne_zulu {shift : Int} {sign : Char} (h : IsSign shift sign) :
    ¬ (sign = 'Z' || sign = 'z') := by
  cases h <;> decide

/-- Exactly the digits of a padded number are read. -/
theorem fixed_padded {width n : Nat} (hw : 0 < width) (hn : n < 10 ^ width) (rest : List Char) :
    fixed width (padded width n ++ rest) = some (n, rest) := by
  have hlen := Decimal.length_padded hw hn
  have hsplit : Decimal.splitDigits width (padded width n ++ rest) = (padded width n, rest) :=
    Decimal.splitDigits_append (Decimal.isDigit_of_mem_padded width n) (Nat.le_of_eq hlen)
      fun h => by omega
  simp only [fixed, hsplit, hlen, if_true, Decimal.ofDigits_padded]

/-- A place of two digits is read. -/
theorem fixed_two {n : Nat} (hn : n < 100) (rest : List Char) :
    fixed 2 (padded 2 n ++ rest) = some (n, rest) :=
  fixed_padded (by decide) hn rest

section Offsets

variable {shift : Int} {sign : Char} {between : List Char → Option (List Char)} {cs : List Char}

/-- The hours of an offset of less than a day fit two digits. -/
theorem fixed_hours (hlow : -1440 < shift) (hhigh : shift < 1440) (cs : List Char) :
    fixed 2 (padded 2 (shift.natAbs / 60) ++ cs) = some (shift.natAbs / 60, cs) :=
  fixed_two (by omega) cs

/-- **An offset is read** when its minutes are found behind its hours. -/
theorem offset_minutes (hlow : -1440 < shift) (hhigh : shift < 1440) (hsign : IsSign shift sign)
    (hbetween : between cs = some (padded 2 (shift.natAbs % 60))) (minutesOptional : Bool) :
    offset between minutesOptional (sign :: (padded 2 (shift.natAbs / 60) ++ cs))
      = some (shift, []) := by
  obtain ⟨s, hs, hshift⟩ := hsign.exists_factor
  have hminutes : fixed 2 (padded 2 (shift.natAbs % 60)) = some (shift.natAbs % 60, []) := by
    simpa using fixed_two (show shift.natAbs % 60 < 100 by omega) []
  have hlt : shift.natAbs % 60 < 60 := Nat.mod_lt _ (by decide)
  rw [offset, if_neg hsign.ne_zulu]
  simp only [Option.bind_eq_bind, hs, fixed_hours hlow hhigh, hbetween, Option.bind_some,
    List.isEmpty_iff, Decimal.padded_ne_nil, if_false, hminutes, hlt, if_true, hshift]

/-- An offset of whole hours is read when nothing is found behind its hours. -/
theorem offset_hours (hlow : -1440 < shift) (hhigh : shift < 1440) (hsign : IsSign shift sign)
    (hbetween : between cs = some []) (hwhole : shift % 60 = 0) :
    offset between true (sign :: (padded 2 (shift.natAbs / 60) ++ cs)) = some (shift, []) := by
  obtain ⟨s, hs, hshift⟩ := hsign.exists_factor
  rw [show shift.natAbs % 60 = 0 by omega, Nat.add_zero] at hshift
  rw [offset, if_neg hsign.ne_zulu]
  simp only [Option.bind_eq_bind, hs, fixed_hours hlow hhigh, hbetween, Option.bind_some,
    List.isEmpty_nil, if_true, hshift]

/-- An offset is not read when its minutes are not found. -/
theorem offset_eq_none (hlow : -1440 < shift) (hhigh : shift < 1440) (hsign : IsSign shift sign)
    (hbetween : between cs = none) (minutesOptional : Bool) :
    offset between minutesOptional (sign :: (padded 2 (shift.natAbs / 60) ++ cs)) = none := by
  obtain ⟨s, hs, -⟩ := hsign.exists_factor
  rw [offset, if_neg hsign.ne_zulu]
  simp only [Option.bind_eq_bind, hs, fixed_hours hlow hhigh, hbetween, Option.bind_some,
    Option.bind_none]

/-- No colon stands in front of a padded number. -/
theorem expect_colon_padded (width n : Nat) : expect ':' (padded width n) = none := by
  obtain ⟨c, cs, hcs, hc⟩ := Decimal.exists_padded_eq_cons width n
  rw [hcs, expect, if_neg]
  rintro rfl
  exact absurd hc (by decide)

/-- Colons and blanks end at a padded number. -/
theorem dropWhile_padded (width n : Nat) :
    (padded width n).dropWhile (fun c => c = ':' || isBlank c) = padded width n := by
  obtain ⟨c, cs, hcs, hc⟩ := Decimal.exists_padded_eq_cons width n
  have hcolon : c ≠ ':' := by
    rintro rfl
    exact absurd hc (by decide)
  simp [hcs, hcolon, (ne_of_isDigit hc).1]

/-- An offset of less than a day is read in the strict form. -/
theorem Zone.offset_eq (hlow : -1440 < shift) (hhigh : shift < 1440) (h : Zone shift cs) :
    offset (expect ':') false cs = some (shift, []) := by
  cases h with
  | zulu h => simp [offset, h]
  | numeric hsign => exact offset_minutes hlow hhigh hsign (by simp [expect]) false

/-- An offset of less than a day is read in the database form. -/
theorem LooseZone.offset_eq (hlow : -1440 < shift) (hhigh : shift < 1440) (h : LooseZone shift cs) :
    offset passColons true cs = some (shift, []) := by
  cases h with
  | zone h =>
    cases h with
    | zulu h => simp [offset, h]
    | numeric hsign =>
      exact offset_minutes hlow hhigh hsign (by simp [passColons, dropWhile_padded]) true
  | packed hsign =>
    exact offset_minutes hlow hhigh hsign (by rw [passColons, dropWhile_padded]) true
  | hours hsign hwhole =>
    rw [← List.append_nil (padded 2 _)]
    exact offset_hours hlow hhigh hsign rfl hwhole

/-- What the strict form reads of an offset in the database form is the same, or nothing. -/
theorem LooseZone.strict_offset_eq (hlow : -1440 < shift) (hhigh : shift < 1440)
    (h : LooseZone shift cs) :
    offset (expect ':') false cs = some (shift, []) ∨ offset (expect ':') false cs = none := by
  cases h with
  | zone h => exact .inl (h.offset_eq hlow hhigh)
  | packed hsign =>
    exact .inr (offset_eq_none hlow hhigh hsign (expect_colon_padded _ _) false)
  | hours hsign =>
    rw [← List.append_nil (padded 2 _)]
    exact .inr (offset_eq_none hlow hhigh hsign rfl false)

/-- An offset starts with no blank and with no point. -/
theorem LooseZone.exists_cons (h : LooseZone shift cs) :
    ∃ c rest, cs = c :: rest ∧ isBlank c = false ∧ c ≠ '.' := by
  have hsigns {sign : Char} (h : IsSign shift sign) : isBlank sign = false ∧ sign ≠ '.' := by
    cases h <;> decide
  cases h with
  | zone h =>
    cases h with
    | zulu h => exact ⟨_, _, rfl, by decide⟩
    | numeric hsign => exact ⟨_, _, rfl, hsigns hsign⟩
  | packed hsign => exact ⟨_, _, rfl, hsigns hsign⟩
  | hours hsign => exact ⟨_, _, rfl, hsigns hsign⟩

end Offsets

/-! ## Texts -/

/-- There is no fraction where there is no point. -/
theorem fraction_eq {cs : List Char} (h : ∀ c ∈ cs.head?, c ≠ '.') :
    fraction cs = some (0, cs) := by
  rw [fraction.eq_2]
  rintro rest rfl
  exact h '.' rfl rfl

section Texts

variable {w : WallTime} {rest : List Char}

/-- **The strict form is read place by place**, up to the offset. -/
theorem readStrict_wholeText (h : w.Valid) (hshort : w.HasShortYear) (hnanos : w.nanos = 0)
    {between : Char} (hbetween : ∀ cs, dateEnd (between :: cs) = some cs)
    (hrest : ∀ c ∈ rest.head?, c ≠ '.') :
    readStrict (String.ofList (w.wholeText between ++ rest))
      = (offset (expect ':') false rest).bind fun (shift, cs) =>
          if cs.isEmpty then ofWallTime? w shift else none := by
  obtain ⟨hmonth, hday, hhour, hminute, hsecond⟩ := h.fits
  obtain ⟨hlow, hhigh⟩ := hshort
  have hyear : (w.date.year.natAbs : Int) = w.date.year := by omega
  have hread (cs : List Char) : fixed 4 (yearText w.date.year ++ cs)
      = some (w.date.year.natAbs, cs) := by
    rw [yearText, if_pos ⟨hlow, hhigh⟩]
    exact fixed_padded (by decide) (by omega) cs
  have hexpect (c : Char) (cs : List Char) : expect c (c :: cs) = some cs := if_pos rfl
  rw [readStrict, String.toList_ofList, WallTime.wholeText]
  simp only [List.append_assoc, List.cons_append]
  rw [bind_of_eq_some (hread _), bind_of_eq_some (hexpect '-' _),
    bind_of_eq_some (fixed_two hmonth _), bind_of_eq_some (hexpect '-' _),
    bind_of_eq_some (fixed_two hday _), bind_of_eq_some (hbetween _),
    bind_of_eq_some (fixed_two hhour _), bind_of_eq_some (hexpect ':' _),
    bind_of_eq_some (fixed_two hminute _), bind_of_eq_some (hexpect ':' _),
    bind_of_eq_some (fixed_two hsecond _), bind_of_eq_some (fraction_eq hrest), hyear, ← hnanos]
  rfl

/-- **The database form is read place by place**, up to what follows the time of day. -/
theorem databaseWallTime_wholeText (h : w.Valid) (hnanos : w.nanos = 0)
    (hrest : ∀ c ∈ rest.head?, c ≠ '.') :
    databaseWallTime (String.ofList (w.wholeText ' ' ++ rest)) = some (w, rest) := by
  -- The blank in the middle is passed over as any blank in front of a place is.
  rw [databaseWallTime, String.toList_ofList,
    looseWallTime_wholeText h (fun _ _ _ => rfl) (fun _ => rfl) (fun _ => rfl), fraction_eq hrest,
    Option.map_some, ← hnanos]

end Texts

/-! ## Spellings -/

/-- So many seconds fall in a year of four digits, both in universal time and on a clock that is so
many minutes ahead of it and less than a day away. -/
structure Tellable (seconds shift : Int) : Prop where
  universal : (WallTime.ofSeconds seconds).HasShortYear
  shown : (WallTime.ofSeconds (seconds + 60 * shift)).HasShortYear
  low : -1440 < shift
  high : shift < 1440

/-- The values that name so many seconds: what a clock shows, in the strict form or in the database
form with its offset, what one in universal time shows without an offset, and the number itself. -/
inductive Spells (seconds shift : Int) : Json → Prop
  | strict {zone : List Char} (h : Zone shift zone) : Spells seconds shift
      (.str (.ofList ((WallTime.ofSeconds (seconds + 60 * shift)).wholeText 'T' ++ zone)))
  | database {zone : List Char} (h : LooseZone shift zone) : Spells seconds shift
      (.str (.ofList ((WallTime.ofSeconds (seconds + 60 * shift)).wholeText ' ' ++ zone)))
  | naive : Spells seconds shift (.str (.ofList ((WallTime.ofSeconds seconds).wholeText ' ')))
  | number : Spells seconds shift (.int seconds)

variable {seconds shift : Int}

/-- The instant of a number of seconds has these seconds and no fraction. -/
theorem ofSeconds?_eq_some_iff {t : Instant} :
    ofSeconds? seconds = some t ↔ t.seconds = seconds ∧ t.nanos = 0 := by
  rw [ofSeconds?, ofParts?]
  constructor
  · intro h
    split_ifs at h
    obtain rfl := Option.some.inj h
    exact ⟨rfl, rfl⟩
  · obtain ⟨seconds, nanos, hfirst, hlast, hlt, hleap⟩ := t
    rintro ⟨rfl, rfl⟩
    rw [dif_pos ⟨hfirst, hlast, hlt, hleap⟩]

/-- The instants of short years are instants of the calendar. -/
theorem exists_ofSeconds? (h : (WallTime.ofSeconds seconds).HasShortYear) :
    ∃ t, ofSeconds? seconds = some t := by
  rw [WallTime.hasShortYear_ofSeconds] at h
  rw [ofSeconds?, ofParts?, dif_pos (by simp only [Date.firstDay, Date.lastDay]; omega)]
  exact ⟨_, rfl⟩

/-- A clock in universal time is not set back. -/
theorem ofWallTime?_universal (h : (WallTime.ofSeconds seconds).HasShortYear) :
    ofWallTime? (WallTime.ofSeconds seconds) 0 = ofSeconds? seconds := by
  obtain ⟨t, ht⟩ := exists_ofSeconds? h
  obtain ⟨rfl, hnanos⟩ := ofSeconds?_eq_some_iff.mp ht
  rw [← toWallTime_eq_ofSeconds hnanos, ofWallTime?_toWallTime, ht]

/-- **Instants of whole seconds are ordered by their seconds.** -/
theorem compare_of_seconds {a b : Int} {t u : Instant} (ht : ofSeconds? a = some t)
    (hu : ofSeconds? b = some u) : Bookmark.compare (.time t) (.time u) = compareInt a b := by
  obtain ⟨rfl, htnanos⟩ := ofSeconds?_eq_some_iff.mp ht
  obtain ⟨rfl, hunanos⟩ := ofSeconds?_eq_some_iff.mp hu
  rw [Bookmark.compare, compare, htnanos, hunanos]
  exact Ordering.then_eq

/-- A text in the strict form names the instant of its seconds. -/
theorem ofTimestamp?_strict (h : Tellable seconds shift) {zone : List Char}
    (hzone : Zone shift zone) :
    ofTimestamp? (.ofList ((WallTime.ofSeconds (seconds + 60 * shift)).wholeText 'T' ++ zone))
      = ofSeconds? seconds := by
  obtain ⟨t, ht⟩ := exists_ofSeconds? h.universal
  obtain ⟨c, rest, rfl, -, hpoint⟩ := (LooseZone.zone hzone).exists_cons
  rw [ofTimestamp?, readStrict_wholeText (WallTime.valid_ofSeconds h.shown) h.shown rfl
    (fun _ => by simp [dateEnd]) (by simpa using hpoint), hzone.offset_eq h.low h.high]
  simp only [Option.bind_some, List.isEmpty_nil, if_true,
    ofWallTime?_ofSeconds h.shown h.low h.high, ht, Option.orElse_some]

/-- A text in the database form names the instant of its seconds. If its offset is written as in the
strict form, it is read in the strict form, which takes a blank in the middle. -/
theorem ofTimestamp?_database (h : Tellable seconds shift) {zone : List Char}
    (hzone : LooseZone shift zone) :
    ofTimestamp? (.ofList ((WallTime.ofSeconds (seconds + 60 * shift)).wholeText ' ' ++ zone))
      = ofSeconds? seconds := by
  have hvalid := WallTime.valid_ofSeconds h.shown
  obtain ⟨t, ht⟩ := exists_ofSeconds? h.universal
  have hwall := (ofWallTime?_ofSeconds h.shown h.low h.high).trans ht
  obtain ⟨c, rest, rfl, hblank, hpoint⟩ := hzone.exists_cons
  have hhead : ∀ d ∈ (c :: rest).head?, d ≠ '.' := by simpa using hpoint
  have hdatabase : readDatabase
      (.ofList ((WallTime.ofSeconds (seconds + 60 * shift)).wholeText ' ' ++ c :: rest))
      = some t := by
    simp only [readDatabase, databaseWallTime_wholeText hvalid rfl hhead, Option.bind_eq_bind,
      Option.bind_some, trimStart_cons hblank, hzone.offset_eq h.low h.high, List.isEmpty_nil,
      if_true, hwall]
  rw [ofTimestamp?, hdatabase, ht,
    readStrict_wholeText hvalid h.shown rfl (fun _ => by simp [dateEnd]) hhead]
  rcases hzone.strict_offset_eq h.low h.high with hstrict | hstrict
  · simp [hstrict, hwall]
  · simp [hstrict]

/-- A text in the database form without an offset is in universal time. -/
theorem ofTimestamp?_naive (h : (WallTime.ofSeconds seconds).HasShortYear) :
    ofTimestamp? (.ofList ((WallTime.ofSeconds seconds).wholeText ' ')) = ofSeconds? seconds := by
  have hvalid := WallTime.valid_ofSeconds h
  have hblank (cs : List Char) : dateEnd (' ' :: cs) = some cs := by simp [dateEnd]
  have hhead : ∀ c ∈ ([] : List Char).head?, c ≠ '.' := by simp
  have hstrict := readStrict_wholeText hvalid h rfl hblank hhead
  have hdatabase := databaseWallTime_wholeText hvalid rfl hhead
  rw [List.append_nil] at hstrict hdatabase
  -- Either form with an offset looks for one at the end of the text and finds none.
  simp [ofTimestamp?, readDatabase, readNaive, hstrict, hdatabase, offset, trimStart,
    ofWallTime?_universal h]

/-- A whole number names the instant of its seconds. -/
theorem instant?_int (h : (WallTime.ofSeconds seconds).HasShortYear) :
    (Json.int seconds).instant? = ofSeconds? seconds := by
  rw [WallTime.hasShortYear_ofSeconds] at h
  have hint : (Int64.ofInt seconds).toInt = seconds :=
    Int64.toInt_ofInt_of_le (by omega) (by omega)
  have hread : (Json.int seconds).int64? = some (.ofInt seconds) :=
    Json.int64?_eq_some_iff.mpr (by rw [hint])
  rw [Json.instant?, hread, Option.bind_some, hint]
  nofun

/-- **Every spelling names the instant of its seconds.** -/
theorem Spells.instant? {v : Json} (hv : Spells seconds shift v) (h : Tellable seconds shift) :
    v.instant? = ofSeconds? seconds := by
  cases hv with
  | strict hzone => exact ofTimestamp?_strict h hzone
  | database hzone => exact ofTimestamp?_database h hzone
  | naive => exact ofTimestamp?_naive h.universal
  | number => exact instant?_int h.universal

/-- The text that is written of an instant is one of its spellings. -/
theorem spells_toText {t : Instant} (h : t.nanos = 0) : Spells t.seconds 0 (.str t.toText) := by
  have hspells : Spells t.seconds 0 _ := .strict (.zulu rfl)
  rw [Int.mul_zero, Int.add_zero, ← toWallTime_eq_ofSeconds h] at hspells
  have hwhole : t.toWallTime.text = t.toWallTime.wholeText 'T' := by
    rw [WallTime.text_eq, toWallTime_eq_ofSeconds h]
    exact List.append_nil _
  rwa [toText, hwhole]

/-- **All spellings of an instant are one key.** A field of instants reads the same bookmark from
every spelling of a number of seconds, and the bookmarks of two numbers are ordered as the numbers
are, whichever their spellings and their offsets. -/
theorem read_spellings (h : Tellable seconds shift) :
    ∃ t, ofSeconds? seconds = some t ∧
      (∀ v, Spells seconds shift v → FieldKind.timestamp.read v = .ok (.time t)) ∧
      ∀ others ahead w, Tellable others ahead → Spells others ahead w →
        ∃ u, FieldKind.timestamp.read w = .ok (.time u) ∧
          Bookmark.compare (.time t) (.time u) = compareInt seconds others := by
  have hread {seconds shift : Int} {v : Json} {t : Instant} (h : Tellable seconds shift)
      (hv : Spells seconds shift v) (ht : ofSeconds? seconds = some t) :
      FieldKind.timestamp.read v = .ok (.time t) :=
    FieldKind.read_eq_ok_iff.mpr (FieldKind.instant?_eq_some_iff.mp ((hv.instant? h).trans ht))
  obtain ⟨t, ht⟩ := exists_ofSeconds? h.universal
  refine ⟨t, ht, fun v hv => hread h hv ht, fun others ahead w hother hw => ?_⟩
  obtain ⟨u, hu⟩ := exists_ofSeconds? hother.universal
  exact ⟨u, hread hother hw hu, compare_of_seconds ht hu⟩

/-- The last second of 1969 is in the new year on a clock that is five and a half hours ahead. It
comes before noon of the first of March 2024 on a clock that is two hours ahead. -/
theorem read_newYear :
    ∃ t, ofSeconds? (-1) = some t ∧
      (∀ v ∈ [.str "1970-01-01T05:29:59+05:30", .str "1970-01-01 05:29:59+0530",
        .str "1969-12-31 23:59:59", .int (-1)], FieldKind.timestamp.read v = .ok (.time t)) ∧
      ∃ u, FieldKind.timestamp.read (.str "2024-03-01T12:00:00+02:00") = .ok (.time u) ∧
        Bookmark.compare (.time t) (.time u) = .lt := by
  have hearly : Tellable (-1) 330 := ⟨by decide, by decide, by decide, by decide⟩
  have hlate : Tellable 1709287200 120 := ⟨by decide, by decide, by decide, by decide⟩
  have hstrict : Spells (-1) 330 _ := .strict (.numeric (.ahead (by decide)))
  have hdatabase : Spells (-1) 330 _ := .database (.packed (.ahead (by decide)))
  have hnaive : Spells (-1) 330 _ := .naive
  have hnoon : Spells 1709287200 120 _ := .strict (.numeric (.ahead (by decide)))
  cbv at hstrict hdatabase hnaive hnoon
  obtain ⟨t, ht, hread, hcompare⟩ := read_spellings hearly
  obtain ⟨u, hu, hlt⟩ := hcompare _ _ _ hlate hnoon
  refine ⟨t, ht, ?_, u, hu, hlt⟩
  simp only [List.forall_mem_cons]
  exact ⟨hread _ hstrict, hread _ hdatabase, hread _ hnaive, hread _ .number, by simp⟩

end KeysetPaging.Instant
