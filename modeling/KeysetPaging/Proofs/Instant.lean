import KeysetPaging.Instant.Reading
import KeysetPaging.Instant.Written
import KeysetPaging.Proofs.Calendar
import KeysetPaging.Proofs.Decimal

/-! # Instants are read back

The text of an instant names that instant to the lenient reader, whatever the year, and also when
the instant lies in a leap second.
-/

namespace KeysetPaging.Instant

open Decimal (padded StopsDigits stopsDigits_cons)
open Text (trimStart isBlank)

/-- The clock reading of an instant is one that exists. -/
theorem valid_toWallTime (t : Instant) : t.toWallTime.Valid := by
  have hfirst := t.first_le
  have hlast := t.lt_last
  have hnanos := t.nanos_lt
  simp only [WallTime.Valid, toWallTime]
  refine ⟨Date.valid_ofDays (by omega) (by omega), by omega, by omega, ?_, ?_⟩
  · split_ifs <;> omega
  · split_ifs <;> omega

/-- **The clock reading of an instant in universal time names the instant.** -/
theorem ofWallTime?_toWallTime (t : Instant) : ofWallTime? t.toWallTime 0 = some t := by
  have hvalid := valid_toWallTime t
  have hparts : ofParts? t.seconds t.nanos = some t := by
    rw [ofParts?, dif_pos ⟨t.first_le, t.lt_last, t.nanos_lt, t.leap_at⟩]
  rw [ofWallTime?, if_pos ⟨hvalid, by decide, by decide⟩]
  have hleap := t.leap_at
  have hnanos := t.nanos_lt
  -- A second that is written as 60 is a leap second, whose nanoseconds are a billion and more.
  simp only [toWallTime, Date.toDays_ofDays]
  split_ifs with hlow hsixty
  · omega
  · rw [← hparts]
    congr 1
    omega
  · rw [← hparts]
    congr 1 <;> omega
  · omega

/-- A digit is neither blank nor a sign. -/
theorem ne_of_isDigit {c : Char} (h : c.isDigit = true) :
    isBlank c = false ∧ c ≠ '-' ∧ c ≠ '+' := by
  have hrange : 48 ≤ c.toNat ∧ c.toNat ≤ 57 := by
    simpa [Char.isDigit, UInt32.le_iff_toNat_le] using h
  refine ⟨?_, ?_, ?_⟩
  · simp only [isBlank, Bool.or_eq_false_iff, Bool.and_eq_false_iff, decide_eq_false_iff_not,
      beq_eq_false_iff_ne]
    omega
  · rintro rfl
    exact absurd hrange (by decide)
  · rintro rfl
    exact absurd hrange (by decide)

/-- Nothing is trimmed from a text that starts with no blank. -/
theorem trimStart_cons {c : Char} (h : isBlank c = false) (cs : List Char) :
    trimStart (c :: cs) = c :: cs := by
  simp [trimStart, h]

/-- Nothing is trimmed from the front of a padded number. -/
theorem trimStart_padded (width n : Nat) (rest : List Char) :
    trimStart (padded width n ++ rest) = padded width n ++ rest := by
  obtain ⟨c, cs, hcs, hc⟩ := Decimal.exists_padded_eq_cons width n
  rw [hcs, List.cons_append, trimStart_cons (ne_of_isDigit hc).1]

/-- A place of two digits is read back. -/
theorem loose_padded {n : Nat} (hn : n < 100) (rest : List Char) :
    loose 2 (padded 2 n ++ rest) = some (n, rest) := by
  have hlen : (padded 2 n).length = 2 := Decimal.length_padded (by decide) hn
  rw [loose, trimStart_padded, Decimal.upTo_padded (by omega) (by omega)]

/-- **A year is read back**, with its sign when it does not fit four digits. -/
theorem looseYear_yearText (year : Int) {rest : List Char} (hrest : StopsDigits rest) :
    looseYear (yearText year ++ rest) = some (year, rest) := by
  have hupTo : Decimal.upTo (padded 4 year.natAbs ++ rest).length (padded 4 year.natAbs ++ rest)
      = some (year.natAbs, rest) := Decimal.upTo_padded (by simp) fun _ => hrest
  rw [yearText]
  split_ifs with hshort hneg
  · have hlen : (padded 4 year.natAbs).length = 4 :=
      Decimal.length_padded (by decide) (by omega)
    have hread : Decimal.upTo 4 (padded 4 year.natAbs ++ rest) = some (year.natAbs, rest) :=
      Decimal.upTo_padded (by omega) (by omega)
    obtain ⟨c, cs, hcs, hc⟩ := Decimal.exists_padded_eq_cons 4 year.natAbs
    obtain ⟨-, hminus, hplus⟩ := ne_of_isDigit hc
    -- The reader looks for a sign first, and the first digit is none.
    rw [looseYear, trimStart_padded]
    rw [hcs, List.cons_append] at hread ⊢
    split
    next heq => exact absurd (List.cons.inj heq).1 hminus
    next heq => exact absurd (List.cons.inj heq).1 hplus
    next =>
      rw [hread, Option.map_some]
      simp only [Option.some.injEq, Prod.mk.injEq, and_true]
      omega
  · rw [List.cons_append, looseYear, trimStart_cons (by decide)]
    simp only [hupTo, Option.map_some, Option.some.injEq, Prod.mk.injEq, and_true]
    omega
  · rw [List.cons_append, looseYear, trimStart_cons (by decide)]
    simp only [hupTo, Option.map_some, Option.some.injEq, Prod.mk.injEq, and_true]
    omega

/-- A fraction of a number of digits is read back, with the zeros that were left out. -/
theorem fraction_padded {width n : Nat} (hw : 0 < width) (hle : width ≤ 9) (hn : n < 10 ^ width)
    (c : Char) (hc : c.isDigit = false) (rest : List Char) :
    fraction ('.' :: (padded width n ++ c :: rest)) = some (n * 10 ^ (9 - width), c :: rest) := by
  have hlen := Decimal.length_padded hw hn
  have hsplit : Decimal.splitDigits 9 (padded width n ++ c :: rest) = (padded width n, c :: rest) :=
    Decimal.splitDigits_append (Decimal.isDigit_of_mem_padded width n) (by omega) fun _ =>
      stopsDigits_cons hc rest
  simp only [fraction, hsplit]
  simp [Decimal.padded_ne_nil, Decimal.ofDigits_padded, Decimal.tenTo, hlen, hc]

/-- **The fraction of a second is read back.** -/
theorem fraction_fractionText {nanos : Nat} (h : nanos < 1000000000) {c : Char}
    (hc : c.isDigit = false) (hpoint : c ≠ '.') (rest : List Char) :
    fraction (fractionText nanos ++ c :: rest) = some (nanos, c :: rest) := by
  rw [fractionText]
  split_ifs with hzero hmillis hmicros
  · rw [List.nil_append, fraction.eq_2 _ fun _ heq => hpoint (List.cons.inj heq).1, hzero]
  · rw [List.cons_append, fraction_padded (by decide) (by decide) (by omega) c hc]
    congr 2
    omega
  · rw [List.cons_append, fraction_padded (by decide) (by decide) (by omega) c hc]
    congr 2
    omega
  · rw [List.cons_append, fraction_padded (by decide) (by decide) (by omega) c hc]
    congr 2
    omega

/-- A reading of a clock to the second, with the given character between the date and the time of
day. -/
def WallTime.wholeText (between : Char) (w : WallTime) : List Char :=
  yearText w.date.year ++ '-' :: padded 2 w.date.month ++ '-' :: padded 2 w.date.day ++
    between :: padded 2 w.hour ++ ':' :: padded 2 w.minute ++ ':' :: padded 2 w.second

/-- The fraction of a second is written behind the whole seconds. -/
theorem WallTime.text_eq (w : WallTime) : w.text = w.wholeText 'T' ++ fractionText w.nanos := by
  simp only [text, wholeText, List.append_assoc, List.cons_append]

/-- The places of a reading fit two digits each. -/
theorem WallTime.Valid.fits {w : WallTime} (h : w.Valid) :
    w.date.month < 100 ∧ w.date.day < 100 ∧ w.hour < 100 ∧ w.minute < 100 ∧ w.second < 100 := by
  obtain ⟨⟨-, -, -, hmonth, -, hday⟩, hhour, hminute, hsecond, -⟩ := h
  have hlong : Date.daysInMonth w.date.year w.date.month ≤ 31 := by
    simp only [Date.daysInMonth]
    split_ifs <;> omega
  omega

/-- A reader goes on with what its first step gives. -/
theorem bind_of_eq_some {α β : Type} {x : Option α} {a : α} (h : x = some a) (f : α → Option β) :
    (x >>= f) = f a := by
  rw [h]
  rfl

/-- **A clock reading is read place by place** up to the fraction of its second. A separator stands
where it is expected, and `skip` is what is left in front of the time of day. -/
theorem looseWallTime_wholeText {w : WallTime} (h : w.Valid) {gap : List Char → List Char}
    {next : List Char → Option (List Char)} {skip : List Char → List Char} {between : Char}
    (hgap : ∀ c cs, isBlank c = false → gap (c :: cs) = c :: cs)
    (hnext : ∀ cs, next (between :: cs) = some (skip cs))
    (hskip : ∀ cs, loose 2 (skip cs) = loose 2 cs) (rest : List Char) :
    looseWallTime gap next (w.wholeText between ++ rest)
      = (fraction rest).map fun (nanos, rest) => ({ w with nanos }, rest) := by
  obtain ⟨hmonth, hday, hhour, hminute, hsecond⟩ := h.fits
  have hdash (cs : List Char) : expect '-' (gap ('-' :: cs)) = some cs := by
    rw [hgap _ _ (by decide), expect, if_pos rfl]
  have hcolon (cs : List Char) : expect ':' (gap (':' :: cs)) = some cs := by
    rw [hgap _ _ (by decide), expect, if_pos rfl]
  rw [looseWallTime, WallTime.wholeText]
  simp only [List.append_assoc, List.cons_append]
  rw [bind_of_eq_some (looseYear_yearText _ (stopsDigits_cons (by decide) _)),
    bind_of_eq_some (hdash _), bind_of_eq_some (loose_padded hmonth _), bind_of_eq_some (hdash _),
    bind_of_eq_some (loose_padded hday _), bind_of_eq_some (hnext _), hskip,
    bind_of_eq_some (loose_padded hhour _), bind_of_eq_some (hcolon _),
    bind_of_eq_some (loose_padded hminute _), bind_of_eq_some (hcolon _),
    bind_of_eq_some (loose_padded hsecond _)]
  cases fraction rest <;> rfl

/-- **A clock reading is read back** from its text. -/
theorem looseWallTime_text {w : WallTime} (h : w.Valid) {c : Char}
    (hc : c.isDigit = false) (hpoint : c ≠ '.') (rest : List Char) :
    looseWallTime trimStart dateEnd (w.text ++ c :: rest) = some (w, c :: rest) := by
  have hT (cs : List Char) : dateEnd ('T' :: cs) = some (id cs) := by simp [dateEnd]
  rw [WallTime.text_eq, List.append_assoc,
    looseWallTime_wholeText h (fun c cs hc => trimStart_cons hc cs) hT (fun _ => rfl),
    fraction_fractionText h.2.2.2.2 hc hpoint]
  rfl

/-- **An instant is read back from its text.** -/
theorem readRelaxed_toText (t : Instant) : readRelaxed t.toText = some t := by
  have hread := looseWallTime_text (valid_toWallTime t) (c := 'Z') (by decide) (by decide) []
  have hzone : namedOffset (trimStart ['Z']) = some (0, []) := by decide
  rw [readRelaxed, toText, String.toList_ofList, hread]
  simp only [Option.bind_eq_bind, Option.bind_some, hzone]
  simp only [trimStart, List.dropWhile_nil, List.isEmpty_nil, if_true]
  exact ofWallTime?_toWallTime t

end KeysetPaging.Instant
