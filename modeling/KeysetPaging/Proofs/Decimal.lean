import KeysetPaging.Decimal.Natural
import Mathlib.Algebra.GroupWithZero.Nat
import Mathlib.Data.List.Basic

/-! # Decimal numbers are read back

The digits of a number, plain or padded to a width, are read back from the front of any text in
which no digit follows them.
-/

namespace KeysetPaging.Decimal

/-- What follows a run of digits: no text at all, or something that is no digit. -/
def StopsDigits (cs : List Char) : Prop :=
  ∀ c ∈ cs.head?, c.isDigit = false

theorem stopsDigits_cons {c : Char} (h : c.isDigit = false) (cs : List Char) :
    StopsDigits (c :: cs) := by
  simpa [StopsDigits] using h

theorem isDigit_digit {n : Nat} (hn : n < 10) : (digit n).isDigit = true := by
  have table : ∀ n < 10, (digit n).isDigit = true := by decide
  exact table n hn

theorem digitValue_digit {n : Nat} (hn : n < 10) : digitValue (digit n) = n := by
  have table : ∀ n < 10, digitValue (digit n) = n := by decide
  exact table n hn

theorem ofDigits_append_singleton (ds : List Char) (c : Char) :
    ofDigits (ds ++ [c]) = 10 * ofDigits ds + digitValue c := by
  simp [ofDigits]

/-- The digits of a number are digits. -/
theorem isDigit_of_mem_digits (n : Nat) : ∀ c ∈ digits n, c.isDigit = true := by
  fun_induction digits n with
  | case1 n hn =>
    intro c hc
    rw [List.mem_singleton.mp hc]
    exact isDigit_digit hn
  | case2 n hn ih =>
    intro c hc
    rcases List.mem_append.mp hc with hc | hc
    · exact ih c hc
    · rw [List.mem_singleton.mp hc]
      exact isDigit_digit (by omega)

/-- The digits of a number write it. -/
theorem ofDigits_digits (n : Nat) : ofDigits (digits n) = n := by
  fun_induction digits n with
  | case1 n hn => simp [ofDigits, digitValue_digit hn]
  | case2 n hn ih =>
    rw [ofDigits_append_singleton, ih, digitValue_digit (by omega)]
    omega

theorem digits_ne_nil (n : Nat) : digits n ≠ [] := by
  fun_induction digits n <;> simp

/-- A number below a power of ten has at most as many digits as the exponent. -/
theorem length_digits_le {width n : Nat} (hw : 0 < width) (h : n < 10 ^ width) :
    (digits n).length ≤ width := by
  fun_induction digits n generalizing width with
  | case1 n hn => simpa [Nat.succ_le_iff] using hw
  | case2 n hn ih =>
    obtain ⟨w, rfl⟩ : ∃ w, width = w + 1 := ⟨width - 1, by omega⟩
    have hw' : 0 < w := by
      rcases Nat.eq_zero_or_pos w with rfl | hpos
      · omega
      · exact hpos
    have := ih hw' (by rw [Nat.pow_succ] at h; omega)
    simpa using this

/-- Only zero starts with the digit of zero. -/
theorem digits_head_ne_zero {n : Nat} (hn : n ≠ 0) : (digits n).head? ≠ some '0' := by
  fun_induction digits n with
  | case1 n h =>
    have table : ∀ n < 10, n ≠ 0 → digit n ≠ '0' := by decide
    simpa using table n h hn
  | case2 n h ih =>
    rw [List.head?_append_of_ne_nil _ (digits_ne_nil _)]
    exact ih (by omega)

/-- Zeros in front of digits do not change the number. -/
theorem ofDigits_replicate_append (k : Nat) (ds : List Char) :
    ofDigits (List.replicate k '0' ++ ds) = ofDigits ds := by
  induction k with
  | zero => rfl
  | succ k ih =>
    rw [List.replicate_succ, List.cons_append]
    simpa [ofDigits, digitValue] using ih

/-- The padded digits of a number write it. -/
theorem ofDigits_padded (width n : Nat) : ofDigits (padded width n) = n := by
  rw [padded, ofDigits_replicate_append, ofDigits_digits]

theorem isDigit_of_mem_padded (width n : Nat) : ∀ c ∈ padded width n, c.isDigit = true := by
  intro c hc
  rcases List.mem_append.mp hc with hc | hc
  · rw [List.eq_of_mem_replicate hc]
    decide
  · exact isDigit_of_mem_digits n c hc

theorem padded_ne_nil (width n : Nat) : padded width n ≠ [] := by
  simp [padded, digits_ne_nil]

/-- A padded number starts with a digit. -/
theorem exists_padded_eq_cons (width n : Nat) :
    ∃ c cs, padded width n = c :: cs ∧ c.isDigit = true := by
  obtain ⟨c, cs, hcs⟩ := List.exists_cons_of_ne_nil (padded_ne_nil width n)
  exact ⟨c, cs, hcs, isDigit_of_mem_padded width n c (by simp [hcs])⟩

/-- A number that fits a width is padded to exactly this width. -/
theorem length_padded {width n : Nat} (hw : 0 < width) (h : n < 10 ^ width) :
    (padded width n).length = width := by
  have := length_digits_le hw h
  simp only [padded, List.length_append, List.length_replicate]
  omega

/-- A run of digits that is no longer than allowed is taken whole. -/
theorem splitDigits_append {max : Nat} {ds rest : List Char} (hds : ∀ c ∈ ds, c.isDigit = true)
    (hlen : ds.length ≤ max) (hrest : ds.length < max → StopsDigits rest) :
    splitDigits max (ds ++ rest) = (ds, rest) := by
  induction ds generalizing max with
  | nil =>
    cases max with
    | zero => rfl
    | succ max =>
      cases rest with
      | nil => rfl
      | cons c cs =>
        have hc : c.isDigit = false := hrest (by simp) c (by simp)
        simp [splitDigits, hc]
  | cons d ds ih =>
    obtain ⟨m, rfl⟩ : ∃ m, max = m + 1 := ⟨max - 1, by simp at hlen; omega⟩
    have htail := ih (fun c hc => hds c (by simp [hc])) (by simpa using hlen)
      (fun h => hrest (by simpa using h))
    rw [List.cons_append, splitDigits, if_pos (hds d (by simp)), htail]

/-- A padded number is read back. -/
theorem upTo_padded {max width n : Nat} {rest : List Char} (hlen : (padded width n).length ≤ max)
    (hrest : (padded width n).length < max → StopsDigits rest) :
    upTo max (padded width n ++ rest) = some (n, rest) := by
  rw [upTo, splitDigits_append (isDigit_of_mem_padded width n) hlen hrest]
  simp [padded_ne_nil, ofDigits_padded]

end KeysetPaging.Decimal
