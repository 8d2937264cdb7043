import KeysetPaging.Base64
import Mathlib.Data.List.Basic

/-! # Base64 spellings are read back

Each of the four spellings of some bytes decodes to those bytes, whatever the order in which the
readers are tried: a reader that is not the one of the spelling refuses it or agrees.
-/

namespace KeysetPaging.Base64

/-- Every letter of an alphabet has the number that it writes. -/
theorem value?_letter (addressSafe : Bool) {n : Nat} (hn : n < 64) :
    value? addressSafe (letter addressSafe n) = some n := by
  have table : ∀ safe : Bool, ∀ n < 64, value? safe (letter safe n) = some n := by decide
  exact table addressSafe n hn

/-- No letter of an alphabet is the sign of the padding. -/
theorem letter_ne_pad (addressSafe : Bool) {n : Nat} (hn : n < 64) :
    letter addressSafe n ≠ '=' := by
  have table : ∀ safe : Bool, ∀ n < 64, letter safe n ≠ '=' := by decide
  exact table addressSafe n hn

/-- The two alphabets agree on the letters that both have. -/
theorem value?_letter_of_some {safe other : Bool} {n m : Nat} (hn : n < 64)
    (h : value? other (letter safe n) = some m) : m = n := by
  have table : ∀ safe other : Bool, ∀ n < 64, ∀ m ∈ value? other (letter safe n), m = n := by
    decide
  exact table safe other n hn m h

/-- The groups of six bits are numbers below 64. -/
theorem lt_of_mem_split (bytes : List UInt8) : ∀ n ∈ split bytes, n < 64 := by
  fun_induction split bytes with
  | case1 => simp
  | case2 a =>
    have ha := a.toNat_lt
    simp only [List.mem_cons, List.not_mem_nil, or_false, forall_eq_or_imp, forall_eq]
    omega
  | case3 a b =>
    have ha := a.toNat_lt
    have hb := b.toNat_lt
    simp only [List.mem_cons, List.not_mem_nil, or_false, forall_eq_or_imp, forall_eq]
    omega
  | case4 a b c rest ih =>
    have ha := a.toNat_lt
    have hb := b.toNat_lt
    have hc := c.toNat_lt
    simp only [List.mem_cons, forall_eq_or_imp]
    exact ⟨by omega, by omega, by omega, by omega, ih⟩

/-- The numbers that write a list of bytes are joined to these bytes. -/
theorem join?_split (bytes : List UInt8) : join? (split bytes) = some bytes := by
  fun_induction split bytes with
  | case1 => rfl
  | case2 a =>
    have ha := a.toNat_lt
    have h : a.toNat / 4 * 4 + a.toNat % 4 * 16 / 16 = a.toNat := by omega
    rw [join?, if_pos (by omega), h, UInt8.ofNat_toNat]
  | case3 a b =>
    have ha := a.toNat_lt
    have hb := b.toNat_lt
    have h₁ : a.toNat / 4 * 4 + (a.toNat % 4 * 16 + b.toNat / 16) / 16 = a.toNat := by omega
    have h₂ : (a.toNat % 4 * 16 + b.toNat / 16) % 16 * 16 + b.toNat % 16 * 4 / 4 = b.toNat := by
      omega
    rw [join?, if_pos (by omega), h₁, h₂, UInt8.ofNat_toNat, UInt8.ofNat_toNat]
  | case4 a b c rest ih =>
    have ha := a.toNat_lt
    have hb := b.toNat_lt
    have hc := c.toNat_lt
    have h₁ : a.toNat / 4 * 4 + (a.toNat % 4 * 16 + b.toNat / 16) / 16 = a.toNat := by omega
    have h₂ : (a.toNat % 4 * 16 + b.toNat / 16) % 16 * 16 + (b.toNat % 16 * 4 + c.toNat / 64) / 4
        = b.toNat := by omega
    have h₃ : (b.toNat % 16 * 4 + c.toNat / 64) % 4 * 64 + c.toNat % 64 = c.toNat := by omega
    rw [join?, ih, Option.map_some, h₁, h₂, h₃, UInt8.ofNat_toNat, UInt8.ofNat_toNat,
      UInt8.ofNat_toNat]

/-- Letters of an alphabet are read as their numbers. -/
theorem mapM_value?_letters (safe : Bool) {ns : List Nat} (hns : ∀ n ∈ ns, n < 64) :
    (ns.map (letter safe)).mapM (value? safe) = some ns := by
  induction ns with
  | nil => rfl
  | cons n ns ih =>
    rw [List.map_cons, List.mapM_cons, value?_letter safe (hns n (by simp)),
      ih fun m hm => hns m (by simp [hm])]
    rfl

/-- Whoever reads letters of another alphabet at all reads them as the same numbers. -/
theorem mapM_value?_letters_of_some {safe other : Bool} {ns ms : List Nat}
    (hns : ∀ n ∈ ns, n < 64) (h : (ns.map (letter safe)).mapM (value? other) = some ms) :
    ms = ns := by
  induction ns generalizing ms with
  | nil => simpa using h.symm
  | cons n ns ih =>
    rw [List.map_cons, List.mapM_cons] at h
    simp only [bind, Option.bind_eq_some_iff, pure, Option.some.injEq] at h
    obtain ⟨m, hm, rest, hrest, rfl⟩ := h
    rw [value?_letter_of_some (hns n (by simp)) hm, ih (fun k hk => hns k (by simp [hk])) hrest]

/-- The letters in front of a padding are those up to the first sign of it. -/
theorem takeWhile_letters (safe : Bool) {ns : List Nat} (hns : ∀ n ∈ ns, n < 64) (k : Nat) :
    (ns.map (letter safe) ++ List.replicate k '=').takeWhile (· ≠ '=') = ns.map (letter safe) := by
  rw [List.takeWhile_append_of_pos]
  · cases k <;> simp [List.replicate_succ]
  · intro c hc
    obtain ⟨n, hn, rfl⟩ := List.mem_map.mp hc
    simpa using letter_ne_pad safe (hns n hn)

/-- The sign of the padding is no letter. -/
theorem value?_pad (safe : Bool) : value? safe '=' = none := by
  cases safe <;> decide

/-- What is written in a spelling: the letters and some padding. -/
theorem encode_eq (spelling : Spelling) (bytes : List UInt8) :
    ∃ k, encode spelling bytes
      = (split bytes).map (letter spelling.addressSafe) ++ List.replicate k '=' := by
  obtain ⟨safe, padded⟩ := spelling
  cases padded with
  | false => exact ⟨0, by simp [encode]⟩
  | true => exact ⟨_, by simp only [encode, if_true, padding]; rfl⟩

/-- Reading undoes writing in the same spelling. -/
theorem decode?_encode (spelling : Spelling) (bytes : List UInt8) :
    decode? spelling (encode spelling bytes) = some bytes := by
  obtain ⟨safe, padded⟩ := spelling
  have hlt := lt_of_mem_split bytes
  cases padded with
  | false =>
    simp only [decode?, encode, Bool.false_eq_true, if_false, Option.bind_eq_bind,
      Option.bind_some]
    rw [mapM_value?_letters safe hlt, Option.bind_some, join?_split]
  | true =>
    have hpad : unpadded? (encode ⟨safe, true⟩ bytes) = some ((split bytes).map (letter safe)) := by
      simp only [unpadded?, encode, if_true, padding]
      rw [takeWhile_letters safe hlt, if_pos rfl]
    simp only [decode?, if_true, Option.bind_eq_bind]
    rw [hpad, Option.bind_some, mapM_value?_letters safe hlt, Option.bind_some, join?_split]

/-- What any spelling reads from a written form is what was written. -/
theorem eq_of_decode?_encode {spelling other : Spelling} {bytes out : List UInt8}
    (h : decode? other (encode spelling bytes) = some out) : out = bytes := by
  have hlt := lt_of_mem_split bytes
  -- It is enough that the other spelling takes the same letters for the content.
  suffices hs : ∃ ms, ((split bytes).map (letter spelling.addressSafe)).mapM
      (value? other.addressSafe) = some ms ∧ join? ms = some out by
    obtain ⟨ms, hms, hout⟩ := hs
    rw [mapM_value?_letters_of_some hlt hms, join?_split] at hout
    exact (Option.some.inj hout).symm
  obtain ⟨k, hk⟩ := encode_eq spelling bytes
  rw [hk] at h
  obtain ⟨safe, padded⟩ := other
  cases padded with
  | false =>
    -- Without padding of its own, the other spelling refuses any sign of it.
    simp only [decode?, Bool.false_eq_true, if_false, Option.bind_eq_bind, Option.bind_some,
      Option.bind_eq_some_iff] at h
    obtain ⟨ms, hms, hout⟩ := h
    refine ⟨ms, ?_, hout⟩
    cases k with
    | zero => simpa using hms
    | succ k => simp [List.mapM_append, List.replicate_succ, value?_pad] at hms
  | true =>
    simp only [decode?, if_true, Option.bind_eq_bind, Option.bind_eq_some_iff] at h
    obtain ⟨letters, hletters, ms, hms, hout⟩ := h
    refine ⟨ms, ?_, hout⟩
    simp only [unpadded?] at hletters
    rw [takeWhile_letters _ hlt] at hletters
    split at hletters
    · rwa [Option.some.inj hletters]
    · exact absurd hletters (by simp)

/-- **Every spelling is read back.** The reader that tries one spelling after another reads what
was written in any of the four. -/
theorem decodeAny?_encode (spelling : Spelling) (bytes : List UInt8) :
    decodeAny? (encode spelling bytes) = some bytes := by
  have hmem : spelling ∈ spellings := by
    obtain ⟨safe, padded⟩ := spelling
    cases safe <;> cases padded <;> simp [spellings]
  cases hfind : decodeAny? (encode spelling bytes) with
  | none =>
    have hnone := List.findSome?_eq_none_iff.mp hfind spelling hmem
    rw [decode?_encode] at hnone
    exact absurd hnone (by simp)
  | some out =>
    obtain ⟨other, -, hother⟩ := List.exists_of_findSome?_eq_some hfind
    rw [eq_of_decode?_encode hother]

end KeysetPaging.Base64
