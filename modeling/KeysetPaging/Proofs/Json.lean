import KeysetPaging.Json.Reader
import KeysetPaging.Json.Writer
import KeysetPaging.Proofs.Decimal
import Mathlib.Data.List.Basic

/-! # Values are read back

The compact text of a value is read back as that value, in front of any rest that does not
continue it. Values with fractions are left out: their digits are rounded.
-/

namespace KeysetPaging.Json

theorem hexValue?_hexDigit {n : Nat} (hn : n < 16) : hexValue? (Text.hexDigit n) = some n := by
  have table : ∀ n < 16, hexValue? (Text.hexDigit n) = some n := by decide
  exact table n hn

/-- A letter that follows a backslash is read as the character that it stands for. -/
theorem readUnits_short {letter c : Char} (hu : letter ≠ 'u') (h : shortEscape? letter = some c)
    (rest : List Char) :
    readUnits ('\\' :: letter :: rest) = (readUnits rest).map fun p => (c.toNat :: p.1, p.2) := by
  rw [readUnits.eq_4 _ _ fun _ _ _ _ _ hletter _ => hu hletter, h]
  cases readUnits rest <;> rfl

/-- A character below 32 is read from the number that its escape gives. -/
theorem readUnits_control {n : Nat} (hn : n < 32) (rest : List Char) :
    readUnits
        ('\\' :: 'u' :: '0' :: '0' :: Text.hexDigit (n / 16) :: Text.hexDigit (n % 16) :: rest)
      = (readUnits rest).map fun p => (n :: p.1, p.2) := by
  have hunit : hexUnit? '0' '0' (Text.hexDigit (n / 16)) (Text.hexDigit (n % 16)) = some n := by
    rw [hexUnit?, hexValue?_hexDigit (by omega), hexValue?_hexDigit (by omega),
      show hexValue? '0' = some 0 by decide]
    simp only [Option.bind_eq_bind, Option.bind_some, Option.some.injEq]
    omega
  rw [readUnits, hunit]
  cases readUnits rest <;> rfl

/-- A character that needs no escape is read as it stands. -/
theorem readUnits_plain {c : Char} (hquote : c ≠ '"') (hback : c ≠ '\\')
    (hcontrol : ¬ c.toNat < 0x20)
    (rest : List Char) :
    readUnits (c :: rest) = (readUnits rest).map fun p => (c.toNat :: p.1, p.2) := by
  rw [readUnits.eq_5 _ _ hquote (fun _ _ _ _ _ h _ => hback h) fun _ _ h _ => hback h]
  simp [hback, hcontrol]

/-- A character is read back from how it stands in a text. -/
theorem readUnits_escaped (c : Char) (rest : List Char) :
    readUnits (escaped c ++ rest) = (readUnits rest).map fun p => (c.toNat :: p.1, p.2) := by
  unfold escaped
  split_ifs with hquote hback hline hreturn htab h8 h12 hcontrol
  · subst hquote
    exact readUnits_short (by decide) (by decide) rest
  · subst hback
    exact readUnits_short (by decide) (by decide) rest
  · subst hline
    exact readUnits_short (by decide) (by decide) rest
  · subst hreturn
    exact readUnits_short (by decide) (by decide) rest
  · subst htab
    exact readUnits_short (by decide) (by decide) rest
  · subst h8
    exact readUnits_short (by decide) (by decide) rest
  · subst h12
    exact readUnits_short (by decide) (by decide) rest
  · exact readUnits_control hcontrol rest
  · exact readUnits_plain hquote hback hcontrol rest

/-- A text is read back as the numbers of its characters. -/
theorem readUnits_flatMap_escaped (cs rest : List Char) :
    readUnits (cs.flatMap escaped ++ '"' :: rest) = some (cs.map Char.toNat, rest) := by
  induction cs with
  | nil => simp [readUnits]
  | cons c cs ih =>
    rw [List.flatMap_cons, List.append_assoc, readUnits_escaped, ih]
    rfl

/-- The numbers of characters name these characters. -/
theorem unitsToChars?_map_toNat (cs : List Char) :
    unitsToChars? (cs.map Char.toNat) = some cs := by
  induction cs with
  | nil => rfl
  | cons c cs ih =>
    have hc : c.toNat < 0xD800 ∨ 0xDFFF < c.toNat := by
      rcases c.valid with h | h
      · exact Or.inl h
      · exact Or.inr h.1
    rw [List.map_cons, unitsToChars?.eq_def]
    simp only [ih, Option.map_some]
    rw [if_pos (by simpa using hc), Char.ofNat_toNat]

/-- **A text is read back** up to its closing quote. -/
theorem readText_escaped (s : String) (rest : List Char) :
    readText (s.toList.flatMap escaped ++ '"' :: rest) = some (some s.toList, rest) := by
  simp only [readText, readUnits_flatMap_escaped, Option.map_some, unitsToChars?_map_toNat]

/-- What follows a number: something that is no digit, no point and no exponent. -/
def StopsNumber (cs : List Char) : Prop :=
  ∀ c ∈ cs.head?, c.isDigit = false ∧ c ≠ '.' ∧ c ≠ 'e' ∧ c ≠ 'E'

theorem stopsNumber_nil : StopsNumber [] := by
  simp [StopsNumber]

/-- A digit and no other digit in front of a non-digit: the digits at the front are split off. -/
theorem spanDigits_append {ds rest : List Char} (hds : ∀ c ∈ ds, c.isDigit = true)
    (hrest : StopsNumber rest) : spanDigits (ds ++ rest) = (ds, rest) := by
  have hstop : ∀ c ∈ rest.head?, c.isDigit = false := fun c hc => (hrest c hc).1
  rw [spanDigits, List.takeWhile_append_of_pos hds, List.dropWhile_append_of_pos hds]
  cases rest with
  | nil => simp
  | cons c cs =>
    have hc := hstop c (by simp)
    simp [hc]

/-- The digits of a number are its whole part. -/
theorem wholePart_digits (n : Nat) {rest : List Char} (hrest : StopsNumber rest) :
    wholePart (Decimal.digits n ++ rest) = some (Decimal.digits n, rest) := by
  rw [wholePart, spanDigits_append (Decimal.isDigit_of_mem_digits n) hrest]
  split
  next h => exact absurd (congrArg Prod.fst h) (Decimal.digits_ne_nil n)
  next c cs rest' h =>
    -- Only zero starts with a zero, and zero has one digit.
    have hds : Decimal.digits n = '0' :: c :: cs := congrArg Prod.fst h
    have hzero : n = 0 := by
      by_contra hn
      exact Decimal.digits_head_ne_zero hn (by rw [hds]; rfl)
    subst hzero
    rw [Decimal.digits] at hds
    simp at hds
  next => rfl

theorem fractionPart_stops {rest : List Char} (hrest : StopsNumber rest) :
    fractionPart rest = some (none, rest) := by
  rw [fractionPart.eq_def]
  split
  next cs => exact absurd rfl (hrest '.' (by simp)).2.1
  next => rfl

theorem exponentPart_stops {rest : List Char} (hrest : StopsNumber rest) :
    exponentPart rest = some (none, rest) := by
  cases rest with
  | nil => rfl
  | cons c cs =>
    obtain ⟨-, -, he, hE⟩ := hrest c (by simp)
    simp [exponentPart, he, hE]

/-- **A whole number of 64 bits is read back.** -/
theorem readNumber_ofInt {i : Int} (hmin : minInt ≤ i) (hmax : i ≤ Decimal.maxCount)
    {rest : List Char} (hrest : StopsNumber rest) :
    readNumber (Decimal.ofInt i ++ rest) = some (.int i, rest) := by
  have htwo : Decimal.twoTo 63 = 9223372036854775808 := by decide
  simp only [minInt] at hmin
  by_cases hneg : i < 0
  · have habs : i.natAbs ≠ 0 ∧ i.natAbs ≤ Decimal.twoTo 63 ∧ -(i.natAbs : Int) = i := by
      rw [htwo]
      omega
    rw [Decimal.ofInt, if_pos hneg, List.cons_append, readNumber]
    simp only [wholePart_digits _ hrest, fractionPart_stops hrest, exponentPart_stops hrest,
      Option.bind_eq_bind, Option.bind_some, numberOf, Decimal.ofDigits_digits]
    generalize i.natAbs = n at habs ⊢
    obtain ⟨hne, hle, rfl⟩ := habs
    simp [hne, hle]
  · have habs : i.natAbs ≤ Decimal.maxCount ∧ (i.natAbs : Int) = i := by omega
    have hsign : ∀ cs, Decimal.digits i.natAbs ++ rest ≠ '-' :: cs := by
      intro cs h
      obtain ⟨d, ds, hds⟩ := List.exists_cons_of_ne_nil (Decimal.digits_ne_nil i.natAbs)
      have hd := Decimal.isDigit_of_mem_digits i.natAbs d (by simp [hds])
      rw [hds] at h
      rw [(List.cons.inj h).1] at hd
      exact absurd hd (by decide)
    rw [Decimal.ofInt, if_neg hneg, readNumber.eq_2 _ hsign]
    simp only [wholePart_digits _ hrest, fractionPart_stops hrest, exponentPart_stops hrest,
      Option.bind_eq_bind, Option.bind_some, numberOf, Decimal.ofDigits_digits]
    generalize i.natAbs = n at habs ⊢
    obtain ⟨hle, rfl⟩ := habs
    simp [hle]

mutual

/-- A value without fractions whose numbers fit 64 bits: it is read back as it was written. -/
def IsWhole : Json → Prop
  | .int i => minInt ≤ i ∧ i ≤ Decimal.maxCount
  | .float _ => False
  | .arr items => WholeItems items
  | .obj fields => WholeFields fields
  | _ => True

/-- Every item is read back as it was written. -/
def WholeItems : List Json → Prop
  | [] => True
  | v :: rest => v.IsWhole ∧ WholeItems rest

/-- The value of every field is read back as it was written. -/
def WholeFields : List (String × Json) → Prop
  | [] => True
  | (_, v) :: rest => v.IsWhole ∧ WholeFields rest

end

/-- A value starts with no blank and with no bracket or brace that closes. -/
def StartsValue (cs : List Char) : Prop :=
  ∀ c ∈ cs.head?, c ≠ ' ' ∧ c ≠ '\n' ∧ c ≠ '\t' ∧ c ≠ '\r' ∧ c ≠ ']' ∧ c ≠ '}'

theorem skipBlanks_of_startsValue {cs : List Char} (h : StartsValue cs) : skipBlanks cs = cs := by
  cases cs with
  | nil => rfl
  | cons c cs =>
    obtain ⟨h₁, h₂, h₃, h₄, -⟩ := h c (by simp)
    simp [skipBlanks, h₁, h₂, h₃, h₄]

/-- A whole number starts with a digit or a minus sign. -/
theorem ofInt_head (i : Int) :
    ∃ c cs, Decimal.ofInt i = c :: cs ∧ (c.isDigit = true ∨ c = '-') := by
  by_cases hneg : i < 0
  · exact ⟨'-', Decimal.digits i.natAbs, by rw [Decimal.ofInt, if_pos hneg], Or.inr rfl⟩
  · obtain ⟨d, ds, hds⟩ := List.exists_cons_of_ne_nil (Decimal.digits_ne_nil i.natAbs)
    refine ⟨d, ds, by rw [Decimal.ofInt, if_neg hneg, hds], Or.inl ?_⟩
    exact Decimal.isDigit_of_mem_digits i.natAbs d (by simp [hds])

/-- The characters that start a value of another kind are no digits and no sign. -/
theorem ne_of_isDigit_or_minus {c : Char} (h : c.isDigit = true ∨ c = '-') :
    c ≠ '{' ∧ c ≠ '[' ∧ c ≠ '"' ∧ c ≠ 't' ∧ c ≠ 'f' ∧ c ≠ 'n' ∧ c ≠ ' ' ∧ c ≠ '\n' ∧ c ≠ '\t' ∧
      c ≠ '\r' ∧ c ≠ ']' ∧ c ≠ '}' := by
  refine ⟨?_, ?_, ?_, ?_, ?_, ?_, ?_, ?_, ?_, ?_, ?_, ?_⟩ <;>
    (rintro rfl; revert h; decide)

theorem startsValue_chars {v : Json} (h : v.IsWhole) (rest : List Char) :
    StartsValue (v.chars ++ rest) := by
  cases v with
  | null => simp [StartsValue, chars]
  | bool b => cases b <;> simp [StartsValue, chars]
  | int i =>
    obtain ⟨c, cs, hcs, hc⟩ := ofInt_head i
    have hne := ne_of_isDigit_or_minus hc
    rw [chars, hcs]
    simpa [StartsValue] using hne.2.2.2.2.2.2
  | float x => exact absurd h (by simp [IsWhole])
  | str s => simp [StartsValue, chars, textChars]
  | arr items => cases items <;> simp [StartsValue, chars]
  | obj fields =>
    cases fields with
    | nil => simp [StartsValue, chars]
    | cons field fields => simp [StartsValue, chars]

/-- A written number is read as a value. -/
theorem readValue_int {i : Int} (h : IsWhole (.int i)) (fuel : Nat) {rest : List Char}
    (hrest : StopsNumber rest) :
    readValue (fuel + 1) (chars (.int i) ++ rest) = some (.scalar (.int i) none, rest) := by
  have hstart := startsValue_chars h rest
  obtain ⟨hmin, hmax⟩ : minInt ≤ i ∧ i ≤ Decimal.maxCount := by simpa only [IsWhole] using h
  have hread := readNumber_ofInt hmin hmax hrest
  obtain ⟨c, cs, hcs, hc⟩ := ofInt_head i
  obtain ⟨h₁, h₂, h₃, h₄, h₅, h₆, -⟩ := ne_of_isDigit_or_minus hc
  rw [chars, hcs, List.cons_append] at hstart ⊢
  rw [hcs, List.cons_append] at hread
  rw [readValue, skipBlanks_of_startsValue hstart]
  split <;> simp_all

/-- After an opening bracket, a value starts a list of items. -/
theorem readValue_bracket {cs : List Char} (h : StartsValue cs) (fuel : Nat) :
    readValue (fuel + 1) ('[' :: cs)
      = (readItems fuel cs).map fun p => (.list p.1, p.2) := by
  have hopen : skipBlanks ('[' :: cs) = '[' :: cs :=
    skipBlanks_of_startsValue (by simp [StartsValue])
  rw [readValue, hopen]
  simp only
  rw [skipBlanks_of_startsValue h]
  split
  next rest => exact absurd rfl (h ']' (by simp)).2.2.2.2.1
  next => rfl

/-- After an opening brace, a value starts a list of fields. -/
theorem readValue_brace {cs : List Char} (h : StartsValue cs) (fuel : Nat) :
    readValue (fuel + 1) ('{' :: cs)
      = (readFields fuel cs).map fun p => (.record p.1, p.2) := by
  have hopen : skipBlanks ('{' :: cs) = '{' :: cs :=
    skipBlanks_of_startsValue (by simp [StartsValue])
  rw [readValue, hopen]
  simp only
  rw [skipBlanks_of_startsValue h]
  split
  next rest => exact absurd rfl (h '}' (by simp)).2.2.2.2.2
  next => rfl

/-- A name is read back with its colon. -/
theorem readFields_name (k : String) (cs : List Char) (fuel : Nat) :
    readFields (fuel + 1) (textChars k ++ ':' :: cs)
      = match readValue fuel cs with
        | none => none
        | some (value, rest) =>
            match skipBlanks rest with
            | ',' :: rest =>
                (readFields fuel rest).map fun p => ((.ofText k, value) :: p.1, p.2)
            | '}' :: rest => some ([(.ofText k, value)], rest)
            | _ => none := by
  have hquote : ∀ cs, skipBlanks ('"' :: cs) = '"' :: cs := fun cs =>
    skipBlanks_of_startsValue (by simp [StartsValue])
  have hread := readText_escaped k (':' :: cs)
  have hname : textDocument (some k.toList) = .ofText k := by
    rw [textDocument, String.ofList_toList, Document.ofText]
  rw [textChars, List.cons_append, List.cons_append, List.append_assoc, List.singleton_append,
    readFields, hquote, ← hname]
  simp only [hread]
  rfl

mutual

/-- A value is read back from its compact form, whatever follows that goes on with no number. -/
theorem readValue_chars : ∀ (v : Json), v.IsWhole → ∀ (fuel : Nat) (rest : List Char),
    v.chars.length ≤ fuel → StopsNumber rest →
    readValue (fuel + 1) (v.chars ++ rest) = some (.ofJson v, rest)
  -- Structural induction on the value. Every character of a written form pays for one step of the
  -- reader, so the fuel lasts for the parts as well.
  | .null => by
    intro _ fuel rest _ _
    simp [chars, readValue, skipBlanks, Document.ofJson]
  | .bool true => by
    intro _ fuel rest _ _
    simp [chars, readValue, skipBlanks, Document.ofJson]
  | .bool false => by
    intro _ fuel rest _ _
    simp [chars, readValue, skipBlanks, Document.ofJson]
  | .int i => fun h fuel _ _ hrest => readValue_int h fuel hrest
  | .float _ => fun h => absurd h (by simp [IsWhole])
  | .str s => by
    intro _ fuel rest _ _
    have hread := readText_escaped s rest
    simp [chars, textChars, readValue, skipBlanks, hread, textDocument, Document.ofJson]
  | .arr [] => by
    intro _ fuel rest _ _
    simp [chars, readValue, skipBlanks, Document.ofJson, Document.ofItems]
  | .arr (v :: items) => by
    intro h fuel rest hfuel _
    have hlen : (itemChars (v :: items)).length + 1 ≤ fuel := by
      simp only [chars, itemChars, List.length_append, List.length_cons, List.length_nil] at hfuel ⊢
      omega
    -- One step for the bracket, and the rest for the items.
    obtain ⟨f, rfl⟩ : ∃ f, fuel = f + 1 := ⟨fuel - 1, by omega⟩
    have hitems := readItems_chars (v :: items) (by simp) h f rest (by omega)
    simp only [itemChars, List.cons_append, List.tail_cons, List.append_assoc] at hitems
    simp only [chars, List.cons_append, List.append_assoc, List.nil_append]
    rw [readValue_bracket (startsValue_chars h.1 _), hitems]
    rfl
  | .obj [] => by
    intro _ fuel rest _ _
    simp [chars, readValue, skipBlanks, Document.ofJson, Document.ofFields]
  | .obj ((k, v) :: fields) => by
    intro h fuel rest hfuel _
    have hlen : (fieldChars ((k, v) :: fields)).length + 1 ≤ fuel := by
      simp only [chars, fieldChars, List.length_append, List.length_cons, List.length_nil]
        at hfuel ⊢
      omega
    obtain ⟨f, rfl⟩ : ∃ f, fuel = f + 1 := ⟨fuel - 1, by omega⟩
    have hfields := readFields_chars ((k, v) :: fields) (by simp) h f rest (by omega)
    have hstart : ∀ cs, StartsValue (textChars k ++ cs) := by
      intro cs
      simp [StartsValue, textChars]
    simp only [fieldChars, List.cons_append, List.tail_cons, List.append_assoc] at hfields
    simp only [chars, List.cons_append, List.append_assoc, List.nil_append]
    rw [readValue_brace (hstart _), hfields]
    rfl

/-- Items are read back up to the closing bracket. -/
theorem readItems_chars : ∀ (items : List Json), items ≠ [] → WholeItems items →
    ∀ (fuel : Nat) (rest : List Char), (itemChars items).length ≤ fuel →
    readItems (fuel + 1) ((itemChars items).tail ++ ']' :: rest)
      = some (Document.ofItems items, rest)
  | [] => fun h => absurd rfl h
  | v :: items => by
    intro _ h fuel rest hfuel
    simp only [itemChars, List.length_append, List.length_cons] at hfuel
    obtain ⟨f, rfl⟩ : ∃ f, fuel = f + 1 := ⟨fuel - 1, by omega⟩
    simp only [itemChars, List.cons_append, List.tail_cons, List.append_assoc]
    have hcomma : ∀ cs, skipBlanks (',' :: cs) = ',' :: cs := fun cs =>
      skipBlanks_of_startsValue (by simp [StartsValue])
    cases items with
    | nil =>
      have hv := readValue_chars v h.1 f (']' :: rest) (by omega) (by simp [StopsNumber])
      simp only [itemChars, List.nil_append, readItems, hv]
      simp [skipBlanks, Document.ofItems]
    | cons w items =>
      have hrest := readItems_chars (w :: items) (by simp) h.2 f rest (by omega)
      obtain ⟨cs, hcs⟩ : ∃ cs, itemChars (w :: items) = ',' :: cs := ⟨_, rfl⟩
      rw [hcs, List.tail_cons] at hrest
      rw [hcs, List.cons_append]
      have hv := readValue_chars v h.1 f (',' :: (cs ++ ']' :: rest)) (by omega)
        (by simp [StopsNumber])
      rw [readItems]
      simp only [hv, hcomma, hrest]
      rfl

/-- Fields are read back up to the closing brace. -/
theorem readFields_chars : ∀ (fields : List (String × Json)), fields ≠ [] → WholeFields fields →
    ∀ (fuel : Nat) (rest : List Char), (fieldChars fields).length ≤ fuel →
    readFields (fuel + 1) ((fieldChars fields).tail ++ '}' :: rest)
      = some (Document.ofFields fields, rest)
  | [] => fun h => absurd rfl h
  | (k, v) :: fields => by
    intro _ h fuel rest hfuel
    simp only [fieldChars, List.length_append, List.length_cons] at hfuel
    obtain ⟨f, rfl⟩ : ∃ f, fuel = f + 1 := ⟨fuel - 1, by omega⟩
    simp only [fieldChars, List.cons_append, List.tail_cons, List.append_assoc]
    rw [readFields_name]
    have hcomma : ∀ cs, skipBlanks (',' :: cs) = ',' :: cs := fun cs =>
      skipBlanks_of_startsValue (by simp [StartsValue])
    cases fields with
    | nil =>
      have hv := readValue_chars v h.1 f ('}' :: rest) (by omega) (by simp [StopsNumber])
      simp only [fieldChars, List.nil_append, hv]
      simp [skipBlanks, Document.ofFields]
    | cons field fields =>
      have hrest := readFields_chars (field :: fields) (by simp) h.2 f rest (by omega)
      obtain ⟨cs, hcs⟩ : ∃ cs, fieldChars (field :: fields) = ',' :: cs := ⟨_, rfl⟩
      rw [hcs, List.tail_cons] at hrest
      rw [hcs, List.cons_append]
      have hv := readValue_chars v h.1 f (',' :: (cs ++ '}' :: rest)) (by omega)
        (by simp [StopsNumber])
      simp only [hv, hcomma, hrest]
      rfl

end

/-- **A written value is read back** as the document of the value. -/
theorem readDocument_chars {v : Json} (h : v.IsWhole) :
    readDocument v.chars = some (.ofJson v) := by
  have hread := readValue_chars v h (2 * v.chars.length + 1) [] (by omega) stopsNumber_nil
  rw [List.append_nil] at hread
  rw [readDocument, hread]
  rfl

end KeysetPaging.Json
