import KeysetPaging.Bookmark.Token
import KeysetPaging.Proofs.Base64
import KeysetPaging.Proofs.Instant
import KeysetPaging.Proofs.Json
import KeysetPaging.Proofs.Levels

/-! # Tokens are read back

The reader of bookmarks goes down to a fixed depth. A written form that nests no deeper is read
back, by induction on the bookmark for every depth at once, and a deeper one is refused. With the
round trips of the text, the bytes and the base64 spellings this settles what a token names.
-/

namespace KeysetPaging

/-! ## Texts and their bytes -/

namespace Text

/-- The bytes of an array from a place on, in order. -/
private theorem toList_loop (bs : ByteArray) (i : Nat) (r : List UInt8) :
    ByteArray.toList.loop bs i r = r.reverse ++ bs.data.toList.drop i := by
  fun_induction ByteArray.toList.loop bs i r with
  | case1 i r hi ih =>
    have hget : bs.get! i = bs.data.toList[i] := by
      rw [show bs.get! i = bs.data[i]! from rfl, getElem!_pos bs.data i hi, Array.getElem_toList]
    rw [ih, List.reverse_cons, List.append_assoc, List.singleton_append, hget,
      List.getElem_cons_drop]
  | case2 i r hi =>
    rw [List.drop_of_length_le (by simpa using hi), List.append_nil]

/-- **Bytes are read back.** The characters of the bytes of a text are those of the text. -/
theorem ofBytes_toBytes (s : String) : ofBytes (toBytes s) = s.toList := by
  have hlist : toBytes s = s.toByteArray.data.toList := by
    rw [toBytes, String.toUTF8_eq_toByteArray, ByteArray.toList, toList_loop]
    simp
  have hread : String.fromUTF8? s.toByteArray = some s := by
    rw [String.fromUTF8?, dif_pos s.isValidUTF8]
    rfl
  rw [ofBytes, hlist, Array.toArray_toList]
  rw [show (⟨s.toByteArray.data⟩ : ByteArray) = s.toByteArray from rfl, hread]

/-- The text after the word of a token is its payload. -/
theorem dropLead?_append (lead cs : List Char) : dropLead? lead (lead ++ cs) = some cs := by
  induction lead with
  | nil => rfl
  | cons c lead ih => rw [List.cons_append, dropLead?, if_pos rfl, ih]

end Text

namespace Bookmark

/-! ## Written forms are read back -/

mutual

/-- The written form of a bookmark reads back as it was written. -/
theorem isWhole_toJson : ∀ b : Bookmark, b.toJson.IsWhole
  | .null | .bool _ | .text _ | .time _ => by
    simp [toJson, tagged, Json.IsWhole, Json.WholeFields]
  | .int i => by
    have hmin := i.le_toInt
    have hmax := i.toInt_lt
    simp only [toJson, tagged, Json.IsWhole, Json.WholeFields, Json.minInt, Decimal.maxCount,
      and_true, true_and]
    omega
  | .tuple parts => by
    simp [toJson, tagged, Json.IsWhole, Json.WholeFields, wholeItems_partsToJson parts]
  | .concat _ position => by
    simp [toJson, tagged, Json.IsWhole, Json.WholeFields, isWhole_positionToJson position]
  | .merge positions => by
    simp [toJson, tagged, Json.IsWhole, Json.WholeFields, wholeItems_positionsToJson positions]

theorem wholeItems_partsToJson : ∀ bs : List Bookmark, Json.WholeItems (partsToJson bs)
  | [] => by simp [partsToJson, Json.WholeItems]
  | b :: bs => by
    simp [partsToJson, Json.WholeItems, isWhole_toJson b, wholeItems_partsToJson bs]

theorem isWhole_positionToJson : ∀ p : Option Bookmark, (positionToJson p).IsWhole
  | none => by simp [positionToJson, Json.IsWhole]
  | some b => by simp [positionToJson, isWhole_toJson b]

theorem wholeItems_positionsToJson : ∀ ps : List (String × Option Bookmark),
    Json.WholeItems (positionsToJson ps)
  | [] => by simp [positionsToJson, Json.WholeItems]
  | (_, p) :: ps => by
    simp [positionsToJson, Json.WholeItems, Json.IsWhole, Json.WholeFields,
      isWhole_positionToJson p, wholeItems_positionsToJson ps]

end

/-- The written form of a bookmark is an object. -/
theorem toJson_eq_obj (b : Bookmark) : ∃ fields, b.toJson = .obj fields := by
  cases b <;> exact ⟨_, rfl⟩

theorem levels_pos (b : Bookmark) : 0 < b.levels := by
  obtain ⟨fields, hfields⟩ := b.toJson_eq_obj
  rw [levels, hfields, Json.levels]
  omega

@[simp] theorem isNull_ofJson_toJson (b : Bookmark) :
    (Document.ofJson b.toJson).isNull = false := by
  obtain ⟨fields, hfields⟩ := b.toJson_eq_obj
  rw [hfields]
  rfl

/-- The shape and the content of a written form are found in it. -/
theorem split?_tagged (n : Nat) (kind : String) (content : Json) :
    split? n (.ofJson (tagged kind content)) = some (kind, some (.ofJson content)) := by
  simp [tagged, Document.ofJson, Document.ofFields, Document.ofText, split?, Document.named?,
    Document.text?, Document.valuesOf, shape?, contentFirst]

/-- The label and the place of a written place are found in it. -/
theorem placeOfFields?_written {α : Type} (read : Document → Option α) (source : String)
    (position : Json) :
    placeOfFields? read (Document.ofFields [("source", .str source), ("position", position)])
      = (Document.orNull read (.ofJson position)).map fun p => (source, p) := by
  simp [Document.ofJson, Document.ofFields, Document.ofText, placeOfFields?, Document.named?,
    Document.text?, Document.valuesOf, string?]
  cases Document.orNull read (.ofJson position) <;> rfl

/-- A bookmark without parts is read back from its content. -/
theorem ofDocument?_scalar (n : Nat) (kind : String) {content : Json} {b : Bookmark}
    (hlist : ∀ items, Document.ofJson content ≠ .list items)
    (hrecord : ∀ fields, Document.ofJson content ≠ .record fields)
    (h : scalar? kind (.ofJson content) = some b) :
    ofDocument? (n + 1) (.ofJson (tagged kind content)) = some b := by
  rw [ofDocument?, split?_tagged]
  split <;> simp_all

mutual

/-- A bookmark is read back from its written form exactly when this nests no deeper than the
reader goes. -/
theorem ofDocument?_toJson : ∀ (b : Bookmark) (n : Nat),
    ofDocument? n (.ofJson b.toJson) = if b.toJson.levels ≤ n then some b else none
  | b, 0 => by
    have := b.levels_pos
    rw [levels] at this
    rw [ofDocument?, if_neg (by omega)]
  | .null, n + 1 => by
    simp [toJson, Document.ofJson, Document.ofFields, Document.ofText, split?, Document.named?,
      Document.text?, Document.valuesOf, shape?, ofDocument?, Json.levels, Json.fieldLevels]
  | .bool b, n + 1 => by
    rw [toJson, ofDocument?_scalar n "bool" (b := .bool b) (by simp [Document.ofJson])
      (by simp [Document.ofJson]) (by simp [Document.ofJson, scalar?, Document.bool?])]
    simp [tagged, Json.levels, Json.fieldLevels]
  | .int i, n + 1 => by
    have hmin := i.le_toInt
    have hmax := i.toInt_lt
    have hread : (Json.int i.toInt).int64? = some i := by
      rw [Json.int64?, if_pos (by simp only [Json.minInt, Json.maxInt]; omega),
        Int64.ofInt_toInt]
    rw [toJson, ofDocument?_scalar n "int" (b := .int i) (by simp [Document.ofJson])
      (by simp [Document.ofJson]) (by simp [Document.ofJson, scalar?, Document.int64?, hread])]
    simp [tagged, Json.levels, Json.fieldLevels]
  | .text s, n + 1 => by
    rw [toJson, ofDocument?_scalar n "text" (b := .text s) (by simp [Document.ofJson])
      (by simp [Document.ofJson]) (by simp [Document.ofJson, scalar?, string?])]
    simp [tagged, Json.levels, Json.fieldLevels]
  | .time t, n + 1 => by
    rw [toJson, ofDocument?_scalar n "time" (b := .time t) (by simp [Document.ofJson])
      (by simp [Document.ofJson])
      (by simp [Document.ofJson, scalar?, string?, Instant.readRelaxed_toText])]
    simp [tagged, Json.levels, Json.fieldLevels]
  | .tuple parts, n + 1 => by
    rw [toJson, ofDocument?, split?_tagged]
    -- The object takes one level and the list in it another, and the parts get the rest.
    cases n with
    | zero => simp [scalar?, tagged, Json.levels, Json.fieldLevels]
    | succ inner =>
      simp only [Document.ofJson, if_true, mapM_partsToJson parts inner]
      by_cases h : Json.itemLevels (partsToJson parts) ≤ inner <;>
        simp [tagged, Json.levels, Json.fieldLevels, h]
  | .concat source position, n + 1 => by
    rw [toJson, ofDocument?, split?_tagged]
    cases n with
    | zero => simp [scalar?, tagged, Json.levels, Json.fieldLevels]
    | succ inner =>
      simp only [Document.ofJson, if_true, placeOfFields?_written,
        orNull_positionToJson position inner]
      by_cases h : (positionToJson position).levels ≤ inner <;>
        simp [tagged, Json.levels, Json.fieldLevels, h]
  | .merge positions, n + 1 => by
    rw [toJson, ofDocument?, split?_tagged]
    cases n with
    | zero => simp [scalar?, tagged, Json.levels, Json.fieldLevels]
    | succ inner =>
      cases inner with
      | zero =>
        -- An empty list of places is read even where no place could be.
        cases positions <;>
          simp [positionsToJson, Document.ofJson, Document.ofItems, tagged, Json.levels,
            Json.itemLevels, Json.fieldLevels]
      | succ deepest =>
        simp only [Document.ofJson, mapM_positionsToJson positions deepest]
        by_cases h : Json.itemLevels (positionsToJson positions) ≤ deepest + 1 <;>
          simp [tagged, Json.levels, Json.fieldLevels, h]

theorem mapM_partsToJson : ∀ (bs : List Bookmark) (n : Nat),
    (Document.ofItems (partsToJson bs)).mapM (ofDocument? n)
      = if Json.itemLevels (partsToJson bs) ≤ n then some bs else none
  | [], n => by simp [partsToJson, Document.ofItems, Json.itemLevels]
  | b :: bs, n => by
    simp only [partsToJson, Document.ofItems, Json.itemLevels, List.mapM_cons]
    rw [ofDocument?_toJson b n, mapM_partsToJson bs n]
    by_cases hb : b.toJson.levels ≤ n <;>
      by_cases hbs : Json.itemLevels (partsToJson bs) ≤ n <;> simp [hb, hbs]

theorem orNull_positionToJson : ∀ (p : Option Bookmark) (n : Nat),
    Document.orNull (ofDocument? n) (.ofJson (positionToJson p))
      = if (positionToJson p).levels ≤ n then some p else none
  | none, n => by
    simp [positionToJson, Document.ofJson, Document.orNull, Document.isNull, Json.levels]
  | some b, n => by
    rw [positionToJson, Document.orNull, isNull_ofJson_toJson, ofDocument?_toJson b n]
    by_cases h : b.toJson.levels ≤ n <;> simp [h]

theorem mapM_positionsToJson : ∀ (ps : List (String × Option Bookmark)) (n : Nat),
    (Document.ofItems (positionsToJson ps)).mapM (place? (ofDocument? n))
      = if Json.itemLevels (positionsToJson ps) ≤ n + 1 then some ps else none
  | [], n => by simp [positionsToJson, Document.ofItems, Json.itemLevels]
  | (source, p) :: ps, n => by
    simp only [positionsToJson, Document.ofItems, Json.itemLevels, List.mapM_cons, Document.ofJson,
      place?]
    rw [placeOfFields?_written, orNull_positionToJson p n, mapM_positionsToJson ps n]
    by_cases hp : (positionToJson p).levels ≤ n <;>
      by_cases hps : Json.itemLevels (positionsToJson ps) ≤ n + 1 <;>
      simp [Json.levels, Json.fieldLevels, hp, hps]

end

/-! ## Tokens -/

/-- The bytes of a written form are read back exactly when it nests no deeper than 127 levels. -/
theorem ofBytes?_bytes (b : Bookmark) :
    ofBytes? b.bytes = if b.levels ≤ Document.maxLevels then some b else none := by
  rw [ofBytes?, bytes, Text.ofBytes_toBytes, Json.compact, String.toList_ofList,
    Json.readDocument_chars b.isWhole_toJson, Option.bind_some, ofDocument?_toJson, levels]

/-- What a reader makes of a bookmark whose bytes are written in any of the four spellings. -/
theorem readToken_encode (spelling : Base64.Spelling) (b : Bookmark) :
    readToken (String.ofList (tokenLead ++ Base64.encode spelling b.bytes))
      = if b.levels ≤ Document.maxLevels then .ok b else .error .badBookmark := by
  rw [readToken, String.toList_ofList, Text.dropLead?_append]
  simp only [Base64.decodeAny?_encode, ofBytes?_bytes]
  split_ifs <;> rfl

/-- The token of a bookmark that nests no deeper than a token can names it. -/
theorem readToken_of_levels_le {b : Bookmark} (h : b.levels ≤ Document.maxLevels) :
    readToken b.token = .ok b := by
  rw [token, readToken_encode, if_pos h]

/-- **Tokens are read back.** A token names the bookmark it was made from, in each of the four
base64 spellings, when the written form of the bookmark nests no deeper than 127 levels. A deeper
bookmark is named by none of its tokens. -/
theorem readToken_token (b : Bookmark) :
    (readToken b.token = if b.levels ≤ 127 then .ok b else .error .badBookmark) ∧
      ∀ spelling : Base64.Spelling,
        readToken (String.ofList (tokenLead ++ Base64.encode spelling b.bytes))
          = if b.levels ≤ 127 then .ok b else .error .badBookmark :=
  ⟨readToken_encode ⟨true, false⟩ b, fun spelling => readToken_encode spelling b⟩

/-- A bookmark that a token names nests no deeper than 127 levels. -/
theorem levels_le_of_readToken {token : String} {b : Bookmark}
    (h : readToken token = .ok b) : b.levels ≤ Document.maxLevels := by
  rw [readToken] at h
  split at h
  · cases h
  · split at h
    · cases h
    · split at h
      · cases h
      next c hread =>
        obtain rfl := Except.ok.inj h
        obtain ⟨v, -, hv⟩ := Option.bind_eq_some_iff.mp hread
        exact levels_le_of_ofDocument? _ hv

end Bookmark

end KeysetPaging
