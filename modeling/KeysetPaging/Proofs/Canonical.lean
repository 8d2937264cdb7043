import KeysetPaging.Proofs.Token
import Mathlib

/-! # Tokens have one canonical form

A bookmark can be spelled in many ways: two alphabets with and without padding, names in any order
or in lists, other names beside them, and any spelling of an instant. Its own token is one of the
spellings. Whatever spelling a reader accepts, the own token of what was read is accepted too and
names the same bookmark, and the document in it nests no deeper than the accepted one.
-/

namespace KeysetPaging.Bookmark

/-- The document in a token, before it is read as a bookmark. -/
def tokenDocument? (token : String) : Option Document := do
  let payload ← Text.dropLead? tokenLead token.toList
  let bytes ← Base64.decodeAny? payload
  Json.readDocument (Text.ofBytes bytes)

/-- A token names a bookmark exactly when the bookmark is read from its document. -/
theorem readToken_eq_ok_iff {token : String} {b : Bookmark} :
    readToken token = .ok b ↔
      ∃ d, tokenDocument? token = some d ∧ ofDocument? Document.maxLevels d = some b := by
  rw [readToken, tokenDocument?]
  cases Text.dropLead? tokenLead token.toList with
  | none => simp
  | some payload =>
    cases hbytes : Base64.decodeAny? payload with
    | none => simp [hbytes]
    | some bytes =>
      simp only [Option.bind_eq_bind, Option.bind_some, hbytes, ofBytes?]
      cases hd : Json.readDocument (Text.ofBytes bytes) with
      | none => simp
      | some d => cases hb : ofDocument? Document.maxLevels d <;> simp [hb]

/-- The document in a token is the one that its text writes, in each of the four spellings. -/
theorem tokenDocument?_encode (spelling : Base64.Spelling) (s : String) :
    tokenDocument? (String.ofList (tokenLead ++ Base64.encode spelling (Text.toBytes s)))
      = Json.readDocument s.toList := by
  simp only [tokenDocument?, String.toList_ofList, Text.dropLead?_append, Option.bind_eq_bind,
    Option.bind_some, Base64.decodeAny?_encode, Text.ofBytes_toBytes]

/-- The document in the own token of a bookmark is its written form. -/
theorem tokenDocument?_token (b : Bookmark) :
    tokenDocument? b.token = some (.ofJson b.toJson) := by
  rw [token, bytes, tokenDocument?_encode, Json.compact, String.toList_ofList,
    Json.readDocument_chars b.isWhole_toJson]

/-- **Tokens have one canonical form.** Whatever a token that names a bookmark looks like, the own
token of the bookmark names it as well, in each of the four base64 spellings. The document in the
own token is the written form of the bookmark, and this nests no deeper than the document in the
token that was accepted. -/
theorem readToken_token_of_readToken {token : String} {b : Bookmark}
    (h : readToken token = .ok b) :
    readToken b.token = .ok b ∧
      (∀ spelling : Base64.Spelling,
        readToken (String.ofList (tokenLead ++ Base64.encode spelling b.bytes)) = .ok b) ∧
      b.levels ≤ Document.maxLevels ∧
      ∃ accepted canonical, tokenDocument? token = some accepted ∧
        tokenDocument? b.token = some canonical ∧ canonical = .ofJson b.toJson ∧
        canonical.levels ≤ accepted.levels := by
  have hlevels := levels_le_of_readToken h
  have hencode := fun spelling : Base64.Spelling => readToken_encode spelling b
  simp only [if_pos hlevels] at hencode
  obtain ⟨accepted, haccepted, hread⟩ := readToken_eq_ok_iff.mp h
  refine ⟨hencode ⟨true, false⟩, hencode, hlevels, accepted, _, haccepted,
    tokenDocument?_token b, rfl, ?_⟩
  rw [Document.levels_ofJson]
  exact levels_le_levels_of_ofDocument? hread

/-- What a token may say about the places of a merge: shapes and contents stand in lists, a label
stands without a position, a content stands before its shape and next to a name that means nothing,
and the instant is a leap second told far from universal time. -/
def generousText : String :=
  "[\"merge\",[[\"a\",\x7b\"value\":\"2024-2-29 23:59:60.5 +05:30\"," ++
    "\"x\":[[[]]],\"type\":\"time\"\x7d],[\"b\"]]]"

/-- The document of that text. -/
def generousDocument : Document :=
  .list [.ofText "merge", .list
    [.list [.ofText "a", .record
      [(.ofText "value", .ofText "2024-2-29 23:59:60.5 +05:30"),
        (.ofText "x", .list [.list [.list []]]), (.ofText "type", .ofText "time")]],
    .list [.ofText "b"]]]

theorem readDocument_generousText :
    Json.readDocument generousText.toList = some generousDocument := by
  cbv

/-- The token that spells the text with padding and the letters `+` and `/`. -/
def generousToken : String :=
  String.ofList (tokenLead ++ Base64.encode ⟨false, true⟩ (Text.toBytes generousText))

theorem generousToken_reread :
    ∃ b, readToken generousToken = .ok b ∧ readToken b.token = .ok b ∧
      ∃ accepted canonical, tokenDocument? generousToken = some accepted ∧
        tokenDocument? b.token = some canonical ∧ canonical.levels ≤ accepted.levels := by
  obtain ⟨b, hb⟩ : ∃ b, ofDocument? Document.maxLevels generousDocument = some b :=
    Option.isSome_iff_exists.mp (by decide)
  have hdocument : tokenDocument? generousToken = some generousDocument := by
    rw [generousToken, tokenDocument?_encode, readDocument_generousText]
  have hread : readToken generousToken = .ok b :=
    readToken_eq_ok_iff.mpr ⟨generousDocument, hdocument, hb⟩
  obtain ⟨hreread, -, -, accepted, canonical, haccepted, hcanonical, -, hlevels⟩ :=
    readToken_token_of_readToken hread
  exact ⟨b, hread, hreread, accepted, canonical, haccepted, hcanonical, hlevels⟩

end KeysetPaging.Bookmark
