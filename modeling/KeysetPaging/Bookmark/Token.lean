import KeysetPaging.Base64
import KeysetPaging.Bookmark.Form
import KeysetPaging.Json.Reader
import KeysetPaging.Json.Writer
import KeysetPaging.Text.Blank
import KeysetPaging.Text.Utf8

/-! # Page tokens

A page token is the word `bookmark:` and the base64 spelling of the written form of a bookmark.
Whatever else a caller sends, such as the number of a page, names no bookmark.
-/

namespace KeysetPaging

/-- Why a token names no bookmark. -/
inductive TokenFault where
  /-- It does not start with the word of a token. -/
  | foreign
  /-- What follows the word is no base64. -/
  | badBase64
  /-- The bytes are not the written form of a bookmark. -/
  | badBookmark
  deriving DecidableEq, Repr

namespace Bookmark

/-- The word that every token starts with. -/
def tokenLead : List Char :=
  "bookmark:".toList

/-- The bytes of the written form of a bookmark. -/
def bytes (b : Bookmark) : List UInt8 :=
  Text.toBytes b.toJson.compact

/-- The token of a bookmark: the unpadded spelling that needs no escaping in an address. -/
def token (b : Bookmark) : String :=
  String.ofList (tokenLead ++ Base64.encode ⟨true, false⟩ b.bytes)

/-- The bookmark that bytes write. -/
def ofBytes? (bytes : List UInt8) : Option Bookmark :=
  (Json.readDocument (Text.ofBytes bytes)).bind (ofDocument? Document.maxLevels)

/-- The bookmark that a text writes. -/
def ofText? (s : String) : Option Bookmark :=
  (Json.readDocument s.toList).bind (ofDocument? Document.maxLevels)

/-- The bookmark that a token names, or why it names none. -/
def readToken (token : String) : Except TokenFault Bookmark :=
  match Text.dropLead? tokenLead token.toList with
  | none => .error .foreign
  | some payload =>
      match Base64.decodeAny? payload with
      | none => .error .badBase64
      | some bytes =>
          match ofBytes? bytes with
          | none => .error .badBookmark
          | some b => .ok b

end Bookmark

end KeysetPaging
