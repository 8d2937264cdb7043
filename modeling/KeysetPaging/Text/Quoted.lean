import KeysetPaging.Text.Hidden

/-! # Text between double quotes

A quoted text shows its characters as they are, except for the quote, the backslash, four
controls with a letter of their own, and the hidden characters, which are written by number.
-/

namespace KeysetPaging.Text

/-- The sixteen hexadecimal digits, in lower case. -/
def hexDigit (n : Nat) : Char :=
  if n < 10 then Char.ofNat (48 + n) else Char.ofNat (87 + n)

/-- A number in hexadecimal, without leading zeros. -/
def hexadecimal (n : Nat) : List Char :=
  if n < 16 then [hexDigit n] else hexadecimal (n / 16) ++ [hexDigit (n % 16)]

/-- How one character stands between double quotes. -/
def quotedChar (c : Char) : List Char :=
  if c = '"' then ['\\', '"']
  else if c = '\\' then ['\\', '\\']
  else if c = '\n' then ['\\', 'n']
  else if c = '\r' then ['\\', 'r']
  else if c = '\t' then ['\\', 't']
  else if c = Char.ofNat 0 then ['\\', '0']
  else if isHidden c then ['\\', 'u', '{'] ++ hexadecimal c.toNat ++ ['}']
  else [c]

/-- A text between double quotes. -/
def quoted (s : String) : String :=
  String.ofList ('"' :: s.toList.flatMap quotedChar ++ ['"'])

end KeysetPaging.Text
