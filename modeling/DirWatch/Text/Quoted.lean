import DirWatch.Text.Hidden
import DirWatch.Text.Utf8

/-! # Quoted text

Texts and file names as they stand inside messages: between double quotes, with a backslash before
what would end the quotation or has no picture of its own. -/

namespace DirWatch.Text

/-- A number in lower-case hexadecimal digits. -/
def hexDigits (n : Nat) : List Char := Nat.toDigits 16 n

/-- A byte that belongs to no character, as two upper-case hexadecimal digits. -/
def escapeByte (b : UInt8) : List Char :=
  let digit (n : Nat) : Char := (Nat.digitChar n).toUpper
  ['\\', 'x', digit (b.toNat / 16), digit (b.toNat % 16)]

/-- A character inside a quotation. -/
def escapeChar (c : Char) : List Char :=
  if c = '\x00' then ['\\', '0']
  else if c = '\t' then ['\\', 't']
  else if c = '\r' then ['\\', 'r']
  else if c = '\n' then ['\\', 'n']
  else if c = '"' || c = '\\' then ['\\', c]
  else if isHidden c then ['\\', 'u', '\x7b'] ++ hexDigits c.toNat ++ ['\x7d']
  else [c]

/-- A text between double quotes. -/
def quote (s : String) : String :=
  String.ofList ('"' :: s.toList.flatMap escapeChar ++ ['"'])

/-- A part of a file name inside a quotation. -/
def escapePiece : Utf8.Piece → List Char
  | .char c => escapeChar c
  | .invalid bytes => bytes.flatMap escapeByte

/-- The bytes of a path between double quotes. -/
def quoteBytes (bytes : Bytes) : String :=
  String.ofList ('"' :: (Utf8.pieces bytes).flatMap escapePiece ++ ['"'])

/-- Items between brackets, separated by commas. -/
def bracketed (opening closing : String) (items : List String) : String :=
  opening ++ String.intercalate ", " items ++ closing

/-- A list of texts, each quoted, between square brackets. -/
def quoteList (items : List String) : String := bracketed "[" "]" (items.map quote)

example : quote "a\"b\\\té\u200b" = "\"a\\\"b\\\\\\té\\u\x7b200b\x7d\"" := by decide +kernel
example : quoteBytes [0x61, 0xff, 0x0a] = "\"a\\xFF\\n\"" := by decide +kernel

end DirWatch.Text
