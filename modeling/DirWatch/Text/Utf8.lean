/-! # Bytes read as UTF-8

A byte string is cut into well-formed characters and ill-formed chunks. A chunk is the longest run
that could still have become a character, or one byte that starts none. -/

namespace DirWatch

/-- Raw bytes, such as file names and file contents. -/
abbrev Bytes := List UInt8

namespace Utf8

/-- One part of a byte string that is read as UTF-8. -/
inductive Piece where
  | char (c : Char)
  | invalid (bytes : Bytes)
  deriving DecidableEq

/-- A character of which the first bytes are read: how many follow, and the bounds of the next. -/
structure Started where
  owed : Nat
  low : UInt8 := 0x80
  high : UInt8 := 0xBF
  value : Nat
  seen : Bytes

/-- The character that a first byte starts, if it starts a longer one. -/
def start? (b : UInt8) : Option Started :=
  if 0xC2 ≤ b && b ≤ 0xDF then some { owed := 1, value := b.toNat - 0xC0, seen := [b] }
  else if b == 0xE0 then some { owed := 2, low := 0xA0, value := 0, seen := [b] }
  else if b == 0xED then some { owed := 2, high := 0x9F, value := 0xD, seen := [b] }
  else if 0xE1 ≤ b && b ≤ 0xEF then some { owed := 2, value := b.toNat - 0xE0, seen := [b] }
  else if b == 0xF0 then some { owed := 3, low := 0x90, value := 0, seen := [b] }
  else if 0xF1 ≤ b && b ≤ 0xF3 then some { owed := 3, value := b.toNat - 0xF0, seen := [b] }
  else if b == 0xF4 then some { owed := 3, high := 0x8F, value := 4, seen := [b] }
  else none

/-- The character after one more byte of it. -/
def Started.push (s : Started) (b : UInt8) : Started where
  owed := s.owed - 1
  value := s.value * 64 + (b.toNat - 0x80)
  seen := s.seen ++ [b]

/-- Cuts bytes into characters and ill-formed chunks, after the start of a character if any. -/
def scan : Option Started → Bytes → List Piece
  | none, [] => []
  | some s, [] => [.invalid s.seen]
  | none, b :: rest =>
    if b < 0x80 then .char (Char.ofNat b.toNat) :: scan none rest
    else match start? b with
      | none => .invalid [b] :: scan none rest
      | some s => scan (some s) rest
  | some s, b :: rest =>
    if s.low ≤ b && b ≤ s.high then
      let s := s.push b
      if s.owed = 0 then .char (Char.ofNat s.value) :: scan none rest else scan (some s) rest
    else .invalid s.seen ::
      if b < 0x80 then .char (Char.ofNat b.toNat) :: scan none rest
      else match start? b with
        | none => .invalid [b] :: scan none rest
        | some s => scan (some s) rest

/-- The parts of a byte string in order. -/
def pieces (bytes : Bytes) : List Piece := scan none bytes

/-- The characters of a well-formed byte string. -/
def decode? (bytes : Bytes) : Option (List Char) :=
  (pieces bytes).mapM fun
    | .char c => some c
    | .invalid _ => none

/-- The characters of a byte string, with one replacement character for each ill-formed chunk. -/
def decodeLossy (bytes : Bytes) : List Char :=
  (pieces bytes).map fun
    | .char c => c
    | .invalid _ => '\ufffd'

/-- The bytes of a text. -/
def encode (s : String) : Bytes := s.toList.flatMap String.utf8EncodeChar

example : decode? (encode "aé日😀") = some ['a', 'é', '日', '😀'] := by decide +kernel
example : pieces [0x61, 0xE2, 0x82, 0xFF, 0x62]
    = [.char 'a', .invalid [0xE2, 0x82], .invalid [0xFF], .char 'b'] := by decide +kernel

end Utf8

end DirWatch
