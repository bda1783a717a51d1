import DirWatch.Number.Decimal

/-! # Numbers in plain text

Integers and floating-point numbers as a whole text spells them: no blanks, no grouping, and a sign
in front where the number may have one. -/

namespace DirWatch.Number

/-- The value of a digit of a base up to sixteen. -/
def digitValue (c : Char) : Nat :=
  if c.isDigit then c.toNat - '0'.toNat
  else if 'a' ≤ c && c ≤ 'f' then c.toNat - 'a'.toNat + 10
  else if 'A' ≤ c && c ≤ 'F' then c.toNat - 'A'.toNat + 10
  else 16

/-- Whether a character is a digit of a base up to sixteen. -/
def isDigitOf (base : Nat) (c : Char) : Bool := digitValue c < base

/-- The number that digits spell. -/
def ofDigits (base : Nat) (digits : List Char) : Nat :=
  digits.foldl (fun n c => base * n + digitValue c) 0

/-- A text of decimal digits, one at least. -/
def natural? (cs : List Char) : Option Nat :=
  if cs ≠ [] ∧ cs.all Char.isDigit then some (ofDigits 10 cs) else none

/-- Takes off a sign: whether it is a minus, and what follows. -/
def splitSign : List Char → Bool × List Char
  | '-' :: rest => (true, rest)
  | '+' :: rest => (false, rest)
  | rest => (false, rest)

/-- The signed 64-bit integer of a sign and a magnitude. -/
def int64? (negative : Bool) (magnitude : Nat) : Option Int :=
  if negative then if magnitude ≤ Nat.pow 2 63 then some (-magnitude) else none
  else if magnitude < Nat.pow 2 63 then some magnitude else none

/-- Reads a signed 64-bit integer. -/
def readInt64? (cs : List Char) : Option Int :=
  let (negative, body) := splitSign cs
  (natural? body).bind (int64? negative)

/-- Reads an unsigned 64-bit integer, which may have a plus in front. -/
def readUInt64? (cs : List Char) : Option UInt64 :=
  let body := match cs with
    | '+' :: rest => rest
    | rest => rest
  (natural? body).bind fun n => if n < UInt64.size then some (.ofNat n) else none

/-- Reads an exponent: a mark, then an integer; no text at all is zero. -/
def exponent? : List Char → Option Int
  | [] => some 0
  | c :: rest =>
    if c = 'e' || c = 'E' then
      let (negative, body) := splitSign rest
      (natural? body).map fun n => if negative then -(n : Int) else n
    else none

/-- Splits a fraction off: the digits after a point, and what follows them. -/
def splitFraction : List Char → List Char × List Char
  | '.' :: rest => (rest.takeWhile Char.isDigit, rest.dropWhile Char.isDigit)
  | rest => ([], rest)

/-- Reads digits with an optional point among them, one at least, and an optional exponent. -/
def decimal? (cs : List Char) : Option Decimal :=
  let whole := cs.takeWhile Char.isDigit
  let (fraction, rest) := splitFraction (cs.dropWhile Char.isDigit)
  if whole = [] ∧ fraction = [] then none
  else (exponent? rest).map fun e => ⟨ofDigits 10 (whole ++ fraction), e - fraction.length⟩

/-- Reads a floating-point number; the words for infinity and for no number are known in any case.
-/
def readBinary64? (cs : List Char) : Option Binary64 :=
  let (negative, body) := splitSign cs
  let word := body.map Char.toLower
  if word = ['i', 'n', 'f'] ∨ word = "infinity".toList then some (.infinite negative)
  else if word = ['n', 'a', 'n'] then some .nan
  else (decimal? body).map (·.toBinary64 negative)

example : readInt64? ['+', '5'] = some 5 := by decide +kernel
example : readInt64? ['0', '0', '7'] = some 7 := by decide +kernel
example : (readBinary64? ['1', 'e', '3']).map (·.text) = some "1000" := by decide +kernel
example : readBinary64? ['0', 'x', '1'] = none := by decide +kernel

end DirWatch.Number
