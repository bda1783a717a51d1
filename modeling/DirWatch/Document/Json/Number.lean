import DirWatch.Document.Value

/-! # JSON numbers

An integer of 64 signed bits stays one. Every other number is the product or the quotient of a
significand of 64 bits and a power of ten, both rounded to the binary format first; digits that do
not fit the significand only count as places. -/

namespace DirWatch.Document.Json

/-- Appends digits to a significand as long as it stays below `2 ^ 64`, and gives those left over.
-/
def absorb (significand : Nat) : List Char → Nat × List Char
  | [] => (significand, [])
  | c :: rest =>
    let longer := 10 * significand + Number.digitValue c
    if longer < UInt64.size then absorb longer rest else (significand, c :: rest)

/-- The greatest power of ten of the binary format. -/
def greatestPower : Nat := 308

/-- A power of ten rounded to the binary format. -/
def powerOfTen (n : Nat) : Binary64 := .ofNat (Nat.pow 10 n)

/-- Multiplies a significand by a power of ten, if the result is in range. A quotient beyond the
greatest power is formed in two steps; beyond that it is zero. -/
def scaled? (significand : Nat) (exponent : Int) : Option Binary64 :=
  if significand = 0 then some (.zero false)
  else if exponent > greatestPower then none
  else
    let x := Binary64.ofNat significand
    let places := (-exponent).toNat
    if 0 ≤ exponent then
      let product := x.times (powerOfTen exponent.toNat)
      if product.isInfinite then none else some product
    else if places ≤ greatestPower then some (x.dividedBy (powerOfTen places))
    else if places ≤ 2 * greatestPower then
      some ((x.dividedBy (powerOfTen greatestPower)).dividedBy (powerOfTen (places - greatestPower)))
    else some (.zero false)

def signed (negative : Bool) (x : Binary64) : Value := .number (if negative then x.negate else x)

/-- The value of an integer that fits the significand. -/
def integer (negative : Bool) (significand : Nat) : Value :=
  match Number.int64? negative significand with
  | some i => if negative ∧ i = 0 then .number (.zero true) else .integer i
  | none => signed negative (.ofNat significand)

/-- Splits off the digits after a point, one at least; without a point there are none. -/
def splitFraction? : List Char → Option (List Char × List Char)
  | '.' :: rest =>
    match rest.takeWhile Char.isDigit with
    | [] => none
    | digits => some (digits, rest.dropWhile Char.isDigit)
  | rest => some ([], rest)

/-- Splits off an exponent; without one there is none to split. -/
def splitExponent? : List Char → Option (Option Int × List Char)
  | c :: rest =>
    if c = 'e' ∨ c = 'E' then
      let (negative, body) := Number.splitSign rest
      match body.takeWhile Char.isDigit with
      | [] => none
      | digits =>
        let n := Number.ofDigits 10 digits
        some (some (if negative then -(n : Int) else n), body.dropWhile Char.isDigit)
    else some (none, c :: rest)
  | [] => some (none, [])

/-- Reads a number without its sign. -/
def unsigned? (negative : Bool) (cs : List Char) : Option (Value × List Char) := do
  let whole := cs.takeWhile Char.isDigit
  if whole = [] ∨ (whole.length ≠ 1 ∧ whole.head? = some '0') then none
  else
    let (fraction, rest) ← splitFraction? (cs.dropWhile Char.isDigit)
    let (exponent, rest) ← splitExponent? rest
    let (significand, beyond) := absorb 0 whole
    if fraction = [] ∧ exponent = none ∧ beyond = [] then
      return (integer negative significand, rest)
    else
      let (significand, dropped) := absorb significand fraction
      let places := fraction.length - dropped.length
      let x ← scaled? significand (beyond.length - places + exponent.getD 0)
      return (signed negative x, rest)

/-- Reads a number at the beginning of a text. -/
def number? : List Char → Option (Value × List Char)
  | '-' :: rest => unsigned? true rest
  | cs => unsigned? false cs

end DirWatch.Document.Json
