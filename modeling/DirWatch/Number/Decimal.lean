import DirWatch.Number.Binary64

/-! # Decimal text of numbers

The nearest binary number to a decimal, and the shortest decimal that reads back as a binary
number. -/

namespace DirWatch

/-- The number `coefficient * 10 ^ exponent`. -/
structure Decimal where
  coefficient : Nat
  exponent : Int
  deriving DecidableEq

namespace Decimal

/-- The decimal digits of a natural number. -/
def digits (n : Nat) : List Char := Nat.toDigits 10 n

/-- One more than the power of ten of the highest digit. -/
def magnitude (d : Decimal) : Int := (digits d.coefficient).length + d.exponent

/-- The binary number nearest to a decimal. Decimals of huge magnitude are decided by it alone, so
that no huge power of ten is formed. -/
def toBinary64 (negative : Bool) (d : Decimal) : Binary64 :=
  if d.coefficient = 0 then .zero negative
  else if d.magnitude > 310 then .infinite negative
  else if d.magnitude < -325 then .zero negative
  else
    .ofFraction negative (d.coefficient * Nat.pow 10 d.exponent.toNat)
      (Nat.pow 10 (-d.exponent).toNat)

/-- A decimal without an exponent: a point stands only before digits other than closing zeros. -/
def text (d : Decimal) : String :=
  if 0 ≤ d.exponent then
    String.ofList (digits d.coefficient ++ List.replicate d.exponent.toNat '0')
  else
    let places := (-d.exponent).toNat
    let all := digits d.coefficient
    let padded := List.replicate (places + 1 - all.length) '0' ++ all
    let whole := padded.take (padded.length - places)
    let fraction := ((padded.drop (padded.length - places)).reverse.dropWhile (· == '0')).reverse
    String.ofList (if fraction.isEmpty then whole else whole ++ '.' :: fraction)

end Decimal

namespace Binary64

/-- The numbers that round to `center`, all four as multiples of `2 ^ exponent`. -/
structure Neighbourhood where
  low : Nat
  center : Nat
  high : Nat
  exponent : Int
  closed : Bool

/-- What rounds to a positive number: up to half-way to its neighbours, the half-way points included
if its significand is even. The lower neighbour of a power of two is half as far as the upper. -/
def neighbourhood (significand : Nat) (exponent : Int) : Neighbourhood where
  low := if significand = Nat.pow 2 (precision - 1) ∧ leastExponent < exponent
    then 4 * significand - 1 else 4 * significand - 2
  center := 4 * significand
  high := 4 * significand + 2
  exponent := exponent - 2
  closed := significand % 2 == 0

/-- The decimal exponent of the highest digit of a positive fraction. -/
def topDigit (num den : Nat) : Int :=
  if den ≤ num then (Decimal.digits (num / den)).length - 1
  else
    let places := (Decimal.digits (den / num)).length
    if den ≤ num * Nat.pow 10 (places - 1) then -(places - 1 : Nat) else -places

/-- The decimal with this exponent that is nearest to the center of a neighbourhood and inside it.
The two decimals next to the center are tried, the upper one first where both are equally near. -/
def Neighbourhood.nearest? (n : Neighbourhood) (exponent : Int) : Option Decimal :=
  let unit := Nat.pow 2 n.exponent.toNat * Nat.pow 10 (-exponent).toNat
  let step := Nat.pow 10 exponent.toNat * Nat.pow 2 (-n.exponent).toNat
  let inside (c : Nat) : Bool :=
    if n.closed then n.low * unit ≤ c * step && c * step ≤ n.high * unit
    else n.low * unit < c * step && c * step < n.high * unit
  let below := n.center * unit / step
  let above := below + 1
  let belowFirst := 2 * (n.center * unit) < (below + above) * step
  let tried := if belowFirst then [below, above] else [above, below]
  (tried.find? fun c => c != 0 && inside c).map (⟨·, exponent⟩)

/-- The shortest decimal that reads back as a positive number, and of those the nearest to it. No
number of this format needs more than seventeen digits; the exact decimal closes the search. -/
def shortest (significand : Nat) (exponent : Int) : Decimal :=
  let whole := significand * Nat.pow 2 exponent.toNat
  let top := topDigit whole (Nat.pow 2 (-exponent).toNat)
  let n := neighbourhood significand exponent
  ((List.range 17).findSome? fun (i : Nat) => n.nearest? (top - i)).getD
    ⟨whole * Nat.pow 5 (-exponent).toNat, min exponent 0⟩

/-- The decimal text of a number. -/
def text : Binary64 → String
  | nan => "NaN"
  | infinite negative => if negative then "-inf" else "inf"
  | finite negative m e =>
    let magnitude := if m = 0 then "0" else (shortest m e).text
    if negative then "-" ++ magnitude else magnitude

example : (Decimal.toBinary64 false ⟨25, -1⟩).text = "2.5" := by decide +kernel
example : (Decimal.toBinary64 true ⟨1, 3⟩).text = "-1000" := by decide +kernel
example : (Decimal.toBinary64 false ⟨3, -1⟩).text = "0.3" := by decide +kernel
example : (Decimal.toBinary64 false ⟨5, -7⟩).text = "0.0000005" := by decide +kernel

end Binary64

end DirWatch
