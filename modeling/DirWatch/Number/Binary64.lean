/-! # Binary floating point

Numbers of the 64-bit binary format as exact values, and the rounding of a fraction to the nearest
of them. Half-way cases go to the even significand. -/

namespace DirWatch

/-- A number of the 64-bit binary format; a finite one is `significand * 2 ^ exponent`. -/
inductive Binary64 where
  | nan
  | infinite (negative : Bool)
  | finite (negative : Bool) (significand : Nat) (exponent : Int)
  deriving DecidableEq

/-- The integer nearest to a quotient, the even one of two. -/
def roundDiv (num den : Nat) : Nat :=
  let quotient := num / den
  let twice := 2 * (num % den)
  if twice < den ∨ (twice = den ∧ quotient % 2 = 0) then quotient else quotient + 1

namespace Binary64

/-- How many bits a significand has. -/
def precision : Nat := 53

/-- The exponent of the smallest numbers. -/
def leastExponent : Int := -1074

/-- The exponent of the largest finite numbers. -/
def greatestExponent : Int := 971

def zero (negative : Bool) : Binary64 := .finite negative 0 leastExponent

/-- A rounded significand, which may have one bit too many, at its exponent. -/
def ofRounded (negative : Bool) (significand : Nat) (exponent : Int) : Binary64 :=
  let (significand, exponent) :=
    if significand = Nat.pow 2 precision then (Nat.pow 2 (precision - 1), exponent + 1)
    else (significand, exponent)
  if exponent > greatestExponent then .infinite negative
  else .finite negative significand exponent

/-- The exponent of the highest bit of a positive fraction. -/
def topBit (num den : Nat) : Int :=
  let guess : Int := num.log2 - den.log2
  if num * Nat.pow 2 (-guess).toNat < den * Nat.pow 2 guess.toNat then guess - 1 else guess

/-- The number nearest to a fraction. -/
def ofFraction (negative : Bool) (num den : Nat) : Binary64 :=
  if num = 0 then zero negative
  else
    let exponent := max (topBit num den - (precision - 1)) leastExponent
    ofRounded negative
      (roundDiv (num * Nat.pow 2 (-exponent).toNat) (den * Nat.pow 2 exponent.toNat)) exponent

/-- The number nearest to an integer. -/
def ofNat (n : Nat) : Binary64 := ofFraction false n 1

/-- The number nearest to the product of two numbers, with the sign of the first. -/
def times : Binary64 → Binary64 → Binary64
  | finite negative m e, finite _ n f =>
    ofFraction negative (m * n * Nat.pow 2 (e + f).toNat) (Nat.pow 2 (-(e + f)).toNat)
  | x, _ => x

/-- The number nearest to the quotient of two numbers, with the sign of the first. -/
def dividedBy : Binary64 → Binary64 → Binary64
  | finite negative m e, finite _ n f =>
    ofFraction negative (m * Nat.pow 2 (e - f).toNat) (n * Nat.pow 2 (f - e).toNat)
  | x, _ => x

/-- The number with the other sign. -/
def negate : Binary64 → Binary64
  | nan => nan
  | infinite negative => .infinite !negative
  | finite negative m e => .finite (!negative) m e

def isInfinite : Binary64 → Bool
  | infinite _ => true
  | _ => false

/-- Whether a number differs from zero; what is no number does. -/
def isNonzero : Binary64 → Bool
  | finite _ m _ => m != 0
  | _ => true

/-- The nearest integer of 64 bits, halves going up; a number out of range gives the nearest bound,
and what is no number gives zero. -/
def toUInt64 : Binary64 → UInt64
  | nan => 0
  | infinite negative => if negative then 0 else .ofNat (UInt64.size - 1)
  | finite negative m e =>
    if negative then 0
    else
      let den := Nat.pow 2 (-e).toNat
      .ofNat (min (UInt64.size - 1) ((2 * m * Nat.pow 2 e.toNat + den) / (2 * den)))

example : ofFraction false 1 10 = .finite false 7205759403792794 (-56) := by decide +kernel
example : ofNat (2 ^ 53 + 1) = .finite false (2 ^ 52) 1 := by decide +kernel
example : (ofFraction false 3 2).toUInt64 = 2 := by decide +kernel

end Binary64

end DirWatch
