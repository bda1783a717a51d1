import DirWatch.Document.Value

/-! # Bare values

Values without quotes or brackets: truth values, numbers, dates and times. Such a value reaches up
to the next character that cannot be part of one, and is read as a whole. -/

namespace DirWatch.Document.Toml

/-- Whether a character can be part of a bare value. -/
def isBare (c : Char) : Bool := c.isAlphanum || ['+', '-', '.', ':', '_'].contains c

/-- Digits without the underscores among them; each underscore stands between two digits. -/
def digits? (isDigit : Char → Bool) (cs : List Char) : Option (List Char) :=
  let groups := cs.splitOn '_'
  if groups.all fun g => g ≠ [] && g.all isDigit then some groups.flatten else none

/-- Decimal digits of which the first is not a zero that others follow. -/
def wholeDigits? (cs : List Char) : Option (List Char) :=
  if cs.length ≠ 1 ∧ cs.head? = some '0' then none else digits? Char.isDigit cs

/-- An integer in another base than ten, after the mark of the base. -/
def basedInteger? (base : Nat) (cs : List Char) : Option Value := do
  let digits ← digits? (Number.isDigitOf base) cs
  return .integer (← Number.int64? false (Number.ofDigits base digits))

def isExponentMark (c : Char) : Bool := c == 'e' || c == 'E'

/-- The exponent that follows its mark; nothing at all is zero. -/
def exponentOf? : List Char → Option Int
  | [] => some 0
  | _ :: rest => do
    let (negative, body) := Number.splitSign rest
    let n := Number.ofDigits 10 (← digits? Char.isDigit body)
    return if negative then -(n : Int) else n

/-- The digits that follow a point; nothing at all is no digits. -/
def fractionOf? : List Char → Option (List Char)
  | [] => some []
  | _ :: rest => digits? Char.isDigit rest

/-- An integer or a decimal fraction without its sign. A positive fraction that is too large for the
format is refused. -/
def unsigned? (negative : Bool) (cs : List Char) : Option Value := do
  let mantissa := cs.takeWhile (!isExponentMark ·)
  let exponent := cs.dropWhile (!isExponentMark ·)
  let whole ← wholeDigits? (mantissa.takeWhile (· != '.'))
  let fraction := mantissa.dropWhile (· != '.')
  if exponent = [] ∧ fraction = [] then
    return .integer (← Number.int64? negative (Number.ofDigits 10 whole))
  else
    let places ← fractionOf? fraction
    let e ← exponentOf? exponent
    let x := Decimal.toBinary64 negative ⟨Number.ofDigits 10 (whole ++ places), e - places.length⟩
    if x = .infinite false then none else some (.number x)

/-- A number; a base is marked only where no sign stands. -/
def number? (cs : List Char) : Option Value :=
  match cs with
  | '0' :: 'x' :: rest => basedInteger? 16 rest
  | '0' :: 'o' :: rest => basedInteger? 8 rest
  | '0' :: 'b' :: rest => basedInteger? 2 rest
  | _ =>
    let (negative, body) := Number.splitSign cs
    if body = ['i', 'n', 'f'] then some (.number (.infinite negative))
    else if body = ['n', 'a', 'n'] then some (.number .nan)
    else unsigned? negative body

/-- A bare value that is a whole text. -/
def bare? (cs : List Char) : Option Value :=
  if cs = ['t', 'r', 'u', 'e'] then some (.flag true)
  else if cs = ['f', 'a', 'l', 's', 'e'] then some (.flag false)
  else ((Moment.read? cs).map .moment) <|> number? cs

/-- Whether a text goes on, after a date, with a space and a time. -/
def startsTime : List Char → Bool
  | ' ' :: c :: _ => c.isDigit
  | _ => false

/-- Reads a bare value at the beginning of a text. A date takes a time after a space with it. -/
def bareValue? (cs : List Char) : Option (Value × List Char) :=
  let first := cs.takeWhile isBare
  let rest := cs.dropWhile isBare
  match bare? first with
  | some (.moment (.date d)) =>
    if startsTime rest then
      let time := rest.tail.takeWhile isBare
      (Moment.withTime? d time).map fun m => (.moment m, rest.tail.dropWhile isBare)
    else some (.moment (.date d), rest)
  | some v => some (v, rest)
  | none => none

end DirWatch.Document.Toml
