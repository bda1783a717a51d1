import DirWatch.Number.Reading

/-! # Dates and times

The dates and times that a document can hold, read from their text and written in one normal form.
-/

namespace DirWatch

/-- A day of the calendar. -/
structure Date where
  year : Nat
  month : Nat
  day : Nat
  deriving DecidableEq

/-- A time of the day; the last minute may have a sixty-first second. -/
structure DayTime where
  hour : Nat
  minute : Nat
  second : Nat
  nanosecond : Nat
  deriving DecidableEq

/-- How a clock is set against universal time. -/
inductive ClockOffset where
  | universal
  | minutes (negative : Bool) (count : Nat)
  deriving DecidableEq

/-- A date, a time, or both, and then perhaps the clock that they are read from. -/
inductive Moment where
  | date (d : Date)
  | time (t : DayTime)
  | dateTime (d : Date) (t : DayTime) (offset : Option ClockOffset)
  deriving DecidableEq

namespace Moment

/-! ## Text -/

/-- A number in at least `width` digits. -/
def padded (width n : Nat) : String :=
  let digits := Decimal.digits n
  String.ofList (List.replicate (width - digits.length) '0' ++ digits)

def dateText (d : Date) : String :=
  padded 4 d.year ++ "-" ++ padded 2 d.month ++ "-" ++ padded 2 d.day

/-- A time; the fraction of its second stands without closing zeros, and only if there is one. -/
def timeText (t : DayTime) : String :=
  let whole := padded 2 t.hour ++ ":" ++ padded 2 t.minute ++ ":" ++ padded 2 t.second
  if t.nanosecond = 0 then whole
  else
    let fraction := (padded 9 t.nanosecond).toList
    whole ++ "." ++ String.ofList (fraction.reverse.dropWhile (· == '0')).reverse

/-- An offset; a difference of nothing has a plus. -/
def offsetText : ClockOffset → String
  | .universal => "Z"
  | .minutes negative count =>
    (if negative && count != 0 then "-" else "+")
      ++ padded 2 (count / 60) ++ ":" ++ padded 2 (count % 60)

def text : Moment → String
  | date d => dateText d
  | time t => timeText t
  | dateTime d t offset => dateText d ++ "T" ++ timeText t ++ (offset.map offsetText).getD ""

/-! ## Reading -/

/-- A number of two digits. -/
def pair? (a b : Char) : Option Nat := Number.natural? [a, b]

def isLeapYear (year : Nat) : Bool :=
  year % 4 = 0 && (year % 100 != 0 || year % 400 = 0)

def daysInMonth (year month : Nat) : Nat :=
  if month = 2 then if isLeapYear year then 29 else 28
  else if month = 4 ∨ month = 6 ∨ month = 9 ∨ month = 11 then 30
  else 31

/-- The day of a year, if the calendar has it. -/
def date? (year month day : Nat) : Option Date :=
  if 1 ≤ month ∧ month ≤ 12 ∧ 1 ≤ day ∧ day ≤ daysInMonth year month then
    some ⟨year, month, day⟩
  else none

/-- Reads a date at the beginning of a text. -/
def splitDate? : List Char → Option (Date × List Char)
  | y₁ :: y₂ :: y₃ :: y₄ :: '-' :: m₁ :: m₂ :: '-' :: d₁ :: d₂ :: rest => do
    let d ← date? (← Number.natural? [y₁, y₂, y₃, y₄]) (← pair? m₁ m₂) (← pair? d₁ d₂)
    return (d, rest)
  | _ => none

/-- The nanoseconds of a fraction of a second, whose tenth digit and later ones do not count. -/
def nanoseconds (digits : List Char) : Nat :=
  let kept := digits.take 9
  Number.ofDigits 10 kept * Nat.pow 10 (9 - kept.length)

/-- Reads the fraction of a second: a point and digits, one at least, or nothing. -/
def splitSecondFraction? : List Char → Option (Nat × List Char)
  | '.' :: rest =>
    match rest.takeWhile Char.isDigit with
    | [] => none
    | digits => some (nanoseconds digits, rest.dropWhile Char.isDigit)
  | rest => some (0, rest)

/-- Reads a time at the beginning of a text. -/
def splitTime? : List Char → Option (DayTime × List Char)
  | h₁ :: h₂ :: ':' :: m₁ :: m₂ :: ':' :: s₁ :: s₂ :: rest => do
    let hour ← pair? h₁ h₂
    let minute ← pair? m₁ m₂
    let second ← pair? s₁ s₂
    let (nanosecond, rest) ← splitSecondFraction? rest
    if hour < 24 ∧ minute < 60 ∧ second ≤ 60 then
      some (⟨hour, minute, second, nanosecond⟩, rest)
    else none
  | _ => none

/-- Reads an offset that is a whole text, or none. -/
def offset? : List Char → Option (Option ClockOffset)
  | [] => some none
  | ['Z'] | ['z'] => some (some .universal)
  | [sign, h₁, h₂, ':', m₁, m₂] => do
    let hour ← pair? h₁ h₂
    let minute ← pair? m₁ m₂
    if (sign = '+' ∨ sign = '-') ∧ hour < 24 ∧ minute < 60 then
      some (some (.minutes (sign = '-') (60 * hour + minute)))
    else none
  | _ => none

/-- Reads the time and offset that follow a date. -/
def withTime? (d : Date) (cs : List Char) : Option Moment := do
  let (t, rest) ← splitTime? cs
  return .dateTime d t (← offset? rest)

/-- Reads a moment that is a whole text; between a date and a time stands a letter or a space. -/
def read? (cs : List Char) : Option Moment :=
  match splitDate? cs with
  | some (d, []) => some (.date d)
  | some (d, c :: rest) => if c = 'T' ∨ c = 't' ∨ c = ' ' then withTime? d rest else none
  | none =>
    match splitTime? cs with
    | some (t, []) => some (.time t)
    | _ => none

example : (read? "2024-02-29t07:32:00.500-00:00".toList).map text
    = some "2024-02-29T07:32:00.5+00:00" := by decide +kernel

end Moment

end DirWatch
