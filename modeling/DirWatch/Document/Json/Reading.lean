import DirWatch.Document.Json.Number

/-! # JSON documents

A JSON text is read as one value. Of equal keys of an object the last one counts. -/

namespace DirWatch.Document.Json

def isSpace (c : Char) : Bool := c == ' ' || c == '\t' || c == '\n' || c == '\r'

def skipSpace (cs : List Char) : List Char := cs.dropWhile isSpace

/-- A text that was read and what follows it. -/
abbrev Quotation := Option (List Char × List Char)

/-- Puts a character in front of a text that was read. -/
def Quotation.after (c : Char) (q : Quotation) : Quotation :=
  q.map fun (text, rest) => (c :: text, rest)

/-- The character that a letter after a backslash stands for. -/
def escaped? : Char → Option Char
  | '"' => some '"'
  | '\\' => some '\\'
  | '/' => some '/'
  | 'b' => some '\x08'
  | 'f' => some '\x0c'
  | 'n' => some '\n'
  | 'r' => some '\r'
  | 't' => some '\t'
  | _ => none

/-- A number of four hexadecimal digits. -/
def unit? (a b c d : Char) : Option Nat :=
  let digits := [a, b, c, d]
  if digits.all (Number.isDigitOf 16) then some (Number.ofDigits 16 digits) else none

def isHighSurrogate (n : Nat) : Bool := 0xD800 ≤ n && n < 0xDC00

def isLowSurrogate (n : Nat) : Bool := 0xDC00 ≤ n && n < 0xE000

/-- The character of a numeric escape after its letter: one unit, or two surrogates in order. -/
def unicode? : List Char → Option (Char × List Char)
  | a :: b :: c :: d :: rest => do
    let high ← unit? a b c d
    if isHighSurrogate high then
      match rest with
      | '\\' :: 'u' :: e :: f :: g :: h :: rest =>
        let low ← unit? e f g h
        if isLowSurrogate low then
          return (.ofNat (0x10000 + 0x400 * (high - 0xD800) + (low - 0xDC00)), rest)
        else none
      | _ => none
    else if isLowSurrogate high then none
    else return (.ofNat high, rest)
  | _ => none

/-- Reads an escape after its backslash. -/
def escape? : List Char → Option (Char × List Char)
  | 'u' :: rest => unicode? rest
  | c :: rest => (escaped? c).map (·, rest)
  | [] => none

/-- Reads at most `room` characters of a text after its quote. No control character stands in it. -/
def quotedText? (room : Nat) (cs : List Char) : Quotation :=
  match room with
  | 0 => none
  | room + 1 =>
    match cs with
    | [] => none
    | '"' :: rest => some ([], rest)
    | '\\' :: rest => do
      let (c, rest) ← escape? rest
      (quotedText? room rest).after c
    | c :: rest => if c < ' ' then none else (quotedText? room rest).after c

/-- Reads a text after its quote. -/
def text? (cs : List Char) : Option (String × List Char) :=
  (quotedText? (cs.length + 1) cs).map fun (text, rest) => (String.ofList text, rest)

/-- Reads at most `room` items of a list up to its closing bracket. -/
def items? (value? : List Char → Option (Value × List Char)) (room : Nat) (cs : List Char) :
    Option (List Value × List Char) :=
  match room with
  | 0 => none
  | room + 1 => do
    let (item, rest) ← value? cs
    match skipSpace rest with
    | ']' :: rest => return ([item], rest)
    | ',' :: rest =>
      let (items, rest) ← items? value? room rest
      return (item :: items, rest)
    | _ => none

/-- Reads at most `room` keys with their values up to the closing brace of an object. -/
def entries? (value? : List Char → Option (Value × List Char)) (room : Nat)
    (before : List (String × Value)) (cs : List Char) :
    Option (List (String × Value) × List Char) :=
  match room, skipSpace cs with
  | room + 1, '"' :: rest => do
    let (key, rest) ← text? rest
    match skipSpace rest with
    | ':' :: rest =>
      let (value, rest) ← value? rest
      let entries := Value.put key value before
      match skipSpace rest with
      | '\x7d' :: rest => return (entries, rest)
      | ',' :: rest => entries? value? room entries rest
      | _ => none
    | _ => none
  | _, _ => none

/-- Reads a value in which at most `depth` lists and objects are nested. -/
def value? (depth : Nat) (cs : List Char) : Option (Value × List Char) :=
  match skipSpace cs with
  | 'n' :: 'u' :: 'l' :: 'l' :: rest => some (.null, rest)
  | 't' :: 'r' :: 'u' :: 'e' :: rest => some (.flag true, rest)
  | 'f' :: 'a' :: 'l' :: 's' :: 'e' :: rest => some (.flag false, rest)
  | '"' :: rest => (text? rest).map fun (s, rest) => (.text s, rest)
  | '[' :: rest =>
    match depth with
    | 0 => none
    | depth + 1 =>
      match skipSpace rest with
      | ']' :: rest => some (.list [], rest)
      | rest =>
        (items? (value? depth) (rest.length + 1) rest).map fun (items, rest) => (.list items, rest)
  | '\x7b' :: rest =>
    match depth with
    | 0 => none
    | depth + 1 =>
      match skipSpace rest with
      | '\x7d' :: rest => some (.table [], rest)
      | rest =>
        (entries? (value? depth) (rest.length + 1) [] rest).map fun (entries, rest) =>
          (.table entries, rest)
  | cs => number? cs

/-- How deep lists and objects can be nested. -/
def nestingLimit : Nat := 127

/-- Reads a JSON document. -/
def read? (text : String) : Option Value :=
  match value? nestingLimit text.toList with
  | some (value, rest) => if (skipSpace rest).isEmpty then some value else none
  | none => none

end DirWatch.Document.Json
