import DirWatch.Document.Toml.Bare
import DirWatch.Document.Toml.Quoted

/-! # Statements

A TOML document is a list of statements: headers that open a table or a row of tables, and keys with
their values. Tables between braces are lists of keys and values themselves. -/

namespace DirWatch.Document.Toml

/-- The names on the way from a table to a value inside it. -/
abbrev Key := List String

/-- A value as it is written, where a table between braces is not yet put together. -/
inductive Written where
  | plain (v : Value)
  | list (items : List Written)
  | table (pairs : List (Key × Written))

inductive Statement where
  | header (key : Key)
  | row (key : Key)
  | pair (key : Key) (value : Written)

/-- One more than how many names a key can have, and how deep lists and tables can be nested. -/
def nestingLimit : Nat := 80

def isNameChar (c : Char) : Bool := c.isAlphanum || c == '_' || c == '-'

/-- Reads one name of a key. -/
def name? (cs : List Char) : Option (String × List Char) :=
  match cs with
  | '"' :: _ | '\'' :: _ => (lineText cs).map fun (text, rest) => (String.ofList text, rest)
  | _ =>
    match cs.takeWhile isNameChar with
    | [] => none
    | text => some (String.ofList text, cs.dropWhile isNameChar)

/-- Reads a key of at most `room` names with points between them, and the blanks around it. -/
def key? (room : Nat) (cs : List Char) : Option (Key × List Char) :=
  match room with
  | 0 => none
  | room + 1 => do
    let (name, rest) ← name? (skipBlanks cs)
    match skipBlanks rest with
    | '.' :: rest =>
      let (names, rest) ← key? room rest
      return (name :: names, rest)
    | rest => return ([name], rest)

/-- Reads a key of any length that is allowed. -/
def wholeKey? (cs : List Char) : Option (Key × List Char) := key? (nestingLimit - 1) cs

/-- Reads the rest of a list of at most `room` items, after its bracket or a comma. -/
def items? (value? : List Char → Option (Written × List Char)) (room : Nat) (cs : List Char) :
    Option (List Written × List Char) :=
  match room with
  | 0 => none
  | room + 1 =>
    match skipLines cs with
    | ']' :: rest => some ([], rest)
    | cs => do
      let (item, rest) ← value? cs
      match skipLines rest with
      | ']' :: rest => return ([item], rest)
      | ',' :: rest =>
        let (items, rest) ← items? value? room rest
        return (item :: items, rest)
      | _ => none

/-- Reads a key, an equals sign and a value. -/
def pair? (value? : List Char → Option (Written × List Char)) (cs : List Char) :
    Option ((Key × Written) × List Char) := do
  let (key, rest) ← wholeKey? cs
  match rest with
  | '=' :: rest =>
    let (value, rest) ← value? (skipBlanks rest)
    return ((key, value), rest)
  | _ => none

/-- Reads at most `room` pairs of a table between braces, up to its closing brace. -/
def pairs? (value? : List Char → Option (Written × List Char)) (room : Nat) (cs : List Char) :
    Option (List (Key × Written) × List Char) :=
  match room with
  | 0 => none
  | room + 1 => do
    let (pair, rest) ← pair? value? cs
    match skipBlanks rest with
    | '\x7d' :: rest => return ([pair], rest)
    | ',' :: rest =>
      let (pairs, rest) ← pairs? value? room rest
      return (pair :: pairs, rest)
    | _ => none

/-- Reads a value in which less than `depth` lists and tables are nested. -/
def value? (depth : Nat) (cs : List Char) : Option (Written × List Char) :=
  match cs with
  | '[' :: rest =>
    match depth with
    | 0 => none
    | depth + 1 =>
      (items? (value? depth) (rest.length + 1) rest).map fun (items, rest) => (.list items, rest)
  | '\x7b' :: rest =>
    match depth with
    | 0 => none
    | depth + 1 =>
      match skipBlanks rest with
      | '\x7d' :: rest => some (.table [], rest)
      | rest =>
        (pairs? (value? depth) (rest.length + 1) rest).map fun (pairs, rest) => (.table pairs, rest)
  | '"' :: _ | '\'' :: _ =>
    (quotedText cs).map fun (text, rest) => (.plain (.text (String.ofList text)), rest)
  | _ => (bareValue? cs).map fun (value, rest) => (.plain value, rest)

/-- Reads a statement and the end of its line. -/
def statement? (cs : List Char) : Option (Statement × List Char) :=
  match cs with
  | '[' :: '[' :: rest => do
    match ← wholeKey? rest with
    | (key, ']' :: ']' :: rest) => return (.row key, ← lineEnd? rest)
    | _ => none
  | '[' :: rest => do
    match ← wholeKey? rest with
    | (key, ']' :: rest) => return (.header key, ← lineEnd? rest)
    | _ => none
  | _ => do
    let ((key, value), rest) ← pair? (value? (nestingLimit - 1)) cs
    return (.pair key value, ← lineEnd? rest)

/-- Reads at most `room` statements that make up a whole text. -/
def statements? (room : Nat) (cs : List Char) : Option (List Statement) :=
  match skipLines cs with
  | [] => some []
  | cs =>
    match room with
    | 0 => none
    | room + 1 => do
      let (statement, rest) ← statement? cs
      return statement :: (← statements? room rest)

end DirWatch.Document.Toml
