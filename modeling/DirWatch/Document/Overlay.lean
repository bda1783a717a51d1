import DirWatch.Document.Value
import DirWatch.Text.Case

/-! # Overlays

Documents laid over one another. A key is a path of names and positions into a document; what a
later layer stores there hides what an earlier one has stored, except that tables are merged. Keys
are kept in lower case. -/

namespace DirWatch.Document

/-- One step into a document: to the value of a name, or to an item counted from the beginning or,
if the position is negative, from the end. -/
inductive Step where
  | name (s : String)
  | item (position : Int)
  deriving DecidableEq

/-- A path into a document. -/
abbrev KeyPath := List Step

namespace KeyPath

def isNameChar (c : Char) : Bool := c.isAlphanum || c == ' ' || c == '_' || c == '-'

def isSpace (c : Char) : Bool := c == ' ' || c == '\t'

/-- The position between brackets, spaces around it apart. -/
def position? (cs : List Char) : Option Int :=
  match cs.dropWhile isSpace with
  | '-' :: rest => (magnitude? rest).bind (Number.int64? true)
  | rest => (magnitude? rest).bind (Number.int64? false)
where
  magnitude? (cs : List Char) : Option Nat :=
    if (cs.dropWhile Char.isDigit).all isSpace then Number.natural? (cs.takeWhile Char.isDigit)
    else none

/-- Reads at most `room` steps after the first. -/
def steps? (room : Nat) (cs : List Char) : Option KeyPath :=
  match room, cs with
  | _, [] => some []
  | room + 1, '.' :: rest =>
    match rest.takeWhile isNameChar with
    | [] => none
    | name => (steps? room (rest.dropWhile isNameChar)).map (.name (String.ofList name) :: ·)
  | room + 1, '[' :: rest => do
    let position ← position? (rest.takeWhile (· != ']'))
    match rest.dropWhile (· != ']') with
    | [] => none
    | _ :: rest => return .item position :: (← steps? room rest)
  | _, _ => none

/-- Reads a key: names with points between them, each perhaps with positions in brackets. -/
def read? (key : String) : Option KeyPath :=
  match key.toList.takeWhile isNameChar with
  | [] => none
  | name =>
    (steps? key.length (key.toList.dropWhile isNameChar)).map (.name (String.ofList name) :: ·)

/-- The path that a key in lower case stands for; a key that is not a path is a name as a whole. -/
def ofKey (key : String) : KeyPath :=
  let key := Text.lower key
  (read? key).getD [.name key]

end KeyPath

namespace Value

mutual

/-- Lays a value over another one: a table is merged, any other value takes the place. -/
def overlay (base : Value) : Value → Value
  | table es => overlayEntries base es
  | v => v

/-- Lays entries over a value one by one. -/
def overlayEntries (base : Value) : List (String × Value) → Value
  | [] => base
  | (key, v) :: rest =>
    let key := Text.lower key
    let below := base.entries
    overlayEntries (.table (put key (overlay ((find? key below).getD (.table [])) v) below)) rest

end

/-- The items of a list; no other value has any. -/
def items : Value → List Value
  | list vs => vs
  | _ => []

/-- The index that a position stands for in a list of some length. -/
def index? (position : Int) (length : Nat) : Option Nat :=
  if 0 ≤ position then some position.toNat
  else if position.natAbs ≤ length then some (length - position.natAbs)
  else none

/-- Puts a value at an index, with nulls before it if the list is too short. -/
def setItem (i : Nat) (v : Value) (items : List Value) : List Value :=
  (items ++ List.replicate (i + 1 - items.length) null).set i v

/-- Stores a value at a path. What stands in the way becomes a table or a list. -/
def store (base : Value) (path : KeyPath) (v : Value) : Value :=
  match path with
  | [] => v
  | [.name s] =>
    let key := Text.lower s
    .table (put key (overlay ((find? key base.entries).getD (.table [])) v) base.entries)
  | .name s :: path =>
    let key := Text.lower s
    .table (put key (((find? key base.entries).getD .null).store path v) base.entries)
  | .item position :: path =>
    match index? position base.items.length with
    | none => base
    | some i => .list (setItem i ((base.items.getD i .null).store path v) base.items)

/-- Lays a layer over a document, every key of the layer a path. -/
def layer (base : Value) (entries : List (String × Value)) : Value :=
  entries.foldl (fun base e => base.store (KeyPath.ofKey e.1) e.2) base

end Value

end DirWatch.Document
