import DirWatch.Document.Toml.Statement

/-! # Assembling tables

Statements put together into one table. Every value is stored once; a table is opened by a header
once, and only if nothing but the way to another table has made it before; dotted keys reach only
tables that dotted keys have made. -/

namespace DirWatch.Document.Toml

/-- What made a table: a header of its own, the way to a table further in, or a dotted key. -/
inductive Origin where
  | header
  | passage
  | dotted
  deriving DecidableEq

/-- What a name stands for while a document is put together. -/
inductive Node where
  | value (v : Value)
  | table (origin : Origin) (entries : List (String × Node))
  | rows (rows : List (List (String × Node)))

/-- A table under construction. -/
abbrev Entries := List (String × Node)

namespace Entries

def find? (name : String) : Entries → Option Node
  | [] => none
  | (n, node) :: rest => if n = name then some node else find? name rest

def put (name : String) (node : Node) : Entries → Entries
  | [] => [(name, node)]
  | (n, old) :: rest => if n = name then (n, node) :: rest else (n, old) :: put name node rest

end Entries

/-- Changes the last row of a list of rows. -/
def changeLast (change : Entries → Option Entries) : List Entries → Option (List Entries)
  | [] => none
  | [last] => (change last).map ([·])
  | row :: rest => (changeLast change rest).map (row :: ·)

/-- Changes the table that a header names, counted from a table around it. A name on the way stands
for its table or its last row; a table that is missing is made. -/
def within (change : Entries → Option Entries) : Key → Entries → Option Entries
  | [], es => change es
  | name :: names, es =>
    match es.find? name with
    | none => (within change names []).map fun inner => es.put name (.table .passage inner)
    | some (.table origin inner) =>
      (within change names inner).map fun inner => es.put name (.table origin inner)
    | some (.rows rows) =>
      (changeLast (within change names) rows).map fun rows => es.put name (.rows rows)
    | some (.value _) => none

/-- Opens a table of this name. -/
def openTable (name : String) (es : Entries) : Option Entries :=
  match es.find? name with
  | none => some (es.put name (.table .header []))
  | some (.table .passage inner) => some (es.put name (.table .header inner))
  | some _ => none

/-- Opens another row of this name. -/
def openRow (name : String) (es : Entries) : Option Entries :=
  match es.find? name with
  | none => some (es.put name (.rows [[]]))
  | some (.rows rows) => some (es.put name (.rows (rows ++ [[]])))
  | some _ => none

/-- Stores a value at a key. A key of one name stores into the table at hand if that is allowed; on
the way of a longer key no table that a header has opened may stand. -/
def store (value : Value) (allowed : Bool) : Key → Entries → Option Entries
  | [], _ => none
  | [name], es =>
    if allowed && (es.find? name).isNone then some (es.put name (.value value)) else none
  | name :: names, es =>
    match es.find? name with
    | none => (store value true names []).map fun inner => es.put name (.table .dotted inner)
    | some (.table .dotted inner) =>
      (store value true names inner).map fun inner => es.put name (.table .dotted inner)
    | some (.table .passage inner) =>
      (store value false names inner).map fun inner => es.put name (.table .passage inner)
    | some (.table .header _) => none
    | some (.rows rows) =>
      (changeLast (store value false names) rows).map fun rows => es.put name (.rows rows)
    | some (.value _) => none

mutual

/-- The value that a name stands for. -/
def Node.finish : Node → Value
  | .value v => v
  | .table _ entries => .table (finishEntries entries)
  | .rows rows => .list (finishRows rows)

def finishEntries : List (String × Node) → List (String × Value)
  | [] => []
  | (name, node) :: rest => (name, node.finish) :: finishEntries rest

def finishRows : List (List (String × Node)) → List Value
  | [] => []
  | row :: rest => .table (finishEntries row) :: finishRows rest

end

mutual

/-- The value that was written, if its tables can be put together. -/
def Written.value? : Written → Option Value
  | .plain v => some v
  | .list items => (valuesOf? items).map .list
  | .table pairs => (entriesOf? [] pairs).map fun es => .table (finishEntries es)

def valuesOf? : List Written → Option (List Value)
  | [] => some []
  | w :: rest => do return (← w.value?) :: (← valuesOf? rest)

/-- The pairs of a table between braces, stored one after the other. -/
def entriesOf? (es : Entries) : List (Key × Written) → Option Entries
  | [] => some es
  | (key, w) :: rest => do entriesOf? (← store (← w.value?) true key es) rest

end

/-- A document of which some statements are read: the key of the table that is open, and all. -/
structure Assembly where
  here : Key := []
  entries : Entries := []

/-- Adds one statement. -/
def Assembly.add? (a : Assembly) : Statement → Option Assembly
  | .header key => do
    let name ← key.getLast?
    return ⟨key, ← within (openTable name) key.dropLast a.entries⟩
  | .row key => do
    let name ← key.getLast?
    return ⟨key, ← within (openRow name) key.dropLast a.entries⟩
  | .pair key written => do
    let value ← written.value?
    return { a with entries := ← within (store value true key) a.here a.entries }

/-- Reads a TOML document; a byte order mark may stand in front. -/
def read? (text : String) : Option Value := do
  let cs := match text.toList with
    | '\ufeff' :: rest => rest
    | cs => cs
  let statements ← statements? (cs.length + 1) cs
  let assembly ← statements.foldlM Assembly.add? {}
  return .table (finishEntries assembly.entries)

end DirWatch.Document.Toml
