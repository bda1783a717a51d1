import DirWatch.Document.Overlay

/-! # Settings in the environment

A variable whose name starts with `TREEWATCH_`, in any case, stores a value at the key that the rest
of its name spells, where two underscores stand for a point. -/

namespace DirWatch

open Document

/-- A variable of the environment. -/
structure Variable where
  name : String
  value : String

namespace Variable

/-- The beginning of the names that count, in lower case. -/
def start : String := "treewatch_"

/-- The keys whose values are lists, written with commas between the items. -/
def listKeys : List String := ["watcher.exclude_patterns", "watcher.excluded_dirs"]

/-- Writes a point for every two underscores. -/
def pointed : List Char → List Char
  | '_' :: '_' :: rest => '.' :: pointed rest
  | c :: rest => c :: pointed rest
  | [] => []

/-- The key that a name spells, if the name counts. -/
def key? (name : String) : Option String :=
  let cs := (Text.lower name).toList
  if start.toList.isPrefixOf cs then
    some (String.ofList (pointed (cs.drop start.length)))
  else none

/-- A text that spells a truth value in any case, an integer or a number. -/
def scalar? (s : String) : Option Value :=
  let word := Text.lower s
  if word = "true" then some (.flag true)
  else if word = "false" then some (.flag false)
  else ((Number.readInt64? s.toList).map .integer)
    <|> ((Number.readBinary64? s.toList).map .number)

/-- The items of a text with commas between them. -/
def splitItems (s : String) : List Value :=
  (s.toList.splitOn ',').map fun cs => .text (String.ofList cs)

/-- What a variable stores at a key: what its text spells, or else a list or a text. -/
def valueAt (key s : String) : Value :=
  match scalar? s with
  | some v => v
  | none => if key ∈ listKeys then .list (splitItems s) else .text s

/-- The entries that the variables of an environment store. -/
def entries (environment : List Variable) : List (String × Value) :=
  environment.filterMap fun v => (key? v.name).map fun key => (key, valueAt key v.value)

end Variable

end DirWatch
