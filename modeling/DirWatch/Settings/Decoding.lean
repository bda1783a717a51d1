import DirWatch.Document.Value
import DirWatch.Settings.Basic
import DirWatch.Text.Case

/-! # Settings in documents

How the settings are taken from a document: by name from a table, or in order from a list. What is
missing keeps its default, and unknown names do not count. -/

namespace DirWatch

open Document

/-- How values are taken for the types of the settings. -/
structure Conversion where
  word? : Value → Option UInt64
  flag? : Value → Option Bool
  text? : Value → Option String
  entries? : Value → Option (List (String × Value))

namespace Conversion

/-- Takes a value only for its own type. A date or time is a table without known names. -/
def exact : Conversion where
  word? | .integer i => if 0 ≤ i then some (.ofNat i.toNat) else none
        | _ => none
  flag? | .flag b => some b
        | _ => none
  text? | .text s => some s
        | _ => none
  entries? | .table es => some es
           | .moment _ => some []
           | _ => none

/-- The words for yes and no, in any case. -/
def flagOfWord? (s : String) : Option Bool :=
  let word := Text.lower s
  if word ∈ ["true", "on", "yes"] then some true
  else if word ∈ ["false", "off", "no"] then some false
  else none

/-- Converts between truth values, numbers and texts where the value allows it. -/
def lenient : Conversion where
  word? | .integer i => if 0 ≤ i then some (.ofNat i.toNat) else none
        | .number x => some x.toUInt64
        | .flag b => some (if b then 1 else 0)
        | .text s =>
          match flagOfWord? s with
          | some b => some (if b then 1 else 0)
          | none => Number.readUInt64? s.toList
        | .moment _ | .null | .list _ | .table _ => none
  flag? | .flag b => some b
        | .integer i => some (i != 0)
        | .number x => some x.isNonzero
        | .text s =>
          match flagOfWord? s with
          | some b => some b
          | none => if s = "1" then some true else if s = "0" then some false else none
        | .moment _ | .null | .list _ | .table _ => none
  text? | .text s => some s
        | .flag b => some (if b then "true" else "false")
        | .integer i => some (toString i)
        | .number x => some x.text
        | .moment m => some m.text
        | .null | .list _ | .table _ => none
  entries? | .table es => some es
           | _ => none

/-- Takes a list of texts. -/
def texts? (c : Conversion) : Value → Option (List String)
  | .list items => items.mapM c.text?
  | _ => none

/-- Takes a path that may be left open. -/
def path? (c : Conversion) : Value → Option (Option Path)
  | .null => some none
  | v => (c.text? v).map fun s => some (.ofString s)

end Conversion

namespace Settings

/-- The names of the settings, in their order. -/
def names : List String :=
  ["root", "exclude_patterns", "excluded_dirs", "coalesce_timeout_ms", "max_coalesce_delay_ms",
    "shutdown_grace_ms", "backend", "poll_interval_ms", "polling_fallback", "event_queue_capacity"]

/-- Takes a value by its name; one that is missing is replaced. -/
def taken? {α : Type} (entries : List (String × Value)) (name : String) (missing : α)
    (take? : Value → Option α) : Option α :=
  match Value.find? name entries with
  | none => some missing
  | some v => take? v

/-- The settings of a table. -/
def ofEntries? (c : Conversion) (es : List (String × Value)) : Option Settings := do
  let d : Settings := {}
  return {
    root := ← taken? es "root" d.root c.path?
    excludePatterns := ← taken? es "exclude_patterns" d.excludePatterns c.texts?
    excludedNames := ← taken? es "excluded_dirs" d.excludedNames c.texts?
    coalesceTimeout := ← taken? es "coalesce_timeout_ms" d.coalesceTimeout c.word?
    maxCoalesceDelay := ← taken? es "max_coalesce_delay_ms" d.maxCoalesceDelay c.word?
    shutdownGrace := ← taken? es "shutdown_grace_ms" d.shutdownGrace c.word?
    backend := ← taken? es "backend" d.backend c.text?
    pollInterval := ← taken? es "poll_interval_ms" d.pollInterval c.word?
    pollingFallback := ← taken? es "polling_fallback" d.pollingFallback c.flag?
    queueCapacity := ← taken? es "event_queue_capacity" d.queueCapacity c.word? }

/-- The settings that a value holds: a table of them, or a list of them in order. -/
def ofValue? (c : Conversion) : Value → Option Settings
  | .list items => ofEntries? c (names.zip items)
  | v => (c.entries? v).bind (ofEntries? c)

/-- The settings of a document, which stand in its table `watcher`. -/
def ofDocument? (c : Conversion) (document : Value) : Option Settings :=
  taken? document.entries "watcher" {} (ofValue? c)

end Settings

end DirWatch
