import DirWatch.Registry

/-! # The state of the engine

The engine owns the registry, counts what it reports, and remembers which registered directories
have lost their watch. -/

namespace DirWatch

/-- How many changes were reported, and how many directories were compared. -/
structure Counters where
  totals : Totals := {}
  diffed : UInt64 := 0
  deriving DecidableEq

/-- The state of the engine. -/
structure Engine (σ : Type) where
  registry : Registry σ
  counters : Counters := {}
  /-- Registered directories whose watch is known to be gone. -/
  stale : OrderedMap Path Unit := ∅

namespace Engine

variable {σ : Type}

/-- Notes that the watch of a directory was dropped; only registered directories count. -/
def markStale (s : Engine σ) (dir : Path) : Engine σ :=
  if s.registry.contains dir then { s with stale := s.stale.insert dir () } else s

/-- Forgets that the watch of a directory was dropped. -/
def unmark (s : Engine σ) (dir : Path) : Engine σ := { s with stale := s.stale.erase dir }

/-- Reports a change of an entry. What lies outside the root is not reported. -/
def emit (kind : ChangeKind) (path : Path) (isDirectory : Bool) (s : Engine σ) : Engine σ :=
  match s.registry.relative? path with
  | none => s
  | some relative =>
    { s with
      registry := s.registry.record (.notified (.changed ⟨kind, relative, isDirectory⟩))
      counters := { s.counters with totals := s.counters.totals.add kind } }

/-- Reports every item of a directory. -/
def emitItems (kind : ChangeKind) (dir : Path) (items : List (Name × Item)) (s : Engine σ) :
    Engine σ :=
  items.foldl (fun s e => s.emit kind (dir.child e.1) e.2.isDirectory) s

@[simp] theorem emit_directories (kind : ChangeKind) (path : Path) (isDirectory : Bool)
    (s : Engine σ) :
    (s.emit kind path isDirectory).registry.directories = s.registry.directories := by
  unfold emit
  split <;> rfl

@[simp] theorem emitItems_directories (kind : ChangeKind) (dir : Path)
    (items : List (Name × Item)) (s : Engine σ) :
    (s.emitItems kind dir items).registry.directories = s.registry.directories := by
  unfold emitItems
  induction items generalizing s with
  | nil => rfl
  | cons e rest ih => rw [List.foldl_cons, ih, emit_directories]

end Engine

/-- Runs a step on each item in turn until one fails. -/
def inTurn {α σ ε : Type} (step : α → σ → Except ε Unit × σ) : List α → σ → Except ε Unit × σ
  | [], s => (.ok (), s)
  | a :: rest, s =>
    match step a s with
    | (.ok (), s) => inTurn step rest s
    | failed => failed

end DirWatch
