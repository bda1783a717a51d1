import DirWatch.Engine.Pass
import DirWatch.EventQueue
import DirWatch.PendingSet
import DirWatch.Settings.Engine

/-! # The worker

The worker owns the engine and the pending set. It turns native events into pending directories,
passes over them once activity has settled, and answers questions. -/

namespace DirWatch

/-- What a running watcher tells about itself. -/
structure Stats where
  backend : Backend
  watchedDirectories : Nat
  trackedEntries : Nat
  pendingDirectories : Nat
  notifications : UInt64
  overflows : UInt64
  flushes : UInt64
  counters : Counters
  deriving DecidableEq

/-- A tracked entry, named by its path relative to the root. -/
structure SnapshotEntry where
  path : Path
  isDirectory : Bool
  modified : Option Timestamp
  deriving DecidableEq

/-- What a worker can be asked for. -/
inductive Command where
  | stats
  | snapshot
  | rescan
  deriving DecidableEq

/-- What a worker answers. -/
inductive Reply where
  | stats (s : Stats)
  | snapshot (entries : List SnapshotEntry)
  | rescanned
  deriving DecidableEq

/-- The worker of a watcher, with the questions and the events that wait for it. -/
structure Worker (σ : Type) where
  engine : Engine σ
  queue : EventQueue
  backend : Backend
  /-- Quiet time before the pending set is due. -/
  idle : Nat
  /-- Longest time that a pending directory waits. -/
  longest : Nat
  pending : PendingSet := {}
  commands : List Command := []
  now : Instant := 0
  isCancelled : Bool := false
  isRunning : Bool := true
  /-- Whether the worker has broken off, and so has ended without handing its registry back. -/
  isBroken : Bool := false
  /-- Whether the worker is blocked on the empty queue. -/
  isBlocked : Bool := false
  notifications : UInt64 := 0
  overflows : UInt64 := 0
  flushes : UInt64 := 0

namespace Worker

variable {σ : Type}

/-- A worker over a registry, with the queue of its watch service. -/
def start (registry : Registry σ) (queue : EventQueue) (backend : Backend)
    (config : EngineConfig) : Worker σ where
  engine := { registry }
  queue
  backend
  idle := config.coalesceTimeout.toNat
  longest := config.longestDelay.toNat

def registry (w : Worker σ) : Registry σ := w.engine.registry

/-- When the pending set is due. -/
def deadline (w : Worker σ) : Option Instant := w.pending.deadline w.idle w.longest

/-- Whether the pending set is due now. -/
def isDue (w : Worker σ) : Bool := w.deadline.any (· ≤ w.now)

/-- Marks a directory. -/
def mark (w : Worker σ) (dir : Path) : Worker σ :=
  { w with pending := (w.pending.insert w.now dir).2 }

/-- Marks what activity at a path concerns: the directory that lists it, and the path itself if it
is a registered directory. -/
def markChanged (w : Worker σ) (p : Path) : Worker σ :=
  let parent := p.parent?.filter w.registry.contains
  let w := parent.elim w w.mark
  if w.registry.contains p then w.mark p else w

/-- Notes that a path was removed, and marks what that concerns. -/
def markRemoved (w : Worker σ) (p : Path) : Worker σ :=
  { w with engine := w.engine.markStale p }.markChanged p

/-- Marks every registered directory. -/
def markAll (w : Worker σ) : Worker σ := w.registry.paths.foldl mark w

/-- Takes a native event over. -/
def handle (w : Worker σ) : NativeEvent → Except Error Unit × Worker σ
  | .changed paths =>
    (.ok (), paths.foldl markChanged { w with notifications := w.notifications + 1 })
  | .removed paths =>
    (.ok (), paths.foldl markRemoved { w with notifications := w.notifications + 1 })
  | .overflow => (.ok (), { w with overflows := w.overflows + 1 }.markAll)
  | .failed message => (.error (.watchService message), w)

/-- Passes over every pending directory, in the order of their marks. -/
def flush (host : Host σ) (w : Worker σ) : Except Error Unit × Worker σ :=
  let (batch, pending) := w.pending.take
  if batch.isEmpty then (.ok (), { w with pending })
  else
    let (result, engine) := inTurn (Engine.diff host) batch w.engine
    (result, { w with pending, engine, flushes := w.flushes + 1 })

def stats (w : Worker σ) : Stats where
  backend := w.backend
  watchedDirectories := w.registry.size
  trackedEntries := w.registry.trackedEntries
  pendingDirectories := w.pending.size
  notifications := w.notifications
  overflows := w.overflows
  flushes := w.flushes
  counters := w.engine.counters

/-- The tracked entries in path order. -/
def snapshot (w : Worker σ) : List SnapshotEntry :=
  let entries := w.registry.directories.entries.flatMap fun (dir, d) =>
    d.items.entries.filterMap fun (n, i) =>
      (w.registry.relative? (dir.child n)).map fun p => ⟨p, i.isDirectory, i.modified⟩
  entries.mergeSort fun a b => (compare a.path b.path).isLE

/-- Answers a question. A rescan is answered once its passes are over, also when one of them
failed. -/
def answer (host : Host σ) (w : Worker σ) : Command → Reply × Except Error Unit × Worker σ
  | .stats => (.stats w.stats, .ok (), w)
  | .snapshot => (.snapshot w.snapshot, .ok (), w)
  | .rescan => (.rescanned, w.markAll.flush host)

/-- Ends after a failure, of which the listener is told. -/
def conclude (result : Except Error Unit) (w : Worker σ) : Worker σ :=
  match result with
  | .ok () => w
  | .error e =>
    let told := w.registry.record (.notified (.failed w.registry.root e))
    { w with isRunning := false, engine := { w.engine with registry := told } }

/-- Breaks off in the middle of a step, of which the machine has seen and the journal holds some
part. -/
def breakOff (machine : σ) (journal : List Action) (w : Worker σ) : Worker σ :=
  { w with
    isRunning := false
    isBroken := true
    engine := { w.engine with registry := { w.engine.registry with machine, journal } } }

/-! ## What the operations leave alone -/

/-- What waits for a worker is not touched by its own work. -/
def SameInput (w w' : Worker σ) : Prop :=
  w'.queue = w.queue ∧ w'.commands = w.commands ∧ w'.isRunning = w.isRunning

namespace SameInput

theorem refl (w : Worker σ) : SameInput w w := ⟨rfl, rfl, rfl⟩

theorem trans {u v w : Worker σ} (h : SameInput u v) (h' : SameInput v w) : SameInput u w :=
  ⟨h'.1.trans h.1, h'.2.1.trans h.2.1, h'.2.2.trans h.2.2⟩

theorem foldl {α : Type} {f : Worker σ → α → Worker σ} (h : ∀ w a, SameInput w (f w a))
    (l : List α) (w : Worker σ) : SameInput w (l.foldl f w) := by
  induction l generalizing w with
  | nil => exact refl w
  | cons a l ih => exact (h w a).trans (ih _)

theorem mark (w : Worker σ) (dir : Path) : SameInput w (w.mark dir) := ⟨rfl, rfl, rfl⟩

theorem markChanged (w : Worker σ) (p : Path) : SameInput w (w.markChanged p) := by
  unfold Worker.markChanged
  generalize p.parent?.filter w.registry.contains = parent
  have h : SameInput w (parent.elim w w.mark) := by
    cases parent
    · exact refl w
    · exact mark w _
  dsimp only
  split
  · exact h.trans (mark _ p)
  · exact h

theorem markRemoved (w : Worker σ) (p : Path) : SameInput w (w.markRemoved p) :=
  trans ⟨rfl, rfl, rfl⟩ (markChanged _ p)

theorem markAll (w : Worker σ) : SameInput w w.markAll := foldl mark _ w

theorem handle (w : Worker σ) (e : NativeEvent) : SameInput w (w.handle e).2 := by
  cases e with
  | changed paths => exact trans ⟨rfl, rfl, rfl⟩ (foldl markChanged paths _)
  | removed paths => exact trans ⟨rfl, rfl, rfl⟩ (foldl markRemoved paths _)
  | overflow => exact trans ⟨rfl, rfl, rfl⟩ (markAll _)
  | failed => exact refl w

theorem flush (host : Host σ) (w : Worker σ) : SameInput w (w.flush host).2 := by
  unfold Worker.flush
  dsimp only
  split <;> exact ⟨rfl, rfl, rfl⟩

theorem answer (host : Host σ) (w : Worker σ) (c : Command) :
    SameInput w (w.answer host c).2.2 := by
  cases c with
  | stats | snapshot => exact refl w
  | rescan => exact (markAll w).trans (flush host _)

end SameInput

/-- After a flush nothing is pending. -/
theorem pending_flush (host : Host σ) (w : Worker σ) : (w.flush host).2.pending = {} := by
  unfold flush
  dsimp only
  split <;> rfl

end Worker

end DirWatch
