import DirWatch.Error

/-! # The queue of native events

Raw notices of a watch service are reduced to events that say where something happened. The queue
between the service and the worker is bounded: what does not fit turns into one report of loss, and
the first failure is reported for ever. -/

namespace DirWatch

/-- How a file was opened or closed, as far as a notice tells. -/
inductive AccessMode where
  | any
  | execute
  | read
  | write
  | other
  deriving DecidableEq

/-- Which side of a renaming a notice is about. -/
inductive RenameSide where
  | any
  | to
  | source
  | both
  | other
  deriving DecidableEq

/-- What a notice says has happened, as far as it matters here. -/
inductive NoticeKind where
  | accessed
  | opened (mode : AccessMode)
  | closed (mode : AccessMode)
  | created
  | modified
  | renamed (side : RenameSide)
  | removed
  | other
  deriving DecidableEq

/-- What a watch service says about some paths; it may ask for everything to be read again. -/
structure Notice where
  kind : NoticeKind
  paths : List Path
  rescan : Bool := false
  deriving DecidableEq

/-- Why a watch service complains. -/
inductive ComplaintKind where
  | watchLimit
  | pathNotFound
  | watchNotFound
  | io (failure : IoFailure)
  | generic (message : String)
  deriving DecidableEq

/-- A complaint of a watch service about some paths. -/
structure Complaint where
  kind : ComplaintKind
  paths : List Path := []
  deriving DecidableEq

/-- The text of a complaint, with the paths it is about. -/
def Complaint.message (c : Complaint) : String :=
  let what := match c.kind with
    | .watchLimit => "OS file watch limit reached."
    | .pathNotFound => "No path was found."
    | .watchNotFound => "No watch was found."
    | .io failure => failure.message
    | .generic m => m
  if c.paths.isEmpty then what
  else what ++ " about " ++ Text.bracketed "[" "]" (c.paths.map (·.quoted))

/-- Something that happened, for the worker. -/
inductive NativeEvent where
  | changed (paths : List Path)
  | removed (paths : List Path)
  | overflow
  | failed (message : String)
  deriving DecidableEq

/-- Whether a notice says nothing about what directories hold: accesses, unless a written file was
closed. -/
def NoticeKind.isNoise : NoticeKind → Bool
  | accessed | opened _ => true
  | closed mode => mode != .write
  | _ => false

/-- Whether a notice says that paths are gone, or renamed away. -/
def NoticeKind.isRemoval : NoticeKind → Bool
  | removed | renamed .source | renamed .any => true
  | _ => false

/-- What a delivery asks of the queue. -/
inductive Signal where
  | ignore
  | event (paths : List Path) (removal : Bool)
  | loss
  | failure (message : String)
  deriving DecidableEq

/-- What a notice asks of the queue. -/
def Notice.signal (n : Notice) : Signal :=
  if n.rescan then .loss
  else if n.kind.isNoise || n.paths.isEmpty then .ignore
  else .event n.paths n.kind.isRemoval

/-- What a complaint asks of the queue: its paths are read again, and without paths it is a failure
unless it is about something that is gone. -/
def Complaint.signal (c : Complaint) : Signal :=
  match c.kind with
  | .watchLimit => .failure ("Watch limit reached: " ++ c.message)
  | kind =>
    if !c.paths.isEmpty then .event c.paths false
    else if kind == .pathNotFound || kind == .watchNotFound then .ignore
    else .failure ("Notify error: " ++ c.message)

/-- A place in the queue: an event, or a marker that wakes the consumer. -/
inductive QueueEntry where
  | event (paths : List Path) (removal : Bool)
  | marker
  deriving DecidableEq

/-- The bounded queue between a watch service and the worker. -/
structure EventQueue where
  capacity : Nat
  entries : List QueueEntry := []
  overflowed : Bool := false
  failure : Option String := none
  /-- How many producers are left. -/
  sinks : Nat := 1
  /-- Whether the consumer is still there. -/
  hasSource : Bool := true
  deriving DecidableEq

namespace EventQueue

/-- An empty queue with one producer; it has room for one entry at least. -/
def new (capacity : Nat) : EventQueue := { capacity := max capacity 1 }

def isFull (q : EventQueue) : Bool := q.capacity ≤ q.entries.length

/-- Puts a marker into the queue if there is room. -/
def wake (q : EventQueue) : EventQueue :=
  if q.isFull || !q.hasSource then q else { q with entries := q.entries ++ [.marker] }

/-- Notes that something was lost. -/
def lose (q : EventQueue) : EventQueue :=
  if q.overflowed then q else { q with overflowed := true }.wake

/-- Notes a failure; the first one stays. -/
def fail (q : EventQueue) (message : String) : EventQueue :=
  if q.failure.isSome then q else { q with failure := some message }.wake

/-- Takes what a delivery asks for. -/
def accept (q : EventQueue) : Signal → EventQueue
  | .ignore => q
  | .loss => q.lose
  | .failure message => q.fail message
  | .event paths removal =>
    if !q.hasSource then q
    else if q.isFull then q.lose
    else { q with entries := q.entries ++ [.event paths removal] }

def addSink (q : EventQueue) : EventQueue := { q with sinks := q.sinks + 1 }

def dropSink (q : EventQueue) : EventQueue := { q with sinks := q.sinks - 1 }

def dropSource (q : EventQueue) : EventQueue := { q with hasSource := false, entries := [] }

/-- What a consumer gets. -/
inductive Reception where
  | event (e : NativeEvent)
  | closed
  | blocked
  deriving DecidableEq

/-- Takes the first event of a queue, past markers. -/
def next : List QueueEntry → Option (NativeEvent × List QueueEntry)
  | [] => none
  | .marker :: rest => next rest
  | .event paths false :: rest => some (.changed paths, rest)
  | .event paths true :: rest => some (.removed paths, rest)

/-- Receives the next event whatever was noted beside the queue. The queue is closed when all
producers are gone and nothing is left in it. -/
def takeNext (q : EventQueue) : Reception × EventQueue :=
  match next q.entries with
  | some (e, rest) => (.event e, { q with entries := rest })
  | none => (if q.sinks = 0 then .closed else .blocked, { q with entries := [] })

/-- Receives from the queue: a failure first, then a loss, then the events in their order. -/
def receive (q : EventQueue) : Reception × EventQueue :=
  match q.failure with
  | some message => (.event (.failed message), q)
  | none =>
    if q.overflowed then (.event .overflow, { q with overflowed := false }) else q.takeNext

/-- Receives on behalf of a consumer that is blocked since the queue was empty: an event that wakes
it is received before failures and losses are looked at, a marker only wakes it. -/
def resume (q : EventQueue) : Reception × EventQueue :=
  match q.entries with
  | .marker :: rest => { q with entries := rest }.receive
  | _ => q.takeNext

end EventQueue

end DirWatch
