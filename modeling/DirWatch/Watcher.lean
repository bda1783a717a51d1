import DirWatch.Machine.Platform
import DirWatch.Walk
import DirWatch.Worker.Run

/-! # Watchers

A watcher reports the changes of one directory tree. It is started once: the initial walk registers
every observed directory without a report, and from then on a worker does the work, until the
watcher is shut down or its watch service fails. -/

namespace DirWatch

variable {σ : Type}

/-- Registers the directories that a walk yields, each before the walk goes on; one that cannot be
registered is left out. Unless the root is registered in the end, or if a failure is fatal, no
directory stays registered. -/
def Registry.registerTree (host : Host σ) :
    Traversal σ → Registry σ → Except Error Unit × Registry σ
  | .finished machine, r =>
    let r := { r with machine }
    if r.contains r.root then (.ok (), r)
    else (.error (.watcher ("Failed to watch root " ++ r.root.quoted)), (r.cancelAll host).2)
  | .yielded v machine resume, r =>
    match { r with machine }.register host v.path with
    | (.ok _, r) => registerTree host (resume r.machine) r
    | (.error e, r) =>
      if e.isFatal then (.error e, (r.cancelAll host).2)
      else registerTree host (resume r.machine) r

/-- Where a watcher stands in its life. -/
inductive WatcherState (σ : Type) where
  | idle (machine : σ) (journal : List Action)
  | running (worker : Worker σ)
  | stopped (machine : σ) (journal : List Action)

/-- The state that a registry leaves behind. -/
def WatcherState.left (r : Registry σ) : WatcherState σ := .stopped r.machine r.journal

/-- A watcher of one directory tree. -/
structure Watcher (σ : Type) where
  root : Path
  config : EngineConfig
  filter : Filter
  state : WatcherState σ

namespace Watcher

/-- A watcher with a filter of its own. The root has to lead to a directory. -/
def withFilter (platform : Platform σ) (root : Path) (config : EngineConfig) (filter : Filter)
    (machine : σ) : Except Error (Watcher σ) :=
  match config.validate with
  | .error e => .error e
  | .ok () =>
    match platform.canonical root machine with
    | (.error failure, _) =>
      .error (.config
        ("Watch root " ++ root.quoted ++ " is not accessible: " ++ failure.message))
    | (.ok root, machine) =>
      match platform.target root machine with
      | (.ok m, machine) =>
        if m.isDirectory then .ok { root, config, filter, state := .idle machine [] }
        else .error (.config ("Watch root " ++ root.quoted ++ " is not a directory"))
      | (.error _, _) => .error (.config ("Watch root " ++ root.quoted ++ " is not a directory"))

/-- A watcher that excludes what its configuration names. -/
def new (platform : Platform σ) (root : Path) (config : EngineConfig) (machine : σ) :
    Except Error (Watcher σ) :=
  match config.filter with
  | .error e => .error (.config ("Invalid exclude pattern: " ++ e.message))
  | .ok filter => withFilter platform root config filter machine

/-- Whether the worker is alive. -/
def isRunning (w : Watcher σ) : Bool :=
  match w.state with
  | .running worker => worker.isRunning
  | _ => false

def machine (w : Watcher σ) : σ :=
  match w.state with
  | .idle m _ | .stopped m _ => m
  | .running worker => worker.registry.machine

/-- What the watcher has done so far. -/
def journal (w : Watcher σ) : List Action :=
  match w.state with
  | .idle _ j | .stopped _ j => j
  | .running worker => worker.registry.journal

/-- Changes the machine from outside. -/
def mapMachine (f : σ → σ) (w : Watcher σ) : Watcher σ :=
  { w with state := match w.state with
    | .idle m j => .idle (f m) j
    | .stopped m j => .stopped (f m) j
    | .running worker =>
      let registry := { worker.engine.registry with machine := f worker.registry.machine }
      .running { worker with engine := { worker.engine with registry } } }

/-- The walk that finds the directories to register. -/
def initialWalk (w : Watcher σ) : Walk where
  root := w.root
  filter := w.filter
  directoriesOnly := true
  includeRoot := true

/-- Starts watching. A watcher that is running or was shut down cannot be started, and a start that
fails leaves it idle. -/
def start (platform : Platform σ) (w : Watcher σ) : Except Error Unit × Watcher σ :=
  match w.state with
  | .running _ => (.error (.invalidInput "Watcher is already started"), w)
  | .stopped .. => (.error (.invalidInput "Watcher was shut down"), w)
  | .idle machine journal =>
    match platform.openService w.config machine with
    | (.error e, machine) => (.error e, { w with state := .idle machine journal })
    | (.ok backend, machine) =>
      let registry : Registry σ := { root := w.root, filter := w.filter, machine, journal }
      let walk := w.initialWalk.traverse platform.toHost machine
      match registry.registerTree platform.toHost walk with
      | (.error e, r) => (.error e, { w with state := .idle r.machine r.journal })
      | (.ok (), r) =>
        let queue := EventQueue.new w.config.queueCapacity.toNat
        let worker := Worker.start (r.record (.notified (.started w.root))) queue backend w.config
        (.ok (), { w with state := .running (worker.run platform.toHost).2 })

/-- Stops watching; it can be done at any time. A worker that ends after some duration, within the
grace period, hands its registry back, and every watch is given up. One that takes longer is
aborted as soon as the step that it is in is over, and like one that has broken off it hands
nothing back. -/
def shutdownAfter (platform : Platform σ) (w : Watcher σ) (duration : Nat) : Watcher σ :=
  { w with state := match w.state with
    | .idle m j | .stopped m j => .stopped m j
    | .running worker =>
      if worker.isRunning && w.config.shutdownGrace.toNat < duration then
        .left (worker.step platform.toHost).2.registry
      else
        let ended := ({ worker with isCancelled := true }.run platform.toHost).2
        if ended.isBroken then .left ended.registry
        else .left (ended.registry.cancelAll platform.toHost).2 }

/-- Stops watching, with a worker that ends at once. -/
def shutdown (platform : Platform σ) (w : Watcher σ) : Watcher σ := w.shutdownAfter platform 0

/-- Puts a question to the worker. -/
def ask (platform : Platform σ) (w : Watcher σ) (c : Command) :
    Except Error Reply × Watcher σ :=
  match w.state with
  | .running worker =>
    let (reply, worker) := worker.ask platform.toHost c
    let w := { w with state := .running worker }
    match reply with
    | some reply => (.ok reply, w)
    | none => (.error (.watcher "Watcher worker has stopped"), w)
  | _ => (.error (.watcher "Watcher is not running"), w)

/-- The watcher for diagnostics. -/
def describe (w : Watcher σ) : String :=
  "FileTreeWatcher \x7b root: " ++ w.root.quoted ++ ", config: " ++ w.config.describe
    ++ ", filter: " ++ w.filter.describe ++ ", running: " ++ toString w.isRunning ++ " \x7d"

end Watcher

end DirWatch
