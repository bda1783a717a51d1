import DirWatch.FileTree.Reports
import DirWatch.Host
import DirWatch.Settings.Engine

/-! # Watch services

The platform has two services. The native one keeps one watch for each node, whatever path it was
reached by, and needs a descriptor; the polling one looks at every watched path at intervals. If the
native one cannot be had, the polling one may take its place. A native service gives up the paths of
entries that it sees leave their directory. -/

namespace DirWatch

/-- A watch service that is open. -/
inductive ServiceKind where
  | native
  | poll (interval : UInt64)
  deriving DecidableEq

def ServiceKind.backend : ServiceKind → Backend
  | native => .native
  | poll _ => .poll

/-- A native watch: the node, the number of the watch and the path that its reports are about. -/
structure NativeWatch where
  node : Option Identity
  number : Nat
  path : Path

/-- A watch service with the paths it watches and the numbers of their watches. A node that is
watched natively has a single watch, and another one when it is watched anew. -/
structure WatchService where
  kind : ServiceKind
  watches : OrderedMap Path Nat := ∅
  live : List NativeWatch := []
  next : Nat := 1

namespace WatchService

/-- Opens the configured service. -/
def «open» (config : EngineConfig) (descriptors : Bool) : Except Error WatchService :=
  match config.backend with
  | .poll => .ok { kind := .poll config.pollInterval }
  | .native =>
    if descriptors then .ok { kind := .native }
    else if config.pollingFallback then .ok { kind := .poll config.pollInterval }
    else .error (.watchService
      ("Failed to create native watcher: " ++ IoFailure.tooManyOpenFiles.message))

/-- The error of a service about a path. -/
def failureOn (p : Path) (failure : IoFailure) : Error :=
  if failure.kind = .notFound then .pathVanished p
  else .watcher ("Failed to watch " ++ p.quoted ++ ": " ++ failure.message ++ " about "
    ++ Text.bracketed "[" "]" [p.quoted])

/-- Watches a node natively by a path. The watch is new unless the node is watched already. -/
def attach (s : WatchService) (p : Path) (node : Option Identity) : WatchService :=
  match s.live.find? fun w => w.node = node with
  | some w =>
    { s with
      watches := s.watches.insert p w.number
      live := { w with path := p } :: s.live.filter fun other => other.number ≠ w.number }
  | none =>
    { s with
      watches := s.watches.insert p s.next
      live := ⟨node, s.next, p⟩ :: s.live
      next := s.next + 1 }

/-- Watches a path that leads to a node, or fails to. Watching twice is one watch, and polling
passes over a path that leads nowhere. -/
def watch (s : WatchService) (p : Path) (found : Except IoFailure (Option Identity)) :
    Except Error Unit × WatchService :=
  match s.kind, found with
  | .native, .ok node => (.ok (), s.attach p node)
  | .native, .error failure => (.error (failureOn p failure), s)
  | .poll _, .ok _ => (.ok (), { s with watches := s.watches.insert p 0 })
  | .poll _, .error _ => (.ok (), s)

/-- Whether a native watch is in force. -/
def isLive (s : WatchService) (number : Nat) : Bool := s.live.any fun w => w.number = number

/-- Drops a path together with its watch. -/
def drop (s : WatchService) (p : Path) (number : Nat) : WatchService :=
  { s with
    watches := s.watches.erase p
    live := s.live.filter fun w => w.number ≠ number }

/-- Ends the watch of a path. The native watch of a node ends for all paths that lead to it. -/
def unwatch (s : WatchService) (p : Path) : Except Error Unit × WatchService :=
  match s.watches.get? p with
  | none => (.error (.pathVanished p), s)
  | some number =>
    if s.kind = .native && !s.isLive number then
      (.error (failureOn p .invalidArgument), s.drop p number)
    else (.ok (), s.drop p number)

/-- Gives up a path that has lost its node and, with its watch, the watches below it. -/
def giveUp (s : WatchService) (p : Path) : WatchService :=
  match s.watches.get? p with
  | none => s
  | some number =>
    if !s.isLive number then { s with watches := s.watches.erase p }
    else
      let s := s.drop p number
      (s.live.filter fun w => w.path.startsWith p).foldl (fun s w => s.drop w.path w.number) s

/-- Takes note of a report about a node that is watched natively. -/
def hear (s : WatchService) : Report → WatchService
  | .departed directory n =>
    match s.live.find? fun w => w.node = some directory with
    | some w => s.giveUp (w.path.child n)
    | none => s
  | .ended node =>
    match s.live.find? fun w => w.node = some node with
    | some w =>
      { s with live := s.live.filter fun other => other.number ≠ w.number }.giveUp w.path
    | none => s

end WatchService

end DirWatch
