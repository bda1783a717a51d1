import DirWatch.FileTree.Editing
import DirWatch.FileTree.Reading
import DirWatch.WatchService

/-! # A machine with the services of the platform

A file tree, the watch service that is open, and whether there are descriptors left for a native
service and for reading directories. -/

namespace DirWatch

/-- A machine in states `σ` that can open watch services. -/
structure Platform (σ : Type) extends Host σ where
  openService : EngineConfig → σ → Except Error Backend × σ

/-- A machine with a file tree and a watch service. -/
structure Machine where
  tree : FileTree := {}
  service : Option WatchService := none
  descriptors : Bool := true

namespace Machine

/-- What a native watch on a path would be placed on: the node has to be readable. -/
def nativeTarget (m : Machine) (p : Path) : Except IoFailure (Option Identity) :=
  if p.holdsNul then .error .nulInText
  else match m.tree.node .target p with
    | .error failure => .error failure
    | .ok node =>
      if Right.read.isGiven node.mode then .ok node.identity
      else .error .permissionDenied

/-- What a watch on a path would be placed on. -/
def watchTarget (m : Machine) (p : Path) : ServiceKind → Except IoFailure (Option Identity)
  | .native => m.nativeTarget p
  | .poll _ => Node.identity <$> m.tree.node .target p

def watch (p : Path) (m : Machine) : Except Error Unit × Machine :=
  match m.service with
  | none => (.error (.watchService "No watch service"), m)
  | some s =>
    let (result, s) := s.watch p (m.watchTarget p s.kind)
    (result, { m with service := some s })

def unwatch (p : Path) (m : Machine) : Except Error Unit × Machine :=
  match m.service with
  | none => (.error (.pathVanished p), m)
  | some s =>
    let (result, s) := s.unwatch p
    (result, { m with service := some s })

/-- Changes the tree from outside; a native watch service hears of it. -/
def edit (change : FileTree → Except IoFailure Unit × FileTree) (m : Machine) :
    Except IoFailure Unit × Machine :=
  let (result, tree) := change m.tree
  (result, { m with
    tree
    service := m.service.map fun s => (m.tree.reports tree).foldl WatchService.hear s })

def readDirectory (p : Path) (m : Machine) : Except IoFailure (List DirectoryEntry) × Machine :=
  (if m.descriptors then m.tree.readDirectory p else .error .tooManyOpenFiles, m)

def openService (config : EngineConfig) (m : Machine) : Except Error Backend × Machine :=
  match WatchService.open config m.descriptors with
  | .error e => (.error e, m)
  | .ok s => (.ok s.kind.backend, { m with service := some s })

/-- The machine as a platform. -/
def platform : Platform Machine where
  metadata p m := (m.tree.metadata p, m)
  target p m := (m.tree.target p, m)
  canonical p m := (m.tree.canonical p, m)
  readDirectory := readDirectory
  watch := watch
  unwatch := unwatch
  openService := openService

end Machine

end DirWatch
