import DirWatch.Host
import DirWatch.Notification
import DirWatch.TrackedDirectory

/-! # The registry

The registered directories of one tree, each with one watch and with the items of its last listing.
The journal keeps, in order, what was asked of the machine and what the listener was told. -/

namespace DirWatch

/-- Something that the engine did. -/
inductive Action where
  | began (dir : Path)
  | listed (dir : Path) (result : Except Error (Listing Name))
  | watched (dir : Path) (result : Except Error Unit)
  | unwatched (dir : Path) (result : Except Error Unit)
  | notified (notification : Notification)

/-- The registered directories of a tree, and the machine that holds their watches. -/
structure Registry (σ : Type) where
  root : Path
  filter : Filter := {}
  directories : OrderedMap Path (TrackedDirectory Name) := ∅
  machine : σ
  journal : List Action := []

namespace Registry

variable {σ : Type}

/-- Writes an action down. -/
def record (r : Registry σ) (a : Action) : Registry σ := { r with journal := r.journal ++ [a] }

/-- A path as seen from the root. -/
def relative? (r : Registry σ) (p : Path) : Option Path := p.stripPrefix? r.root

def contains (r : Registry σ) (dir : Path) : Bool := r.directories.contains dir

def get? (r : Registry σ) (dir : Path) : Option (TrackedDirectory Name) := r.directories.get? dir

/-- The registered directories, a directory before those below it. -/
def paths (r : Registry σ) : List Path := r.directories.keys

def size (r : Registry σ) : Nat := r.directories.size

/-- How many entries are tracked in all. -/
def trackedEntries (r : Registry σ) : Nat :=
  (r.directories.entries.map fun e => e.2.items.size).foldr (· + ·) 0

/-- Whether an entry of a directory is observed. A directory outside the root counts by its own
path. -/
def observes (r : Registry σ) (dir : Path) (n : Name) : Bool :=
  r.filter.allows (((r.relative? dir).getD dir).child n)

/-- Lists the observed entries of a directory. -/
def list (host : Host σ) (r : Registry σ) (dir : Path) : Except Error (Listing Name) × Registry σ :=
  let (result, machine) := host.list (r.observes dir) dir r.machine
  (result, { r with machine }.record (.listed dir result))

/-- Places a watch. -/
def watch (host : Host σ) (r : Registry σ) (dir : Path) : Except Error Unit × Registry σ :=
  let (result, machine) := host.watch dir r.machine
  (result, { r with machine }.record (.watched dir result))

/-- Removes a watch. -/
def unwatch (host : Host σ) (r : Registry σ) (dir : Path) : Except Error Unit × Registry σ :=
  let (result, machine) := host.unwatch dir r.machine
  (result, { r with machine }.record (.unwatched dir result))

/-- Registers a directory unless it is registered, and tells whether it was new. The watch is placed
before the listing is taken, so that nothing created in between is missed. -/
def register (host : Host σ) (r : Registry σ) (dir : Path) : Except Error Bool × Registry σ :=
  if r.contains dir then (.ok false, r)
  else match r.watch host dir with
    | (.error e, r) => (.error e, r)
    | (.ok (), r) =>
      match r.list host dir with
      | (.error e, r) => (.error e, (r.unwatch host dir).2)
      | (.ok l, r) =>
        (.ok true, { r with directories := r.directories.insert dir (.ofListing l) })

/-- Places the watch of a directory anew; a failure to remove the old one does not matter. -/
def rearm (host : Host σ) (r : Registry σ) (dir : Path) : Except Error Unit × Registry σ :=
  (r.unwatch host dir).2.watch host dir

/-- Drops a directory and its watch, and hands back what was tracked of it. -/
def cancel (host : Host σ) (r : Registry σ) (dir : Path) :
    Option (TrackedDirectory Name) × Registry σ :=
  match r.get? dir with
  | none => (none, r)
  | some d => (some d, ({ r with directories := r.directories.erase dir }.unwatch host dir).2)

/-- Drops every directory, and tells how many there were. -/
def cancelAll (host : Host σ) (r : Registry σ) : Nat × Registry σ :=
  (r.size, r.paths.foldl (fun r dir => (r.unwatch host dir).2) { r with directories := ∅ })

@[simp] theorem unwatch_directories (host : Host σ) (r : Registry σ) (dir : Path) :
    (r.unwatch host dir).2.directories = r.directories := rfl

@[simp] theorem watch_directories (host : Host σ) (r : Registry σ) (dir : Path) :
    (r.watch host dir).2.directories = r.directories := rfl

@[simp] theorem list_directories (host : Host σ) (r : Registry σ) (dir : Path) :
    (r.list host dir).2.directories = r.directories := rfl

end Registry

end DirWatch
