import DirWatch.Host

/-! # Walking a tree

A walk visits what is observed below a root, every directory before what it holds. It does not
follow links, except that the root itself may be one. Directories that cannot be read are visited
and their contents are skipped. A walk is lazy: it looks at a directory only when the visits before
have been taken, and by then the machine may have changed. -/

namespace DirWatch

/-- An entry that a walk came to. -/
structure Visit where
  path : Path
  relative : Path
  isDirectory : Bool
  modified : Option Timestamp
  deriving DecidableEq

/-- A walk under way: it is over, or it yields a visit and goes on from the state in which the
machine is handed back. -/
inductive Traversal (σ : Type) where
  | finished (s : σ)
  | yielded (v : Visit) (s : σ) (resume : σ → Traversal σ)

namespace Traversal

variable {σ : Type}

/-- Goes on with another traversal. -/
def andThen (next : σ → Traversal σ) : Traversal σ → Traversal σ
  | finished s => next s
  | yielded v s resume => .yielded v s fun s => (resume s).andThen next

/-- Traverses what a search finds for each item in turn. -/
def gather {α : Type} (search : α → σ → Traversal σ) : List α → σ → Traversal σ
  | [], s => .finished s
  | a :: rest, s => (search a s).andThen (gather search rest)

/-- All visits, if the machine is handed back as it is. -/
def collect : Traversal σ → List Visit × σ
  | finished s => ([], s)
  | yielded v s resume =>
    let (visits, s) := (resume s).collect
    (v :: visits, s)

end Traversal

/-- A walk: where it starts, and which of the entries it yields. -/
structure Walk where
  root : Path
  filter : Filter := {}
  directoriesOnly : Bool := false
  includeRoot : Bool := false

namespace Walk

variable {σ : Type}

/-- A path as seen from the root of a walk. -/
def relativeTo (root p : Path) : Path := (p.stripPrefix? root).getD p

/-- The visit of a path that was looked up. -/
def visit (w : Walk) (p : Path) (isDirectory : Bool) (looked : Except IoFailure Metadata) :
    Visit where
  path := p
  relative := relativeTo w.root p
  isDirectory := isDirectory
  modified := looked.toOption.bind (·.modified)

/-- Yields a path, unless it is left out. Its time is looked up by the path. -/
def offer (host : Host σ) (w : Walk) (p : Path) (isDirectory : Bool) (s : σ) : Traversal σ :=
  if w.directoriesOnly && !isDirectory then .finished s
  else
    let (looked, s) := host.metadata p s
    .yielded (w.visit p isDirectory looked) s .finished

/-- Visits an entry of a directory, and then what a search finds below it if it is a directory. -/
def enter (host : Host σ) (w : Walk) (search : Path → σ → Traversal σ) (dir : Path)
    (e : DirectoryEntry) (s : σ) : Traversal σ :=
  (w.offer host (dir.child e.name) e.isDirectory s).andThen fun s =>
    if e.isDirectory then search (dir.child e.name) s else .finished s

/-- Visits what is observed in a directory, with a search for what is below its subdirectories. -/
def level (host : Host σ) (w : Walk) (search : Path → σ → Traversal σ) (dir : Path) (s : σ) :
    Traversal σ :=
  if Path.limit ≤ dir.text.length then .finished s
  else match host.readDirectory dir s with
    | (.error _, s) => .finished s
    | (.ok entries, s) =>
      .gather (w.enter host search dir)
        (entries.filter fun e => w.filter.allows (relativeTo w.root (dir.child e.name))) s

/-- Visits what is observed below a directory, from whose path at most `room` further bytes lead to
one that can be looked up. -/
def below (host : Host σ) (w : Walk) : Nat → Path → σ → Traversal σ
  | 0 => w.level host fun _ s => .finished s
  | room + 1 => w.level host (below host w room)

/-- Visits everything that is observed below a directory. -/
def contents (host : Host σ) (w : Walk) (dir : Path) (s : σ) : Traversal σ :=
  w.below host (Path.limit - dir.text.length) dir s

/-- Whether a walk starts, at a directory or at something else, and whether it goes below its root.
A root that is a link has to lead somewhere. -/
def entrance (host : Host σ) (w : Walk) (s : σ) : Option (Bool × Bool) × σ :=
  match host.metadata w.root s with
  | (.error _, s) => (none, s)
  | (.ok m, s) =>
    if m.isDirectory then (some (true, true), s)
    else if !m.isLink then (some (false, false), s)
    else match host.target w.root s with
      | (.error _, s) => (none, s)
      | (.ok led, s) => (some (false, led.isDirectory), s)

/-- Starts a walk. -/
def traverse (host : Host σ) (w : Walk) (s : σ) : Traversal σ :=
  match w.entrance host s with
  | (none, s) => .finished s
  | (some (isDirectory, descends), s) =>
    let first := if w.includeRoot then w.offer host w.root isDirectory s else .finished s
    first.andThen fun s => if descends then w.contents host w.root s else .finished s

/-- The entries of a walk in its order. -/
def run (host : Host σ) (w : Walk) (s : σ) : List Visit × σ := (w.traverse host s).collect

end Walk

end DirWatch
