import DirWatch.Engine.Adopt
import DirWatch.Engine.Retire

/-! # A pass over one directory

A pass lists a registered directory, reports the differences to its last listing, and follows them
into subdirectories: those that are gone are retired, those that are new are adopted, and those that
could not be registered before are tried again. Only fatal failures are returned. -/

namespace DirWatch.Engine

variable {σ : Type}

/-- Reports deleted entries and retires those that are directories. -/
def reportDeleted (host : Host σ) (dir : Path) (entries : List (NamedEntry Name)) (s : Engine σ) :
    Engine σ :=
  entries.foldl (fun s e =>
    let s := s.emit .deleted (dir.child e.name) e.isDirectory
    if e.isDirectory then s.retire host (dir.child e.name) else s) s

/-- Reports created entries and adopts those that are directories. -/
def reportCreated (host : Host σ) (dir : Path) :
    List (NamedEntry Name) → Engine σ → Except Error Unit × Engine σ :=
  inTurn fun e s =>
    let s := s.emit .created (dir.child e.name) e.isDirectory
    if e.isDirectory then s.adopt host (dir.child e.name) else (.ok (), s)

/-- Reports updated entries. -/
def reportUpdated (dir : Path) (entries : List (NamedEntry Name)) (s : Engine σ) : Engine σ :=
  entries.foldl (fun s e => s.emit .updated (dir.child e.name) e.isDirectory) s

/-- The known subdirectories of a directory that are not registered. -/
def unregistered (dir : Path) (s : Engine σ) : List Path :=
  match s.registry.get? dir with
  | none => []
  | some d => (d.subdirectories.map dir.child).filter fun p => !s.registry.contains p

/-- Adopts the known subdirectories that could not be registered before. -/
def retryUnregistered (host : Host σ) (dir : Path) (s : Engine σ) : Except Error Unit × Engine σ :=
  inTurn (adopt host) (s.unregistered dir) s

/-- Takes a listing of a registered directory over. Deletions come first, so that an entry that
changed its kind is retired before it is adopted. -/
def absorb (host : Host σ) (dir : Path) (listing : Listing Name) (s : Engine σ) :
    Except Error Unit × Engine σ :=
  match s.registry.get? dir with
  | none => (.ok (), s)
  | some d =>
    let (delta, d) := d.reconcile listing
    let registry := { s.registry with directories := s.registry.directories.insert dir d }
    let s := reportDeleted host dir delta.deleted { s with registry }
    match reportCreated host dir delta.created s with
    | (.error e, s) => (.error e, s)
    | (.ok (), s) => retryUnregistered host dir (reportUpdated dir delta.updated s)

/-- Whether a directory was replaced since it was listed last: its watch was dropped, or another
directory stands in its place. -/
def wasReplaced (s : Engine σ) (dir : Path) (previous : TrackedDirectory Name)
    (listing : Listing Name) : Bool :=
  s.stale.contains dir || (previous.identity.isSome && listing.identity != previous.identity)

/-- Brings one registered directory up to date. -/
def diff (host : Host σ) (dir : Path) (s : Engine σ) : Except Error Unit × Engine σ :=
  let s := { s with registry := s.registry.record (.began dir) }
  match s.registry.get? dir with
  | none => (.ok (), s)
  | some previous =>
    let (result, registry) := s.registry.list host dir
    let s := { s with registry }
    match result with
    | .error (.pathVanished _) => (.ok (), s.retire host dir)
    | .error _ => (.ok (), s)
    | .ok listing =>
      let replaced := s.wasReplaced dir previous listing
      let s := { s.unmark dir with
        counters := { s.counters with diffed := s.counters.diffed + 1 } }
      if replaced then
        let (result, registry) := s.registry.rearm host dir
        let s := { s with registry }
        match result with
        | .error e => if e.isFatal then (.error e, s) else (.ok (), s.retire host dir)
        | .ok () => s.absorb host dir listing
      else s.absorb host dir listing

end DirWatch.Engine
