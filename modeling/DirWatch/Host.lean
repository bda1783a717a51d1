import DirWatch.Error
import DirWatch.Filter
import DirWatch.Listing
import DirWatch.Path.Limits

/-! # The host

What the engine asks of the machine that it runs on: the metadata and the entries of a directory,
and watches on directories. Every request may change the machine, and each may fail. -/

namespace DirWatch

/-- What a machine tells about a node. -/
structure Metadata where
  isDirectory : Bool
  isLink : Bool := false
  modified : Option Timestamp := none
  identity : Option Identity := none
  deriving DecidableEq

/-- An entry that a directory shows. Its kind comes from the directory, its metadata from a second
look that can fail. -/
structure DirectoryEntry where
  name : Name
  isDirectory : Bool
  metadata : Except IoFailure Metadata

/-- A machine in states `σ`, as far as the engine uses it. -/
structure Host (σ : Type) where
  /-- The metadata of what a path names; a link at its end is not followed. -/
  metadata : Path → σ → Except IoFailure Metadata × σ
  /-- The metadata of what a path leads to. -/
  target : Path → σ → Except IoFailure Metadata × σ
  /-- The absolute path without links and dots of what a path leads to. -/
  canonical : Path → σ → Except IoFailure Path × σ
  readDirectory : Path → σ → Except IoFailure (List DirectoryEntry) × σ
  watch : Path → σ → Except Error Unit × σ
  unwatch : Path → σ → Except Error Unit × σ

/-- Why a directory cannot be listed: it is gone when its path leads nowhere. -/
def listingError (dir : Path) (failure : IoFailure) : Error :=
  if failure.kind = .notFound ∨ failure.kind = .notADirectory then .pathVanished dir
  else .io failure

/-- The listing of the entries that are observed. Entries without metadata are left out. -/
def Listing.ofEntries (observed : Name → Bool) (identity : Option Identity)
    (entries : List DirectoryEntry) : Listing Name where
  identity
  entries := OrderedMap.ofList (entries.filterMap fun e =>
    match e.metadata with
    | .ok m => if observed e.name then some (e.name, ⟨m.isDirectory, m.modified⟩) else none
    | .error _ => none)

namespace Host

variable {σ : Type}

/-- The observed entries of a directory at this moment. -/
def list (host : Host σ) (observed : Name → Bool) (dir : Path) (s : σ) :
    Except Error (Listing Name) × σ :=
  match dir.refusal? with
  | some failure => (.error (.io failure), s)
  | none =>
    match host.metadata dir s with
    | (.error failure, s) => (.error (listingError dir failure), s)
    | (.ok m, s) =>
      if !m.isDirectory then (.error (.pathVanished dir), s)
      else match host.readDirectory dir s with
        | (.error failure, s) => (.error (listingError dir failure), s)
        | (.ok entries, s) => (.ok (Listing.ofEntries observed m.identity entries), s)

/-- A directory is only listed if the machine looks it up. -/
theorem list_ok_length {host : Host σ} {observed : Name → Bool} {dir : Path} {s s' : σ}
    {l : Listing Name} (h : host.list observed dir s = (.ok l, s')) :
    dir.text.length < Path.limit := by
  unfold list at h
  split at h
  · simp at h
  · next hn => exact Path.length_lt_of_refusal?_eq_none hn

end Host

end DirWatch
