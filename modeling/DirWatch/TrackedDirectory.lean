import DirWatch.Listing

/-! # Tracked directories

A tracked directory keeps the items of its last listing, in the order of their names. Each listing
opens a new generation and stamps the items it shows; an item with an older stamp has disappeared.
-/

namespace DirWatch

/-- An entry of a tracked directory, with the generation of the last listing that showed it. -/
structure Item where
  isDirectory : Bool
  modified : Option Timestamp
  seen : UInt64
  deriving DecidableEq

/-- An entry as it is tracked once a listing of some generation has shown it. -/
def ListedEntry.stamped (e : ListedEntry) (generation : UInt64) : Item :=
  ⟨e.isDirectory, e.modified, generation⟩

/-- A name that appears in a difference, with its kind. -/
structure NamedEntry (ν : Type) where
  name : ν
  isDirectory : Bool
  deriving DecidableEq

/-- What changed between two listings. An entry whose kind changed is deleted with its old kind and
created with its new one. -/
structure Delta (ν : Type) where
  created : List (NamedEntry ν) := []
  updated : List (NamedEntry ν) := []
  deleted : List (NamedEntry ν) := []
  deriving DecidableEq

def Delta.isEmpty {ν : Type} (d : Delta ν) : Bool :=
  d.created.isEmpty && d.updated.isEmpty && d.deleted.isEmpty

/-- A directory and what its last listing showed. -/
structure TrackedDirectory (ν : Type) [Ord ν] where
  items : OrderedMap ν Item := ∅
  generation : UInt64 := 0
  identity : Option Identity := none
  deriving DecidableEq

namespace TrackedDirectory

variable {ν : Type} [Ord ν] [Std.TransOrd ν]

instance : Inhabited (TrackedDirectory ν) := ⟨{}⟩

/-- The items after a listing has stamped those that it shows. -/
def stamp (d : TrackedDirectory ν) (l : Listing ν) (generation : UInt64) : OrderedMap ν Item :=
  l.entries.entries.foldl (fun items e => items.insert e.1 (e.2.stamped generation)) d.items

/-- Whether a listed entry was not tracked before as an entry of its kind. -/
def isNew (d : TrackedDirectory ν) (n : ν) (e : ListedEntry) : Bool :=
  (d.items.get? n).all fun i => i.isDirectory != e.isDirectory

/-- Whether a listed entry was tracked as an entry of the other kind. -/
def isRetyped (d : TrackedDirectory ν) (n : ν) (e : ListedEntry) : Bool :=
  (d.items.get? n).any fun i => i.isDirectory != e.isDirectory

/-- Whether a listed entry is a file that was tracked with another time. -/
def isUpdated (d : TrackedDirectory ν) (n : ν) (e : ListedEntry) : Bool :=
  (d.items.get? n).any fun i => !i.isDirectory && !e.isDirectory && i.modified != e.modified

/-- Takes a new listing over and reports the differences: entries that changed their kind before
entries that disappeared. -/
def reconcile (d : TrackedDirectory ν) (l : Listing ν) : Delta ν × TrackedDirectory ν :=
  let generation := d.generation + 1
  let stamped := d.stamp l generation
  let listed (p : ν → ListedEntry → Bool) : List (ν × ListedEntry) :=
    l.entries.entries.filter fun e => p e.1 e.2
  let gone := stamped.entries.filter fun e => e.2.seen != generation
  ({ created := (listed d.isNew).map fun e => ⟨e.1, e.2.isDirectory⟩
     updated := (listed d.isUpdated).map fun e => ⟨e.1, e.2.isDirectory⟩
     deleted := (listed d.isRetyped).map (fun e => ⟨e.1, !e.2.isDirectory⟩)
       ++ gone.map fun e => ⟨e.1, e.2.isDirectory⟩ },
   { items := stamped.filter fun _ i => i.seen == generation
     generation
     identity := l.identity })

/-- A directory that is tracked from a first listing on. -/
def ofListing (l : Listing ν) : TrackedDirectory ν := (({} : TrackedDirectory ν).reconcile l).2

/-- The names of the items that are directories. -/
def subdirectories (d : TrackedDirectory ν) : List ν :=
  (d.items.entries.filter fun e => e.2.isDirectory).map (·.1)

end TrackedDirectory

end DirWatch
