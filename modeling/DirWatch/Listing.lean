import DirWatch.OrderedMap
import DirWatch.Path.Basic

/-! # Listings

What a directory holds at one moment: the names that are observed, each with its kind and its time
of last modification, and the identity of the directory itself. -/

namespace DirWatch

/-- A time as seconds and nanoseconds since the epoch. -/
structure Timestamp where
  seconds : Int
  nanoseconds : Nat
  deriving DecidableEq

/-- What tells a directory from another one that takes its place. -/
structure Identity where
  device : Nat
  inode : Nat
  deriving DecidableEq

/-- An entry as one listing shows it. -/
structure ListedEntry where
  isDirectory : Bool
  modified : Option Timestamp
  deriving DecidableEq

/-- The observed entries of a directory at one moment, under names of a type `ν`. -/
structure Listing (ν : Type) [Ord ν] where
  identity : Option Identity := none
  entries : OrderedMap ν ListedEntry := ∅
  deriving DecidableEq

end DirWatch
