import DirWatch.Error

/-! # Notifications

What a watcher tells its listener, and two listeners: a channel that keeps the notifications for its
reader, and a log that counts them. -/

namespace DirWatch

/-- What happened to an entry. -/
inductive ChangeKind where
  | created
  | updated
  | deleted
  deriving DecidableEq

/-- A change of one entry, named by its path relative to the root. -/
structure Change where
  kind : ChangeKind
  path : Path
  isDirectory : Bool
  deriving DecidableEq

/-- What a watcher tells its listener. -/
inductive Notification where
  | started (root : Path)
  | changed (change : Change)
  | failed (root : Path) (cause : Error)
  deriving DecidableEq

/-- A stream of notifications that keeps them until its reader is gone. -/
structure Channel where
  isOpen : Bool := true
  delivered : List Notification := []

namespace Channel

/-- Delivers a notification; without a reader it is dropped. -/
def send (c : Channel) (n : Notification) : Channel :=
  if c.isOpen then { c with delivered := c.delivered ++ [n] } else c

def close (c : Channel) : Channel := { c with isOpen := false }

end Channel

/-- How many changes of each kind a log has seen. -/
structure Totals where
  created : UInt64 := 0
  updated : UInt64 := 0
  deleted : UInt64 := 0
  deriving DecidableEq

namespace Totals

/-- Counts one change. -/
def add (t : Totals) : ChangeKind → Totals
  | .created => { t with created := t.created + 1 }
  | .updated => { t with updated := t.updated + 1 }
  | .deleted => { t with deleted := t.deleted + 1 }

/-- Counts the change that a notification reports, if it reports one. -/
def note (t : Totals) : Notification → Totals
  | .changed c => t.add c.kind
  | _ => t

end Totals

/-- The line that a log writes for a notification. -/
def Notification.line : Notification → String
  | started root => "Watching " ++ root.display
  | changed c =>
    let verb := match c.kind with
      | .created => "created"
      | .updated => "updated"
      | .deleted => "deleted"
    verb ++ (if c.isDirectory then " dir " else " file ") ++ c.path.display
  | failed root cause => "Stopped watching " ++ root.display ++ ": " ++ cause.message

end DirWatch
