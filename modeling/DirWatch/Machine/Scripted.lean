import DirWatch.FileTree.Editing
import DirWatch.FileTree.Reading

/-! # A machine with a scripted watch service

A file tree, a set of watched paths, and for single directories the way in which watching them goes
wrong. -/

namespace DirWatch

/-- How watching a directory goes wrong: the service is exhausted, it is busy, or the directory goes
away right after the watch was placed. -/
inductive Fault where
  | limit
  | transient
  | vanish
  deriving DecidableEq

/-- A machine with a scripted watch service. -/
structure ScriptedMachine where
  tree : FileTree := {}
  watched : OrderedMap Path Unit := ∅
  faults : OrderedMap Path Fault := ∅

namespace ScriptedMachine

/-- Sets or clears the fault of a directory. -/
def setFault (m : ScriptedMachine) (dir : Path) : Option Fault → ScriptedMachine
  | none => { m with faults := m.faults.erase dir }
  | some fault => { m with faults := m.faults.insert dir fault }

def watch (dir : Path) (m : ScriptedMachine) : Except Error Unit × ScriptedMachine :=
  let placed := { m with watched := m.watched.insert dir () }
  match m.faults.get? dir with
  | some .limit => (.error (.watchService "watch limit"), m)
  | some .transient => (.error (.watcher "busy"), m)
  | some .vanish =>
    match m.tree.remove dir with
    | .ok tree => (.ok (), { placed with tree })
    | .error _ => (.ok (), placed)
  | none => (.ok (), placed)

def unwatch (dir : Path) (m : ScriptedMachine) : Except Error Unit × ScriptedMachine :=
  if m.watched.contains dir then (.ok (), { m with watched := m.watched.erase dir })
  else (.error (.watcher "not watched"), m)

/-- The machine as a host. -/
def host : Host ScriptedMachine where
  metadata p m := (m.tree.metadata p, m)
  target p m := (m.tree.target p, m)
  canonical p m := (m.tree.canonical p, m)
  readDirectory p m := (m.tree.readDirectory p, m)
  watch := watch
  unwatch := unwatch

end ScriptedMachine

end DirWatch
