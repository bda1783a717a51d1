import DirWatch.OrderedMap
import DirWatch.Path.Basic

/-! # Pending directories

Directories that wait for a pass, each once, in the order in which they were first marked. The set
is due when it has been quiet for a while, and at the latest a while after its first mark. -/

namespace DirWatch

/-- Milliseconds on the clock of a watcher. -/
abbrev Instant := Nat

/-- Directories that wait for a pass: in their order, and as a set that tells what is pending. -/
structure PendingSet where
  order : List Path := []
  members : OrderedMap Path Unit := ∅
  /-- When a directory was first marked. -/
  firstMarked : Option Instant := none
  /-- When a directory was last marked. -/
  lastMarked : Option Instant := none
  agree : ∀ dir, members.contains dir = order.any dir.same
  deriving DecidableEq

namespace PendingSet

instance : EmptyCollection PendingSet := ⟨⟨[], ∅, none, none, fun _ => rfl⟩⟩

@[simp] theorem order_empty : (∅ : PendingSet).order = [] := rfl

@[simp] theorem firstMarked_empty : (∅ : PendingSet).firstMarked = none := rfl

def contains (s : PendingSet) (dir : Path) : Bool := s.members.contains dir

/-- A directory stays a member of a set in step with its order. -/
theorem agree_insert (s : PendingSet) (dir q : Path) :
    (s.members.insert dir ()).contains q = (s.order ++ [dir]).any q.same := by
  have hq : (compare q dir = .eq) = (q.same dir = true) := by
    rw [Path.compare_eq_iff, Path.same, beq_iff_eq]
  rw [List.any_append, ← s.agree, OrderedMap.contains, OrderedMap.get?_insert]
  simp only [hq, List.any_cons, List.any_nil, Bool.or_false]
  cases q.same dir <;> simp [OrderedMap.contains]

/-- Marks a directory, and tells whether it was not pending yet. -/
def insert (s : PendingSet) (now : Instant) (dir : Path) : Bool × PendingSet :=
  let s := { s with firstMarked := some (s.firstMarked.getD now), lastMarked := some now }
  if s.contains dir then (false, s)
  else (true, { s with
    order := s.order ++ [dir]
    members := s.members.insert dir ()
    agree := s.agree_insert dir })

def size (s : PendingSet) : Nat := s.order.length

def isEmpty (s : PendingSet) : Bool := s.order.isEmpty

/-- Empties the set, the oldest directory first. -/
def take (s : PendingSet) : List Path × PendingSet := (s.order, ∅)

/-- When the set is due: `idle` after the last mark or `longest` after the first, whichever comes
first. -/
def deadline (s : PendingSet) (idle longest : Nat) : Option Instant := do
  let first ← s.firstMarked
  let last ← s.lastMarked
  return min (last + idle) (first + longest)

end PendingSet

end DirWatch
