import DirWatch.Error

/-! # Limits of paths

Which paths no machine looks up, and how long the names are that it can find. -/

namespace DirWatch

/-- Paths of this many bytes or more cannot be looked up. -/
def Path.limit : Nat := 4096

/-- A longer name stands in no directory. -/
def Name.limit : Nat := 255

namespace Path

/-- Whether a path holds the byte that ends a path inside the operating system. -/
def holdsNul (p : Path) : Bool := p.text.contains 0

/-- Why a path is refused before anything is looked up. -/
def refusal? (p : Path) : Option IoFailure :=
  if p.holdsNul then some .nulInPath
  else if limit ≤ p.text.length then some .nameTooLong
  else none

theorem length_lt_of_refusal?_eq_none {p : Path} (h : p.refusal? = none) :
    p.text.length < limit := by
  unfold refusal? at h
  split at h
  · simp at h
  · split at h
    · simp at h
    · next hlt => exact Nat.lt_of_not_le hlt

end Path

end DirWatch
