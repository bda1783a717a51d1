import DirWatch.Engine.Basic

/-! # Retiring a directory

A directory that is gone is dropped with everything registered below it, and every entry that was
tracked there is reported as deleted. The directory itself is reported by its parent. -/

namespace DirWatch.Engine

variable {σ : Type}

/-- Drops a registered directory and its mark, without a report. -/
def cancel (host : Host σ) (dir : Path) (s : Engine σ) : Engine σ :=
  { s.unmark dir with registry := (s.registry.cancel host dir).2 }

theorem size_cancel_lt {host : Host σ} {dir : Path} {s : Engine σ} {d : TrackedDirectory Name}
    (h : s.registry.get? dir = some d) : (s.cancel host dir).registry.size < s.registry.size := by
  simp only [cancel, Registry.cancel, h, Registry.size, Registry.unwatch_directories]
  apply OrderedMap.size_erase_lt
  simp only [OrderedMap.contains]
  exact Option.isSome_of_eq_some h

/-- Retires the directories of a stack. Each round drops a registered directory or shortens the
stack, so it comes to an end whatever the items name. -/
def retireAll (host : Host σ) : List Path → Engine σ → Engine σ
  | [], s => s
  | dir :: rest, s =>
    match _h : s.registry.get? dir with
    | none => retireAll host rest (s.unmark dir)
    | some d =>
      retireAll host ((d.subdirectories.map dir.child).reverse ++ rest)
        ((s.cancel host dir).emitItems .deleted dir d.items.entries)
termination_by stack s => (s.registry.size, stack.length)
decreasing_by
  · exact Prod.Lex.right _ (Nat.lt_succ_self _)
  · apply Prod.Lex.left
    simpa only [Registry.size, emitItems_directories] using size_cancel_lt _h

theorem retireAll_nil (host : Host σ) (s : Engine σ) : retireAll host [] s = s := by
  rw [retireAll]

/-- A directory on the stack that is not registered loses its mark only. -/
theorem retireAll_skip {host : Host σ} {p : Path} {rest : List Path} {s : Engine σ}
    (hd : s.registry.get? p = none) :
    retireAll host (p :: rest) s = retireAll host rest (s.unmark p) := by
  rw [retireAll]
  split
  · rfl
  · next d hd' => simp [hd] at hd'

/-- A registered directory on the stack is dropped, and its subdirectories take its place. -/
theorem retireAll_cons {host : Host σ} {p : Path} {rest : List Path} {s : Engine σ}
    {d : TrackedDirectory Name} (hd : s.registry.get? p = some d) :
    retireAll host (p :: rest) s = retireAll host ((d.subdirectories.map p.child).reverse ++ rest)
      ((s.cancel host p).emitItems .deleted p d.items.entries) := by
  rw [retireAll]
  split
  · next hd' => simp [hd] at hd'
  · next d' hd' =>
      obtain rfl : d = d' := Option.some.inj (hd.symm.trans hd')
      rfl

/-- Retires one directory. -/
def retire (host : Host σ) (dir : Path) (s : Engine σ) : Engine σ := retireAll host [dir] s

end DirWatch.Engine
