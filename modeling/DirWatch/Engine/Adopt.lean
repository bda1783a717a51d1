import DirWatch.Engine.Basic

/-! # Adopting a directory

A directory that was discovered is registered with everything observed below it, and every entry
that is found there is reported as created. The directory itself is reported by its parent. Only a
fatal failure stops the descent; a directory that cannot be registered is left for a later pass. -/

namespace DirWatch.Engine

variable {σ : Type}

/-- Registers a directory without a report. -/
def register (host : Host σ) (dir : Path) (s : Engine σ) : Except Error Bool × Engine σ :=
  let (result, registry) := s.registry.register host dir
  (result, { s with registry })

/-- Adopts a directory from whose path at most `room` further bytes lead to one that can be looked
up. The last of its subdirectories is adopted first. -/
def adoptWithin (host : Host σ) : Nat → Path → Engine σ → Except Error Unit × Engine σ
  | room, dir, s =>
    match s.register host dir with
    | (.error e, s) => if e.isFatal then (.error e, s) else (.ok (), s)
    | (.ok false, s) => (.ok (), s)
    | (.ok true, s) =>
      let d := (s.registry.get? dir).getD {}
      let s := s.emitItems .created dir d.items.entries
      match room with
      | 0 => (.ok (), s)
      | room + 1 =>
        inTurn (adoptWithin host room) (d.subdirectories.map dir.child).reverse s

/-- Adopts a directory. Paths grow on the way down and those of `Path.limit` bytes cannot be looked
up, so the descent has an end. -/
def adopt (host : Host σ) (dir : Path) (s : Engine σ) : Except Error Unit × Engine σ :=
  adoptWithin host (Path.limit - dir.text.length) dir s

end DirWatch.Engine
