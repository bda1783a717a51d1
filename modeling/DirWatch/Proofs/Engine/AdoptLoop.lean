import DirWatch.Engine.Adopt
import DirWatch.Proofs.Engine.Laws

/-! # Adopting as a loop

Adopting goes through a stack of directories, round by round, until the stack is empty or a failure
is fatal. The descent by directories is this loop, so the loop always ends: a path that cannot be
looked up is not registered, and every subdirectory has a longer path. -/

namespace DirWatch

variable {σ : Type} {host : Host σ}

namespace Registry

/-- A directory that is registered anew was looked up. -/
theorem length_lt_of_register {r : Registry σ} {p : Path}
    (h : (r.register host p).1 = .ok true) : p.text.length < Path.limit := by
  obtain ⟨l, r₁, r₂, -, hl, -⟩ := register_eq_true (Prod.ext h rfl)
  have hfst : (host.list (r₁.observes p) p r₁.machine).1 = .ok l := congrArg Prod.fst hl
  exact Host.list_ok_length (Prod.ext hfst rfl)

end Registry

namespace Engine

/-- One round: the last directory of the stack is registered. If it is new, its items are reported
and its subdirectories take its place. A fatal failure ends the loop. -/
def adoptRound (host : Host σ) :
    Except Error (List Path) × Engine σ → Except Error (List Path) × Engine σ
  | (.ok (dir :: rest), s) =>
    match s.register host dir with
    | (.error e, s) => if e.isFatal then (.error e, s) else (.ok rest, s)
    | (.ok false, s) => (.ok rest, s)
    | (.ok true, s) =>
      let d := (s.registry.get? dir).getD {}
      (.ok ((d.subdirectories.map dir.child).reverse ++ rest),
        s.emitItems .created dir d.items.entries)
  | (.ok [], s) => (.ok [], s)
  | (.error e, s) => (.error e, s)

/-- Some rounds do what a step does with a directory on top of any stack. -/
def ByRounds (host : Host σ) (step : Engine σ → Except Error Unit × Engine σ)
    (dirs : List Path) : Prop :=
  ∀ s rest, ∃ k, (adoptRound host)^[k] (.ok (dirs ++ rest), s) =
    ((step s).1.map fun _ => rest, (step s).2)

/-- Steps on directories in turn take the rounds of each. -/
theorem byRounds_inTurn {step : Path → Engine σ → Except Error Unit × Engine σ} {dirs : List Path}
    (h : ∀ dir ∈ dirs, ByRounds host (step dir) [dir]) :
    ByRounds host (inTurn step dirs) dirs := by
  induction dirs with
  | nil =>
      intro s rest
      exact ⟨0, by simp [inTurn, Except.map]⟩
  | cons dir dirs ih =>
      intro s rest
      obtain ⟨k, hk⟩ := h dir List.mem_cons_self s (dirs ++ rest)
      rw [List.singleton_append] at hk
      rw [List.cons_append, inTurn]
      rcases hr : step dir s with ⟨e | _, s'⟩ <;> rw [hr] at hk
      · exact ⟨k, hk⟩
      · obtain ⟨j, hj⟩ := ih (fun q hq => h q (List.mem_cons_of_mem dir hq)) s' rest
        refine ⟨j + k, ?_⟩
        rw [Function.iterate_add_apply, hk]
        exact hj

/-- A directory that is not registered anew takes one round, whatever the room. -/
theorem adoptRound_of_refused {dir : Path} {s : Engine σ} (h : (s.register host dir).1 ≠ .ok true)
    (room : Nat) (rest : List Path) :
    adoptRound host (.ok (dir :: rest), s) =
      ((adoptWithin host room dir s).1.map fun _ => rest, (adoptWithin host room dir s).2) := by
  rw [adoptRound]
  cases room <;> rw [adoptWithin] <;> rcases hr : s.register host dir with ⟨e | _ | _, s'⟩
  case zero.error | succ.error => cases hf : e.isFatal <;> simp [hf, Except.map]
  case zero.ok.false | succ.ok.false => simp [Except.map]
  case zero.ok.true | succ.ok.true => simp [hr] at h

/-- With room for every path that can be looked up, the descent takes rounds of the loop. -/
theorem byRounds_adoptWithin {room : Nat} {dir : Path}
    (hroom : Path.limit ≤ room + dir.text.length) :
    ByRounds host (adoptWithin host room dir) [dir] := by
  -- Every subdirectory has a longer path, so the room of the descent suffices for it.
  induction room generalizing dir with
  | zero =>
      intro s rest
      refine ⟨1, adoptRound_of_refused ?_ 0 rest⟩
      intro hr
      have hlength := Registry.length_lt_of_register hr
      omega
  | succ room ih =>
      intro s rest
      by_cases hr : (s.register host dir).1 = .ok true
      · rcases hreg : s.register host dir with ⟨result, s'⟩
        rw [hreg] at hr
        subst hr
        set d := (s'.registry.get? dir).getD {}
        have hentries : ∀ q ∈ (d.subdirectories.map dir.child).reverse,
            ByRounds host (adoptWithin host room q) [q] := by
          intro q hq
          obtain ⟨n, -, rfl⟩ := List.mem_map.1 (List.mem_reverse.1 hq)
          have hlonger := dir.length_lt_child n
          apply ih
          omega
        obtain ⟨k, hk⟩ := byRounds_inTurn hentries (s'.emitItems .created dir d.items.entries) rest
        refine ⟨k + 1, ?_⟩
        simp only [Function.iterate_succ_apply, List.singleton_append, adoptRound, adoptWithin,
          hreg]
        exact hk
      · exact ⟨1, adoptRound_of_refused hr (room + 1) rest⟩

/-- Adopting a directory is the loop from this directory on, and the loop ends. -/
theorem rounds_adopt (host : Host σ) (dir : Path) (s : Engine σ) :
    ∃ k, (adoptRound host)^[k] (.ok [dir], s) =
      ((adopt host dir s).1.map fun _ => [], (adopt host dir s).2) := by
  apply byRounds_adoptWithin
  omega

end Engine

end DirWatch
