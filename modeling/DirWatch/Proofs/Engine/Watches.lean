import DirWatch.Proofs.Engine.Invariant
import DirWatch.Proofs.Engine.Upkeep
import DirWatch.Proofs.Registry.Watches

/-! # No watch leaks

Whatever an engine does, what is watched is registered. Only a fatal failure leaves a directory
without a watch, and in the end every watch can be given up. -/

namespace DirWatch

variable {σ : Type} {host : Host σ} {watched : σ → Set (List Component)}

/-- An empty registry on a machine without watches is in step. -/
theorem Registry.inStep_empty {r : Registry σ} (hd : r.directories = ∅) (hj : r.journal = [])
    (hw : watched r.machine = ∅) (lost : Set (List Component)) : r.InStep watched lost := by
  have hr : r.registered = ∅ :=
    (registered_congr (r := { r with directories := ∅ }) hd).trans OrderedMap.places_empty
  refine ⟨⟨by rw [hj, hw]; rfl, ?_⟩, by simp [hw], by simp [hr]⟩
  intro before p result after he
  rw [hj] at he
  simp at he

/-- Where nothing has lost its watch, what is watched is registered and what is registered is
watched. -/
theorem Registry.InStep.watched_eq {r : Registry σ} (h : r.InStep watched ∅) :
    watched r.machine = r.registered :=
  h.contained.antisymm (h.complete.trans (Set.union_empty _).subset)

namespace Engine

/-! ## Passes -/

/-- The steps of a pass keep an engine in step with its watches; a directory whose watch is gone is
retired unless the failure is fatal. -/
theorem upkeep_inStep (h : host.HoldsWatches watched) (lost : Set (List Component)) :
    PassUpkeep host (fun s => s.registry.InStep watched lost)
      (fun s => s.registry.InStep watched Set.univ) (fun _ => True) := by
  have hcancel : ∀ (s : Engine σ) p, s.registry.InStep watched (insert p.components lost) →
      (s.cancel host p).registry.InStep watched lost := fun s p hs => hs.cancel h
  have hsteps : Upkeep host (fun s : Engine σ => s.registry.InStep watched lost) (fun _ => True)
      (fun _ => True) (fun _ _ _ => True) :=
    { emit := fun s kind p f hs _ => by
        unfold emit
        split
        · exact hs
        · exact hs.record rfl (by simp)
      unmark := fun s p hs _ _ => hs
      cancel := fun s p d hs _ _ => hcancel s p (hs.mono (Set.subset_insert _ _))
      left := fun _ _ _ _ _ _ _ _ _ => ⟨trivial, fun _ => trivial⟩
      register := fun s p hs _ => hs.register h
      entered := fun _ _ _ _ _ _ _ _ _ _ _ => ⟨trivial, fun _ => trivial⟩ }
  exact
    { toUpkeep := hsteps
      weaken := fun s hs => hs.weaken
      began := fun s p hs => hs.record rfl (by simp)
      listed := fun s p hs _ => hs.list h
      counted := fun s p c hs _ => hs
      observed := fun _ _ _ _ _ _ _ _ _ => trivial
      put := fun s p d l hs _ hd _ => hs.put (Option.isSome_of_eq_some hd) _
      rearmed := by
        intro s p d hs _ hd
        obtain ⟨hok, herr⟩ := hs.rearm h (Option.isSome_of_eq_some hd : s.registry.contains p = true)
        refine ⟨hok, fun e he => ⟨(herr e he).weaken, fun _ => ?_⟩⟩
        refine hsteps.retire_of_cancel (d := d) hd (hcancel _ p (herr e he)) ?_
        exact fun _ _ _ => ⟨trivial, fun _ => trivial⟩ }

/-! ## Runs -/

/-- Whether a result is a fatal error. -/
def fatal {α : Type} : Except Error α → Bool
  | .ok _ => false
  | .error e => e.isFatal

/-- A walk, and registering what it yields. -/
def walk (host : Host σ) (w : Walk) (s : Engine σ) : Except Error Unit × Engine σ :=
  let (result, registry) := s.registry.registerTree host (w.traverse host s.registry.machine)
  (result, { s with registry })

/-- The states that an engine comes to from an empty registry, with the knowledge whether a call
`failed` fatally on the way. Every call may find another machine, which may have changed in the
meantime except for its watches. -/
inductive Watching (watched : σ → Set (List Component)) : Bool → Engine σ → Prop
  | empty {s : Engine σ} (directories : s.registry.directories = ∅) (journal : s.registry.journal = [])
      (unwatched : watched s.registry.machine = ∅) : Watching watched false s
  | register {failed : Bool} {s : Engine σ} (h : Watching watched failed s) {host : Host σ}
      (holds : host.HoldsWatches watched) (p : Path) :
      Watching watched (failed || fatal (s.register host p).1) (s.register host p).2
  | diff {failed : Bool} {s : Engine σ} (h : Watching watched failed s) {host : Host σ}
      (holds : host.HoldsWatches watched) (p : Path) :
      Watching watched (failed || fatal (s.diff host p).1) (s.diff host p).2
  | markStale {failed : Bool} {s : Engine σ} (h : Watching watched failed s) (p : Path) :
      Watching watched failed (s.markStale p)
  | walk {failed : Bool} {s : Engine σ} (h : Watching watched failed s) {host : Host σ}
      (holds : host.HoldsWatches watched) (w : Walk) :
      Watching watched (failed || fatal (s.walk host w).1) (s.walk host w).2
  | change {failed : Bool} {s : Engine σ} (h : Watching watched failed s) (machine : σ)
      (same : watched machine = watched s.registry.machine) :
      Watching watched failed { s with registry := { s.registry with machine } }

/-- What has lost its watch: nothing, unless a call failed fatally. -/
def lost (failed : Bool) : Set (List Component) := {_c | failed = true}

theorem lost_or {failed more : Bool} : lost failed ⊆ lost (failed || more) := by
  rintro c hc
  exact (Bool.or_eq_true_iff.2 (.inl hc) : (failed || more) = true)

theorem lost_of_failed {failed more : Bool} (h : more = true) : lost (failed || more) = Set.univ :=
  Set.eq_univ_of_forall fun _ => Bool.or_eq_true_iff.2 (.inr h)

theorem Watching.inStep {failed : Bool} {s : Engine σ} (h : Watching watched failed s) :
    s.registry.InStep watched (lost failed) := by
  induction h with
  | empty directories journal unwatched => exact Registry.inStep_empty directories journal unwatched _
  | register h holds p ih => exact (ih.register holds).mono lost_or
  | @diff failed s h host holds p ih =>
      obtain ⟨hok, hfail⟩ := (upkeep_inStep holds (lost failed)).diff (p := p) (fun _ => trivial) ih
      cases hr : (s.diff host p).1 with
      | ok => exact (hok hr).mono lost_or
      | error e =>
          have hf : fatal (Except.error e : Except Error Unit) = true := fatal_of_diff hr
          rw [lost_of_failed hf]
          exact hfail
  | @markStale failed s h p ih =>
      rw [registry_markStale]
      exact ih
  | @walk failed s h host holds w ih =>
      exact (ih.registerTree holds (Walk.spares_traverse holds w _)).mono lost_or
  | change h machine same ih => exact ih.of_eq ⟨ih.held.trans same.symm, ih.once⟩ rfl same

/-- What is watched is registered, and unless a call failed fatally, what is registered is watched.
The journal tells what is watched, and no watch was asked for while it was there. Giving everything
up leaves neither watches nor directories. -/
theorem watched_of_watching {failed : Bool} {s : Engine σ} (h : Watching watched failed s) :
    watched s.registry.machine ⊆ s.registry.registered ∧
      (failed = false → watched s.registry.machine = s.registry.registered) ∧
      held s.registry.journal = watched s.registry.machine ∧ NeverTwice s.registry.journal ∧
      ∀ host : Host σ, host.HoldsWatches watched →
        (s.registry.cancelAll host).2.registered = ∅ ∧
          watched (s.registry.cancelAll host).2.machine = ∅ := by
  have hs := h.inStep
  refine ⟨hs.contained, ?_, hs.held, hs.once, ?_⟩
  · rintro rfl
    refine hs.contained.antisymm (hs.complete.trans ?_)
    rintro c (hw | hl)
    · exact hw
    · cases hl
  · intro host holds
    exact ⟨(hs.cancelAll holds).1, (hs.cancelAll holds).2.1⟩

/-- A root with a directory that cannot be watched, as no watch is left for it. -/
def crowded : Engine ScriptedMachine where
  registry :=
    { root := .ofString "/r"
      machine :=
        { tree := { top := .directory ⟨0, 1⟩ 0o755 [(nameR,
            .directory ⟨0, 2⟩ 0o755 [(nameA, .directory ⟨0, 3⟩ 0o755 [])])] }
          faults := (∅ : OrderedMap Path Fault).insert (.ofString "/r/a") .limit } }

/-- The directory is refused fatally, a pass over the root runs into it again, and all is given
up. -/
theorem watched_after_failure :
    let host := ScriptedMachine.host
    let refused := crowded.register host (.ofString "/r/a")
    let s := ((refused.2.register host (.ofString "/r")).2.markStale (.ofString "/r")).diff host
      (.ofString "/r")
    refused.1 = .error (.watchService "watch limit") ∧
      s.2.registry.machine.watched.places ⊆ s.2.registry.registered ∧
      (s.2.registry.cancelAll host).2.machine.watched.places = ∅ := by
  intro host refused s
  have hempty : Watching (fun m : ScriptedMachine => m.watched.places) false crowded :=
    .empty rfl rfl OrderedMap.places_empty
  have hrefused := hempty.register ScriptedMachine.holdsWatches (.ofString "/r/a")
  have hroot := hrefused.register ScriptedMachine.holdsWatches (.ofString "/r")
  have hpass := (hroot.markStale (.ofString "/r")).diff ScriptedMachine.holdsWatches (.ofString "/r")
  obtain ⟨hsub, -, -, -, hall⟩ := watched_of_watching hpass
  exact ⟨by decide +kernel, hsub, (hall host ScriptedMachine.holdsWatches).2⟩

end Engine

end DirWatch
