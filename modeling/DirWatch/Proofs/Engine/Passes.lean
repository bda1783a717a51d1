import DirWatch.Proofs.Engine.Upkeep

/-! # Passes one after the other

The passes over a batch of directories are completed in their order, until a fatal failure ends one
of them. The journal tells over which directories passes have begun. -/

namespace DirWatch

variable {σ : Type} {host : Host σ}

/-- The directory over which a pass begins. -/
def Action.began? : Action → Option Path
  | .began dir => some dir
  | _ => none

namespace Registry

/-- The directories over which passes have begun, in their order. -/
def begun (r : Registry σ) : List Path := r.journal.filterMap Action.began?

variable (r : Registry σ)

theorem begun_record (a : Action) : (r.record a).begun = r.begun ++ a.began?.toList := by
  rw [begun, record, List.filterMap_append]
  cases h : a.began? <;> simp [begun, h]

theorem begun_list (p : Path) : (r.list host p).2.begun = r.begun :=
  (begun_record _ _).trans (List.append_nil _)

theorem begun_watch (p : Path) : (r.watch host p).2.begun = r.begun :=
  (begun_record _ _).trans (List.append_nil _)

theorem begun_unwatch (p : Path) : (r.unwatch host p).2.begun = r.begun :=
  (begun_record _ _).trans (List.append_nil _)

theorem begun_register (p : Path) : (r.register host p).2.begun = r.begun := by
  refine register_keeps (I := fun r' => r'.begun = r.begun) ?_ ?_ ?_ ?_ rfl
  · exact fun r' h => (begun_watch r' p).trans h
  · exact fun r' h => (begun_list r' p).trans h
  · exact fun r' h => (begun_unwatch r' p).trans h
  · exact fun _ _ _ _ h _ => h

end Registry

namespace Engine

theorem begun_emit (s : Engine σ) (kind : ChangeKind) (p : Path) (f : Bool) :
    (s.emit kind p f).registry.begun = s.registry.begun := by
  unfold emit
  split
  · rfl
  · exact (Registry.begun_record _ _).trans (List.append_nil _)

theorem begun_cancel (s : Engine σ) (p : Path) :
    (s.cancel host p).registry.begun = s.registry.begun := by
  cases hd : s.registry.get? p with
  | none => simp only [cancel, Registry.cancel, hd]
  | some d =>
      rw [registry_cancel hd, Registry.begun_unwatch]
      rfl

/-- Once it has begun, a pass begins no other. -/
theorem upkeep_begun (host : Host σ) (dirs : List Path) :
    BegunUpkeep host (fun s => s.registry.begun = dirs) (fun s => s.registry.begun = dirs)
      (fun _ => True) := by
  have hsteps : Upkeep host (fun s : Engine σ => s.registry.begun = dirs) (fun _ => True)
      (fun _ => True) (fun _ _ _ => True) :=
    { emit := fun s kind p f hs _ => (begun_emit s kind p f).trans hs
      unmark := fun s p hs _ _ => hs
      cancel := fun s p d hs _ _ => (begun_cancel s p).trans hs
      left := fun _ _ _ _ _ _ _ _ _ => ⟨trivial, fun _ => trivial⟩
      register := fun s p hs _ => (s.registry.begun_register p).trans hs
      entered := fun _ _ _ _ _ _ _ _ _ _ _ => ⟨trivial, fun _ => trivial⟩ }
  exact
    { toUpkeep := hsteps
      weaken := fun s hs => hs
      listed := fun s p hs _ => (s.registry.begun_list p).trans hs
      counted := fun s p n hs _ => hs
      observed := fun _ _ _ _ _ _ _ _ _ => trivial
      put := fun s p d l hs _ _ _ => hs
      rearmed := fun s p d hs _ _ => by
        have hr : (s.registry.rearm host p).2.begun = dirs :=
          (Registry.begun_watch _ p).trans ((s.registry.begun_unwatch p).trans hs)
        exact ⟨fun _ => hr, fun e _ => ⟨hr, fun _ => hsteps.retire trivial hr⟩⟩ }

theorem begun_diff (host : Host σ) (p : Path) (s : Engine σ) :
    (s.diff host p).2.registry.begun = s.registry.begun ++ [p] :=
  ((upkeep_begun host _).diff_of_began (fun _ => trivial) (s.registry.begun_record (.began p))).2

/-! ## A batch -/

/-- The passes over some directories, one after the other, each of them completed. -/
inductive Passes (host : Host σ) : List Path → Engine σ → Engine σ → Prop
  | nil (s : Engine σ) : Passes host [] s s
  | cons {p : Path} {batch : List Path} {s u v : Engine σ} (pass : s.diff host p = (.ok (), u))
      (rest : Passes host batch u v) : Passes host (p :: batch) s v

theorem Passes.begun {batch : List Path} {s v : Engine σ} (h : Passes host batch s v) :
    v.registry.begun = s.registry.begun ++ batch := by
  induction h with
  | nil s => exact (List.append_nil _).symm
  | @cons p batch s u v pass rest ih =>
      have hu := begun_diff host p s
      rw [pass] at hu
      rw [ih, hu, List.append_assoc, List.singleton_append]

/-- How the passes over a batch end: all of them are completed, or a fatal failure ends one, and no
other begins. -/
inductive PassesEnd (host : Host σ) (batch : List Path) (s : Engine σ) :
    Except Error Unit × Engine σ → Prop
  | completed {v : Engine σ} (passes : Passes host batch s v) : PassesEnd host batch s (.ok (), v)
  | stopped {before after : List Path} {p : Path} {u v : Engine σ} {e : Error}
      (split : batch = before ++ p :: after) (passes : Passes host before s u)
      (failure : u.diff host p = (.error e, v)) (fatal : e.isFatal = true) :
      PassesEnd host batch s (.error e, v)

theorem passesEnd_inTurn (host : Host σ) (batch : List Path) (s : Engine σ) :
    PassesEnd host batch s (inTurn (diff host) batch s) := by
  induction batch generalizing s with
  | nil => exact .completed (.nil s)
  | cons p batch ih =>
      rw [inTurn]
      rcases hp : s.diff host p with ⟨e | _, u⟩
      · exact .stopped (List.nil_append _).symm (.nil s) hp (fatal_of_diff (congrArg Prod.fst hp))
      · dsimp only
        have hu := ih u
        generalize inTurn (diff host) batch u = r at hu
        cases hu with
        | completed passes => exact .completed (.cons hp passes)
        | stopped split passes failure fatal =>
            exact .stopped (congrArg (p :: ·) split) (.cons hp passes) failure fatal

end Engine

end DirWatch
