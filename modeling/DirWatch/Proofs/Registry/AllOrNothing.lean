import DirWatch.Proofs.Engine.Watches
import DirWatch.Proofs.Watcher

/-! # The first registration succeeds or leaves nothing

When a tree is opened, directories that cannot be registered are left out, but for the root. A fatal
failure, or that of the root, gives up whatever is registered by then. -/

namespace DirWatch

variable {σ : Type} {host : Host σ} {watched : σ → Set (List Component)}

/-- A walk can yield some visits and then be over. -/
inductive Traversal.Ends : List Visit → Traversal σ → Prop
  | finished {s : σ} : Ends [] (.finished s)
  | yielded {v : Visit} {visits : List Visit} {s s' : σ} {resume : σ → Traversal σ}
      (rest : Ends visits (resume s')) : Ends (v :: visits) (.yielded v s resume)

namespace Registry

/-! ## Attempts -/

/-- The error of a result, if it is fatal. -/
def fatality? {α : Type} : Except Error α → Option Error
  | .ok _ => none
  | .error e => if e.isFatal then some e else none

/-- What came of registering a directory. -/
abbrev Attempt := Path × Except Error Bool

/-- Registers what a walk yields until that fails fatally, and tells what came of each directory. -/
def attempts (host : Host σ) : Traversal σ → Registry σ → List Attempt × Registry σ
  | .finished machine, r => ([], { r with machine })
  | .yielded v machine resume, r =>
    let (result, r) := { r with machine }.register host v.path
    match fatality? result with
    | some _ => ([(v.path, result)], r)
    | none =>
      let (rest, r) := attempts host (resume r.machine) r
      ((v.path, result) :: rest, r)

/-- The first fatal error among some attempts. -/
def firstFatal (tried : List Attempt) : Option Error := tried.findSome? fun a => fatality? a.2

/-- The directories whose attempts succeeded. -/
def succeeded (tried : List Attempt) : Set (List Component) :=
  {c | ∃ a ∈ tried, a.2.isOk = true ∧ a.1.components = c}

@[simp] theorem succeeded_nil : succeeded [] = ∅ := by
  ext c
  simp [succeeded]

theorem succeeded_cons (a : Attempt) (tried : List Attempt) :
    succeeded (a :: tried) = succeeded [a] ∪ succeeded tried := by
  ext c
  simp [succeeded]

@[simp] theorem succeeded_ok (p : Path) (new : Bool) :
    succeeded [(p, .ok new)] = {p.components} := by
  ext c
  simp only [succeeded, List.mem_singleton, exists_eq_left]
  exact ⟨fun hc => hc.2.symm, fun hc => ⟨rfl, hc.symm⟩⟩

@[simp] theorem succeeded_error (p : Path) (e : Error) : succeeded [(p, .error e)] = ∅ := by
  ext c
  simp [succeeded, Except.isOk, Except.toBool]

/-- Without a fatal failure every directory that the walk yields has its turn. -/
theorem attempts_paths {t : Traversal σ} {r : Registry σ}
    (h : firstFatal (attempts host t r).1 = none) :
    ∃ visits, t.Ends visits ∧ (attempts host t r).1.map (·.1) = visits.map (·.path) := by
  induction t generalizing r with
  | finished machine => exact ⟨[], .finished, rfl⟩
  | yielded v machine resume ih =>
      unfold attempts at h ⊢
      cases hf : fatality? ({ r with machine }.register host v.path).1 with
      | some e => simp [firstFatal, hf] at h
      | none =>
          simp only [firstFatal, hf, List.findSome?_cons] at h
          obtain ⟨visits, hends, hpaths⟩ := ih _ h
          exact ⟨v :: visits, .yielded hends, by simp [hf, hpaths]⟩

theorem root_register (host : Host σ) (r : Registry σ) (p : Path) :
    (r.register host p).2.root = r.root :=
  register_keeps (I := fun r' : Registry σ => r'.root = r.root) (fun _ h => h) (fun _ h => h)
    (fun _ h => h) (fun _ _ _ _ h _ => h) rfl

/-- A tree is opened by attempts. A fatal one decides, else it depends on the root. -/
theorem registerTree_eq (t : Traversal σ) (r : Registry σ) :
    r.registerTree host t =
      match firstFatal (attempts host t r).1 with
      | some e => (.error e, ((attempts host t r).2.cancelAll host).2)
      | none =>
        if (attempts host t r).2.contains r.root then (.ok (), (attempts host t r).2)
        else (.error (.watcher ("Failed to watch root " ++ r.root.quoted)),
          ((attempts host t r).2.cancelAll host).2) := by
  induction t generalizing r with
  | finished machine => rfl
  | yielded v machine resume ih =>
      have hroot : ({ r with machine }.register host v.path).2.root = r.root :=
        root_register host _ v.path
      rw [registerTree, attempts]
      generalize { r with machine }.register host v.path = attempt at hroot
      obtain ⟨e | new, r'⟩ := attempt
      · cases he : e.isFatal with
        | true => simp [fatality?, firstFatal, he]
        | false => simp [fatality?, firstFatal, he, ih, ← hroot]
      · simp [fatality?, firstFatal, ih, ← hroot]

/-! ## What is registered and watched -/

section Balanced

variable (h : host.HoldsWatches watched)
include h

/-- Registering a directory adds it and its watch, or neither. -/
theorem register_balanced {r : Registry σ} (hr : watched r.machine = r.registered) (p : Path) :
    (r.register host p).2.registered =
        r.registered ∪ succeeded [(p, (r.register host p).1)] ∧
      watched (r.register host p).2.machine = (r.register host p).2.registered := by
  by_cases hc : r.contains p = true
  · have hp : p.components ∈ r.registered := OrderedMap.mem_places.2 hc
    simp [register, hc, hr, hp]
  have hp : p.components ∉ r.registered := fun hp => hc (OrderedMap.mem_places.1 hp)
  have hplaced : (r.watch host p).1 = .ok () → watched (r.watch host p).2.machine = _ :=
    h.placed p r.machine
  have hrefused : ∀ e, (r.watch host p).1 = .error e → watched (r.watch host p).2.machine = _ :=
    h.refused p r.machine
  have hdir := watch_directories host r p
  unfold register
  rw [if_neg hc]
  generalize r.watch host p = placed at hplaced hrefused hdir ⊢
  rcases placed with ⟨e | _, r₁⟩
  · have hreg : r₁.registered = r.registered := registered_congr hdir
    simp only [succeeded_error, Set.union_empty]
    exact ⟨hreg, (hrefused e rfl).trans (hr.trans hreg.symm)⟩
  have hplaced := hplaced rfl
  have hlisted := watched_list h r₁ p
  have hdir' := list_directories host r₁ p
  dsimp only at hplaced hdir ⊢
  generalize r₁.list host p = taken at hlisted hdir' ⊢
  rcases taken with ⟨e | l, r₂⟩
  · -- the watch was placed before the listing failed, and is taken away again
    have hreg : (r₂.unwatch host p).2.registered = r.registered :=
      registered_congr (hdir'.trans hdir)
    rw [succeeded_error, Set.union_empty, hreg, watched_unwatch h, hlisted, hplaced, hr]
    exact ⟨rfl, Set.insert_sdiff_self_of_notMem hp⟩
  · have hreg : registered { r₂ with directories := r₂.directories.insert p (.ofListing l) } =
        insert p.components r.registered :=
      (OrderedMap.places_insert _ _ _).trans (congrArg _ (registered_congr (hdir'.trans hdir)))
    rw [succeeded_ok, Set.union_singleton, hreg, hlisted, hplaced, hr]
    exact ⟨rfl, rfl⟩

/-- After some attempts exactly the directories are added that could be registered. -/
theorem attempts_balanced {t : Traversal σ} {r : Registry σ} (ht : t.Spares watched r.machine)
    (hr : watched r.machine = r.registered) :
    (attempts host t r).2.registered = r.registered ∪ succeeded (attempts host t r).1 ∧
      watched (attempts host t r).2.machine = (attempts host t r).2.registered := by
  unfold Traversal.Spares at ht
  generalize hheld : watched r.machine = held, ([] : List Visit) = before at ht
  induction ht generalizing r with
  | finished kept =>
      refine ⟨by rw [attempts, succeeded_nil, Set.union_empty]; rfl, ?_⟩
      exact kept.trans (hheld.symm.trans hr)
  | @yielded before held v machine resume kept visit rest ih =>
      have hmoved : watched machine = r.registered := kept.trans (hheld.symm.trans hr)
      obtain ⟨hreg, hwatched⟩ := register_balanced h (r := { r with machine }) hmoved v.path
      unfold attempts
      cases hf : fatality? ({ r with machine }.register host v.path).1 with
      | some e => simpa [hf] using ⟨hreg, hwatched⟩
      | none =>
          obtain ⟨hregs, hwatcheds⟩ := ih _ _ rfl hwatched rfl
          simp only [hf]
          refine ⟨?_, hwatcheds⟩
          rw [succeeded_cons, ← Set.union_assoc]
          exact hregs.trans (congrArg (· ∪ _) hreg)

/-- What opening a tree comes to after some attempts. It succeeds unless an attempt was fatal or the
root is left out, and then what succeeded is registered and watched. Otherwise the error is the
fatal one if there is one, and nothing is registered or watched. -/
structure Verdict (watched : σ → Set (List Component)) (root : Path) (tried : List Attempt)
    (opened : Except Error Unit × Registry σ) : Prop where
  ok_iff : opened.1 = .ok () ↔ firstFatal tried = none ∧ root.components ∈ succeeded tried
  all : opened.1 = .ok () →
    opened.2.registered = succeeded tried ∧ watched opened.2.machine = succeeded tried
  nothing : ∀ e, opened.1 = .error e →
    e = (firstFatal tried).getD (.watcher ("Failed to watch root " ++ root.quoted)) ∧
      opened.2.directories = ∅ ∧ watched opened.2.machine = ∅

theorem verdict_registerTree {t : Traversal σ} {r : Registry σ} (ht : t.Spares watched r.machine)
    (hd : r.directories = ∅) (hw : watched r.machine = ∅) :
    Verdict watched r.root (attempts host t r).1 (r.registerTree host t) := by
  have hempty : r.registered = ∅ := (congrArg OrderedMap.places hd).trans OrderedMap.places_empty
  obtain ⟨hreg, hwatched⟩ := attempts_balanced h ht (hw.trans hempty.symm)
  rw [hempty, Set.empty_union] at hreg
  have hgone := InStep.directories_cancelAll host (attempts host t r).2
  have hfree := InStep.watched_cancelAll h hwatched.subset
  have hroot : (attempts host t r).2.contains r.root = true ↔
      r.root.components ∈ succeeded (attempts host t r).1 := by
    rw [← hreg]
    exact OrderedMap.mem_places.symm
  rw [registerTree_eq]
  cases hf : firstFatal (attempts host t r).1 with
  | some e => exact ⟨by simp [hf], nofun, by simp [hf, hgone, hfree]⟩
  | none =>
      dsimp only
      split
      · next hc => exact ⟨by simp [hf, hroot.1 hc], fun _ => ⟨hreg, hwatched.trans hreg⟩, nofun⟩
      · next hc => exact ⟨by simp [hf, mt hroot.2 hc], nofun, by simp [hf, hgone, hfree]⟩

end Balanced

end Registry

/-! ## Starting a watcher -/

namespace Watcher

open Registry

theorem verdict_start {platform : Platform σ} (h : platform.toHost.HoldsWatches watched)
    {w : Watcher σ} {machine : σ} {journal : List Action} (hs : w.state = .idle machine journal) :
    (∀ backend opened, platform.openService w.config machine = (.ok backend, opened) →
      let walk := w.initialWalk.traverse platform.toHost opened
      let r : Registry σ := { root := w.root, filter := w.filter, machine := opened, journal }
      walk.Spares watched opened ∧
        (w.start platform).1 = (r.registerTree platform.toHost walk).1) ∧
      ∀ e, (w.start platform).1 = .error e → ∃ machine' journal',
        (w.start platform).2 = { w with state := .idle machine' journal' } ∧
          (watched (platform.openService w.config machine).2 = ∅ → watched machine' = ∅) := by
  unfold start
  rw [hs]
  dsimp only
  rcases platform.openService w.config machine with ⟨e | backend, opened⟩
  · exact ⟨nofun, fun _ _ => ⟨opened, journal, rfl, id⟩⟩
  have hwalk := Walk.spares_traverse h w.initialWalk opened
  have hverdict := verdict_registerTree h
    (r := { root := w.root, filter := w.filter, machine := opened, journal }) hwalk rfl
  dsimp only
  refine ⟨?_, ?_⟩
  · intro _ _ he
    obtain ⟨-, rfl⟩ := Prod.mk.inj he
    refine ⟨hwalk, ?_⟩
    split
    · next hr => rw [hr]
    · next hr => rw [hr]
  · intro e
    split
    · next e' r hr =>
        rintro -
        refine ⟨r.machine, r.journal, rfl, fun hw => ?_⟩
        have hnothing := (hverdict hw).nothing
        rw [hr] at hnothing
        exact (hnothing e' rfl).2.2
    · nofun

/-- The first registration is all or nothing. Whatever directories a walk yields, whatever happens
between its visits and whatever the machine answers on the way, opening a tree registers and watches
what could be registered, the root among it, or it fails and leaves nothing behind. A start does
this with its own walk, and a start that fails leaves the watcher idle. -/
theorem all_or_nothing {platform : Platform σ} (h : platform.toHost.HoldsWatches watched) :
    (∀ (r : Registry σ) (walk : Traversal σ), walk.Spares watched r.machine → r.directories = ∅ →
      watched r.machine = ∅ →
      let tried := (attempts platform.toHost walk r).1
      (firstFatal tried = none →
        ∃ visits, walk.Ends visits ∧ tried.map (·.1) = visits.map (·.path)) ∧
        Verdict watched r.root tried (r.registerTree platform.toHost walk)) ∧
      ∀ (w : Watcher σ) machine journal, w.state = .idle machine journal →
        (∀ backend opened, platform.openService w.config machine = (.ok backend, opened) →
          let walk := w.initialWalk.traverse platform.toHost opened
          let r : Registry σ := { root := w.root, filter := w.filter, machine := opened, journal }
          walk.Spares watched opened ∧
            (w.start platform).1 = (r.registerTree platform.toHost walk).1) ∧
        ∀ e, (w.start platform).1 = .error e → ∃ machine' journal',
          (w.start platform).2 = { w with state := .idle machine' journal' } ∧
            (watched (platform.openService w.config machine).2 = ∅ → watched machine' = ∅) := by
  constructor
  · intro r walk ht hd hw
    exact ⟨attempts_paths, verdict_registerTree h ht hd hw⟩
  · intro w machine journal hs
    exact verdict_start h hs

/-- A machine with the directories `a`, `b` and `x` in the root `/r`, of which `b` is gone when it
is looked up. -/
def atticPlatform : Platform ScriptedMachine where
  toHost :=
    { ScriptedMachine.host with
      metadata := fun p m =>
        (if p = .ofString "/r/b" then .error .notFound else .ok { isDirectory := true }, m)
      readDirectory := fun p m =>
        (if p = .ofString "/r" then
          .ok ([Engine.nameA, Engine.nameB, Engine.nameX].map fun n =>
            ⟨n, true, .ok { isDirectory := true }⟩)
        else .ok [], m) }
  openService _ m := (.ok .native, m)

theorem holdsWatches_attic : atticPlatform.toHost.HoldsWatches fun m => m.watched.places :=
  { ScriptedMachine.holdsWatches with
    metadata := fun _ _ => rfl
    readDirectory := fun _ _ => rfl }

/-- Of the directories of a root, `a` cannot be watched for now, and `b` is gone once it is watched.
The tree is opened without them, and not at all if there is no watch left for the last one. -/
theorem all_or_nothing_attic :
    let host := atticPlatform.toHost
    let places := fun m : ScriptedMachine => m.watched.places
    let faults := (∅ : OrderedMap Path Fault).insert (.ofString "/r/a") .transient
    let attic : Registry ScriptedMachine := { root := .ofString "/r", machine := { faults } }
    let full : Registry ScriptedMachine :=
      { attic with machine := attic.machine.setFault (.ofString "/r/x") (some .limit) }
    let walk : Walk := { root := .ofString "/r", directoriesOnly := true, includeRoot := true }
    let opened := attic.registerTree host (walk.traverse host attic.machine)
    let refused := full.registerTree host (walk.traverse host full.machine)
    host.HoldsWatches places ∧
      opened.1 = .ok () ∧ opened.2.paths = ["/r", "/r/x"].map Path.ofString ∧
      places opened.2.machine = opened.2.registered ∧
      refused.1 = .error (.watchService "watch limit") ∧ refused.2.directories = ∅ ∧
      places refused.2.machine = ∅ := by
  intro host places faults attic full walk opened refused
  have hspares : ∀ m, (walk.traverse host m).Spares places m :=
    Walk.spares_traverse holdsWatches_attic walk
  have hopened : Verdict places attic.root
      (attempts host (walk.traverse host attic.machine) attic).1 opened :=
    ((all_or_nothing holdsWatches_attic).1 attic _ (hspares _) rfl OrderedMap.places_empty).2
  have hrefused : Verdict places full.root
      (attempts host (walk.traverse host full.machine) full).1 refused :=
    ((all_or_nothing holdsWatches_attic).1 full _ (hspares _) rfl OrderedMap.places_empty).2
  obtain ⟨hok, hpaths, herror⟩ :
      opened.1 = .ok () ∧ opened.2.paths = ["/r", "/r/x"].map Path.ofString ∧
        refused.1 = .error (.watchService "watch limit") := by decide +kernel
  obtain ⟨hreg, hwatched⟩ := hopened.all hok
  exact ⟨holdsWatches_attic, hok, hpaths, hwatched.trans hreg.symm, herror,
    (hrefused.nothing _ herror).2⟩

end Watcher

end DirWatch
