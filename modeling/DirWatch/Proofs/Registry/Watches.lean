import DirWatch.Machine.Scripted
import DirWatch.Proofs.Path.Below
import DirWatch.Proofs.OrderedMap
import DirWatch.Proofs.Registry.Opening
import Mathlib.Order.BooleanAlgebra.Set

/-! # Registered directories and watches

A registry places a watch for each directory that it registers and takes it away with the directory.
It never places a watch that is there already. -/

namespace DirWatch

variable {σ : Type}

/-- A machine that tells which paths are watched. Placing a watch adds a path or fails without
effect, removing one takes the path away if it is there, and nothing else matters. -/
structure Host.HoldsWatches (host : Host σ) (watched : σ → Set (List Component)) : Prop where
  metadata : ∀ p s, watched (host.metadata p s).2 = watched s
  target : ∀ p s, watched (host.target p s).2 = watched s
  readDirectory : ∀ p s, watched (host.readDirectory p s).2 = watched s
  placed : ∀ p s, (host.watch p s).1 = .ok () →
    watched (host.watch p s).2 = insert p.components (watched s)
  refused : ∀ p s e, (host.watch p s).1 = .error e → watched (host.watch p s).2 = watched s
  removed : ∀ p s, watched (host.unwatch p s).2 = watched s \ {p.components}

/-- What neither metadata nor entries that are asked for change, taking a listing does not change. -/
theorem Host.list_keeps {α : Type*} {f : σ → α} (host : Host σ)
    (metadata : ∀ p s, f (host.metadata p s).2 = f s)
    (readDirectory : ∀ p s, f (host.readDirectory p s).2 = f s) (observed : Name → Bool) (p : Path)
    (s : σ) : f (host.list observed p s).2 = f s := by
  unfold Host.list
  split
  · rfl
  have hm := metadata p s
  split
  · next s' he =>
      rw [he] at hm
      exact hm
  · next m s' he =>
      rw [he] at hm
      split
      · exact hm
      have hr := readDirectory p s'
      split
      · next s'' he =>
          rw [he] at hr
          exact hr.trans hm
      · next s'' he =>
          rw [he] at hr
          exact hr.trans hm

/-- A traversal that starts in some state leaves the watches alone, whatever happens to them between
its visits. -/
def Traversal.Spares (watched : σ → Set (List Component)) (s : σ) (t : Traversal σ) : Prop :=
  t.Keeps (fun held s => watched s = held) (fun _ _ => True) [] (watched s)

/-- A walk leaves the watches alone. -/
theorem Walk.spares_traverse {host : Host σ} {watched : σ → Set (List Component)}
    (h : host.HoldsWatches watched) (w : Walk) (s : σ) : (w.traverse host s).Spares watched s :=
  Keeping.traverse (D := fun _ _ => True)
    { metadata := fun _ p s hs => (h.metadata p s).trans hs
      target := fun _ p s hs => (h.target p s).trans hs
      readDirectory := fun _ p s hs => (h.readDirectory p s).trans hs
      mono := fun _ _ _ => ⟨fun _ _ => trivial, fun _ _ => trivial⟩
      root := fun _ => trivial
      first := fun _ _ => trivial
      entry := fun _ _ _ _ _ _ _ _ _ _ _ _ => ⟨trivial, fun _ => trivial⟩ } rfl

/-! ## What is watched after some actions -/

/-- What is watched after an action. -/
def Action.hold (held : Set (List Component)) : Action → Set (List Component)
  | .watched p (.ok ()) => insert p.components held
  | .unwatched p _ => held \ {p.components}
  | _ => held

/-- What is watched after some actions. -/
def held (actions : List Action) : Set (List Component) := actions.foldl Action.hold ∅

/-- No watch is asked for while it is there. -/
def NeverTwice (actions : List Action) : Prop :=
  ∀ before p result after, actions = before ++ .watched p result :: after →
    p.components ∉ held before

theorem held_concat (actions : List Action) (a : Action) :
    held (actions ++ [a]) = a.hold (held actions) := by
  simp [held]

theorem NeverTwice.concat {actions : List Action} {a : Action} (h : NeverTwice actions)
    (ha : ∀ p result, a = .watched p result → p.components ∉ held actions) :
    NeverTwice (actions ++ [a]) := by
  intro before p result after he
  rcases List.eq_nil_or_concat' after with rfl | ⟨after, b, rfl⟩
  · obtain ⟨rfl, rfl⟩ := List.append_singleton_inj.1 he
    exact ha p result rfl
  · rw [← List.cons_append, ← List.append_assoc] at he
    exact h before p result after (List.append_singleton_inj.1 he).1

/-! ## Sets of paths -/

namespace OrderedMap

universe v

variable {β : Type v}

/-- The paths of a map by their components. -/
def places (m : OrderedMap Path β) : Set (List Component) :=
  {c | ∃ p, m.contains p = true ∧ p.components = c}

theorem mem_places {m : OrderedMap Path β} {p : Path} :
    p.components ∈ m.places ↔ m.contains p = true := by
  constructor
  · rintro ⟨q, hq, hc⟩
    exact (m.contains_congr (Path.compare_eq_iff.2 hc.symm)).trans hq
  · exact fun hp => ⟨p, hp, rfl⟩

theorem places_empty : (∅ : OrderedMap Path β).places = ∅ := by
  ext c
  simp [places]

theorem places_insert (m : OrderedMap Path β) (p : Path) (b : β) :
    (m.insert p b).places = Insert.insert p.components m.places := by
  ext c
  constructor
  · rintro ⟨q, hq, rfl⟩
    rw [contains_insert, Bool.or_eq_true_iff] at hq
    rcases hq with hq | hq
    · exact .inl (Path.compare_eq_iff.1 (beq_iff_eq.1 hq))
    · exact .inr ⟨q, hq, rfl⟩
  · rintro (rfl | ⟨q, hq, rfl⟩)
    · refine ⟨p, ?_, rfl⟩
      rw [contains_insert, Path.compare_eq_iff.2 rfl]
      rfl
    · refine ⟨q, ?_, rfl⟩
      rw [contains_insert]
      exact Bool.or_eq_true_iff.2 (.inr hq)

theorem places_erase (m : OrderedMap Path β) (p : Path) :
    (m.erase p).places = m.places \ {p.components} := by
  ext c
  constructor
  · rintro ⟨q, hq, rfl⟩
    rw [contains_erase, Bool.and_eq_true, bne_iff_ne] at hq
    exact ⟨⟨q, hq.2, rfl⟩, fun he => hq.1 (Path.compare_eq_iff.2 he)⟩
  · rintro ⟨⟨q, hq, rfl⟩, hne⟩
    refine ⟨q, ?_, rfl⟩
    rw [contains_erase, Bool.and_eq_true, bne_iff_ne]
    exact ⟨fun he => hne (Path.compare_eq_iff.1 he), hq⟩

end OrderedMap

namespace ScriptedMachine

/-- A machine with a scripted watch service tells which paths are watched. -/
theorem holdsWatches : host.HoldsWatches fun m => m.watched.places where
  metadata _ _ := rfl
  target _ _ := rfl
  readDirectory _ _ := rfl
  placed p m h := by
    change (watch p m).1 = _ at h
    change (watch p m).2.watched.places = _
    unfold watch at h ⊢
    dsimp only at h ⊢
    split at h
    · cases h
    · cases h
    · split <;> exact OrderedMap.places_insert _ _ _
    · exact OrderedMap.places_insert _ _ _
  refused p m e h := by
    change (watch p m).1 = _ at h
    change (watch p m).2.watched.places = _
    unfold watch at h ⊢
    dsimp only at h ⊢
    split at h
    · rfl
    · rfl
    · split at h <;> cases h
    · cases h
  removed p m := by
    change (unwatch p m).2.watched.places = _
    unfold unwatch
    split
    · exact OrderedMap.places_erase _ _
    · next hp => rw [Set.sdiff_singleton_eq_self (fun h => hp (OrderedMap.mem_places.1 h))]

end ScriptedMachine

namespace Registry

/-- The registered directories by the components of their paths. -/
def registered (r : Registry σ) : Set (List Component) := r.directories.places

theorem registered_congr {r r' : Registry σ} (h : r'.directories = r.directories) :
    r'.registered = r.registered := congrArg OrderedMap.places h

/-! ## Requests -/

/-- The journal tells what is watched, and no watch was asked for while it was there. -/
structure Accounted (watched : σ → Set (List Component)) (r : Registry σ) : Prop where
  held : held r.journal = watched r.machine
  once : NeverTwice r.journal

variable {host : Host σ} {watched : σ → Set (List Component)}

theorem Accounted.record {r : Registry σ} (h : Accounted watched r) {a : Action} {machine : σ}
    (hm : watched machine = a.hold (watched r.machine))
    (ha : ∀ p result, a = .watched p result → p.components ∉ watched r.machine) :
    Accounted watched ({ r with machine }.record a) where
  held := (held_concat r.journal a).trans ((congrArg a.hold h.held).trans hm.symm)
  once := h.once.concat fun p result he => h.held ▸ ha p result he

section Requests

variable (h : host.HoldsWatches watched) {r : Registry σ} {p : Path}
include h

theorem watched_host_list (observed : Name → Bool) (p : Path) (s : σ) :
    watched (host.list observed p s).2 = watched s :=
  host.list_keeps h.metadata h.readDirectory observed p s

theorem watched_list (r : Registry σ) (p : Path) :
    watched (r.list host p).2.machine = watched r.machine :=
  watched_host_list h _ p r.machine

theorem watched_unwatch (r : Registry σ) (p : Path) :
    watched (r.unwatch host p).2.machine = watched r.machine \ {p.components} :=
  h.removed p r.machine

theorem Accounted.list (hr : Accounted watched r) : Accounted watched (r.list host p).2 :=
  hr.record (watched_list h r p) (by simp)

theorem Accounted.unwatch (hr : Accounted watched r) : Accounted watched (r.unwatch host p).2 :=
  hr.record (watched_unwatch h r p) (by simp)

/-- What comes of placing a watch. -/
theorem watch_cases (hr : Accounted watched r) (hp : p.components ∉ watched r.machine) :
    Accounted watched (r.watch host p).2 ∧
      (((r.watch host p).1 = .ok () ∧
          watched (r.watch host p).2.machine = insert p.components (watched r.machine)) ∨
        ∃ e, (r.watch host p).1 = .error e ∧
          watched (r.watch host p).2.machine = watched r.machine) := by
  have hplaced := h.placed p r.machine
  have hrefused := h.refused p r.machine
  unfold watch
  rcases hw : host.watch p r.machine with ⟨e | _, machine⟩
  · rw [hw] at hrefused
    refine ⟨hr.record (hrefused e rfl) ?_, .inr ⟨e, rfl, hrefused e rfl⟩⟩
    rintro q result he
    obtain ⟨rfl, -⟩ := Action.watched.inj he
    exact hp
  · rw [hw] at hplaced
    refine ⟨hr.record (hplaced rfl) ?_, .inl ⟨rfl, hplaced rfl⟩⟩
    rintro q result he
    obtain ⟨rfl, -⟩ := Action.watched.inj he
    exact hp

end Requests

/-! ## In step -/

/-- Registered directories and watches are in step, but for directories that have `lost` theirs. -/
structure InStep (watched : σ → Set (List Component)) (lost : Set (List Component))
    (r : Registry σ) : Prop extends Accounted watched r where
  contained : watched r.machine ⊆ r.registered
  complete : r.registered ⊆ watched r.machine ∪ lost

namespace InStep

variable {lost : Set (List Component)} {r : Registry σ} {p : Path}

theorem mono {lost' : Set (List Component)} (h : InStep watched lost r) (hl : lost ⊆ lost') :
    InStep watched lost' r where
  toAccounted := h.toAccounted
  contained := h.contained
  complete := h.complete.trans (Set.union_subset_union_right _ hl)

theorem weaken (h : InStep watched lost r) : InStep watched Set.univ r :=
  h.mono (Set.subset_univ lost)

/-- What neither concerns the watches nor the directories. -/
theorem of_eq {r' : Registry σ} (h : InStep watched lost r) (ha : Accounted watched r')
    (hd : r'.directories = r.directories) (hm : watched r'.machine = watched r.machine) :
    InStep watched lost r' where
  toAccounted := ha
  contained := by rw [registered_congr hd, hm]; exact h.contained
  complete := by rw [registered_congr hd, hm]; exact h.complete

theorem record (h : InStep watched lost r) {a : Action}
    (ha : a.hold (watched r.machine) = watched r.machine)
    (hw : ∀ p result, a ≠ .watched p result) : InStep watched lost (r.record a) :=
  h.of_eq (h.toAccounted.record ha.symm fun p result he => absurd he (hw p result)) rfl rfl

theorem put (h : InStep watched lost r) (hp : r.contains p = true) (d : TrackedDirectory Name) :
    InStep watched lost { r with directories := r.directories.insert p d } := by
  have he : registered { r with directories := r.directories.insert p d } = r.registered := by
    exact (OrderedMap.places_insert _ _ _).trans
      (Set.insert_eq_of_mem (OrderedMap.mem_places.2 hp))
  exact { held := h.held, once := h.once, contained := he ▸ h.contained, complete := he ▸ h.complete }

section Requests

variable (hh : host.HoldsWatches watched)
include hh

theorem list (h : InStep watched lost r) : InStep watched lost (r.list host p).2 :=
  h.of_eq (h.toAccounted.list hh) rfl (watched_list hh r p)

/-- Dropping a directory also mends what was wrong with its watch. -/
theorem cancel (h : InStep watched (insert p.components lost) r) :
    InStep watched lost (r.cancel host p).2 := by
  unfold Registry.cancel
  cases hd : r.get? p with
  | none =>
      have hp : p.components ∉ r.registered := by
        rw [registered, OrderedMap.mem_places, OrderedMap.contains_eq_isSome]
        change ¬ (r.get? p).isSome = true
        simp [hd]
      refine ⟨h.toAccounted, h.contained, ?_⟩
      intro c hc
      rcases h.complete hc with hw | rfl | hl
      · exact .inl hw
      · exact absurd hc hp
      · exact .inr hl
  | some d =>
      have hr : Accounted watched { r with directories := r.directories.erase p } :=
        ⟨h.held, h.once⟩
      refine ⟨hr.unwatch hh, ?_, ?_⟩
      · rw [registered, unwatch_directories, OrderedMap.places_erase, watched_unwatch hh]
        exact Set.sdiff_subset_sdiff_left h.contained
      · rw [registered, unwatch_directories, OrderedMap.places_erase, watched_unwatch hh]
        rintro c ⟨hc, hne⟩
        rcases h.complete hc with hw | rfl | hl
        · exact .inl ⟨hw, hne⟩
        · exact absurd rfl hne
        · exact .inr hl

theorem register (h : InStep watched lost r) : InStep watched lost (r.register host p).2 := by
  unfold Registry.register
  split
  · exact h
  next hc =>
  have hp : p.components ∉ watched r.machine := fun hp => hc (OrderedMap.mem_places.1 (h.contained hp))
  obtain ⟨ha, hw⟩ := watch_cases hh h.toAccounted hp
  split
  · next e r' he =>
      rw [he] at ha hw
      obtain ⟨-, -, hm⟩ := hw.resolve_left (by simp)
      have hd : r'.directories = r.directories := by rw [← watch_directories host r p, he]
      exact h.of_eq ha hd hm
  · next r' he =>
      rw [he] at ha hw
      obtain ⟨-, hm⟩ := hw.resolve_right (by simp)
      have hd : r'.directories = r.directories := by rw [← watch_directories host r p, he]
      have hal := ha.list hh (p := p)
      have hml := watched_list hh r' p
      have hdl := list_directories host r' p
      dsimp only at hm hal hml hdl ⊢
      split
      · next e r'' hl =>
          rw [hl] at hal hml hdl
          refine h.of_eq (hal.unwatch hh) (hdl.trans hd) ?_
          rw [watched_unwatch hh, hml, hm]
          exact Set.insert_sdiff_self_of_notMem hp
      · next l r'' hl =>
          rw [hl] at hal hml hdl
          have he' : registered { r'' with directories := r''.directories.insert p (.ofListing l) } =
              insert p.components r.registered := by
            rw [← registered_congr (hdl.trans hd)]
            exact OrderedMap.places_insert _ _ _
          refine ⟨⟨hal.held, hal.once⟩, ?_, ?_⟩
          · rw [he', hml, hm]
            exact Set.insert_subset_insert h.contained
          · rw [he', hml, hm, Set.insert_union]
            exact Set.insert_subset_insert h.complete

/-- A watch that is placed anew is there afterwards, or lost. -/
theorem rearm (h : InStep watched lost r) (hp : r.contains p = true) :
    ((r.rearm host p).1 = .ok () → InStep watched lost (r.rearm host p).2) ∧
      ∀ e, (r.rearm host p).1 = .error e →
        InStep watched (insert p.components lost) (r.rearm host p).2 := by
  have hm := watched_unwatch hh r p
  have hp : p.components ∈ r.registered := OrderedMap.mem_places.2 hp
  have hdir : (r.rearm host p).2.registered = r.registered := registered_congr rfl
  obtain ⟨ha, hw⟩ := watch_cases hh (h.toAccounted.unwatch hh (p := p)) (p := p) (by
    rw [hm]
    exact fun hc => hc.2 rfl)
  constructor
  · intro hok
    obtain ⟨-, hw⟩ := hw.resolve_right (by
      rintro ⟨e, he, -⟩
      rw [Registry.rearm, he] at hok
      cases hok)
    rw [hm, Set.insert_sdiff_singleton] at hw
    refine ⟨ha, ?_, ?_⟩
    · rw [hdir, Registry.rearm, hw]
      exact Set.insert_subset hp h.contained
    · rw [hdir, Registry.rearm, hw]
      exact h.complete.trans (Set.union_subset_union_left _ (Set.subset_insert _ _))
  · intro e he
    obtain ⟨-, -, hw⟩ := hw.resolve_left (by
      rintro ⟨hok, -⟩
      rw [Registry.rearm, hok] at he
      cases he)
    rw [hm] at hw
    refine ⟨ha, ?_, ?_⟩
    · rw [hdir, Registry.rearm, hw]
      exact Set.sdiff_subset.trans h.contained
    · rw [hdir, Registry.rearm, hw]
      intro c hc
      by_cases hcp : c = p.components
      · exact .inr (.inl hcp)
      · rcases h.complete hc with hw | hl
        · exact .inl ⟨hw, hcp⟩
        · exact .inr (.inr hl)

omit hh in
theorem directories_foldl_unwatch (host : Host σ) (ps : List Path) (r : Registry σ) :
    (ps.foldl (fun r p => (r.unwatch host p).2) r).directories = r.directories := by
  induction ps generalizing r with
  | nil => rfl
  | cons p ps ih => exact (ih _).trans (unwatch_directories host r p)

theorem watched_foldl_unwatch (ps : List Path) (r : Registry σ) :
    watched (ps.foldl (fun r p => (r.unwatch host p).2) r).machine =
      watched r.machine \ {c | ∃ p ∈ ps, p.components = c} := by
  induction ps generalizing r with
  | nil => simp [Set.sdiff_empty]
  | cons p ps ih =>
      refine (ih _).trans ?_
      rw [watched_unwatch hh]
      ext c
      simp only [Set.mem_sdiff, Set.mem_singleton_iff, Set.mem_ofPred_eq, List.mem_cons,
        exists_eq_or_imp, not_or, eq_comm (a := c), and_assoc]

theorem accounted_foldl_unwatch (ps : List Path) {r : Registry σ} (h : Accounted watched r) :
    Accounted watched (ps.foldl (fun r p => (r.unwatch host p).2) r) := by
  induction ps generalizing r with
  | nil => exact h
  | cons p ps ih => exact ih (h.unwatch hh (p := p))

/-- Where what is watched is registered, dropping every directory takes every watch away. -/
theorem watched_cancelAll (h : watched r.machine ⊆ r.registered) :
    watched (r.cancelAll host).2.machine = ∅ := by
  refine (watched_foldl_unwatch hh r.paths _).trans (Set.sdiff_eq_empty.2 ?_)
  intro c hc
  obtain ⟨p, hp, rfl⟩ := h hc
  obtain ⟨q, hq, he⟩ := OrderedMap.contains_iff.1 hp
  exact ⟨q, hq, (Path.compare_eq_iff.1 he).symm⟩

omit hh in
theorem directories_cancelAll (host : Host σ) (r : Registry σ) :
    (r.cancelAll host).2.directories = ∅ := directories_foldl_unwatch host r.paths _

/-- Dropping every directory takes every watch away, also those of which it was not known. -/
theorem cancelAll (h : InStep watched lost r) :
    (r.cancelAll host).2.registered = ∅ ∧ watched (r.cancelAll host).2.machine = ∅ ∧
      InStep watched ∅ (r.cancelAll host).2 := by
  have hr : Accounted watched { r with directories := ∅ } := ⟨h.held, h.once⟩
  have hreg : (r.cancelAll host).2.registered = ∅ :=
    (congrArg OrderedMap.places (directories_cancelAll host r)).trans OrderedMap.places_empty
  have hw := watched_cancelAll hh h.contained
  refine ⟨hreg, hw, accounted_foldl_unwatch hh r.paths hr, ?_, ?_⟩
  · rw [hw, hreg]
  · rw [hreg]
    exact Set.empty_subset _

/-- Registering what a walk yields; where this ends with an error, no directory is left. -/
theorem registerTree {t : Traversal σ} (ht : t.Spares watched r.machine)
    (h : InStep watched lost r) : InStep watched lost (Registry.registerTree host t r).2 :=
  registerTree_keeps (P := fun _ => True) ht rfl (fun _ _ => ⟨_, rfl⟩)
    (fun _ _ _ hr hc hm =>
      hr.of_eq ⟨hr.held.trans (hc.trans hm.symm), hr.once⟩ rfl (hm.trans hc.symm))
    (fun _ _ hr _ => hr.register hh)
    (fun _ hr => (hr.cancelAll hh).2.2.mono (Set.empty_subset _)) h

end Requests

end InStep

end Registry

end DirWatch
