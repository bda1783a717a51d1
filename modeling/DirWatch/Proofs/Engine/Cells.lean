import DirWatch.Proofs.Engine.Steady
import DirWatch.Proofs.Engine.Upkeep

/-! # Place by place

What an engine holds is told place by place: the directory, its mark and its watch. Retiring empties
the cells of some places, adopting fills the cells of others, and every other cell stays as it
is. -/

namespace DirWatch

variable {σ : Type} {host : Host σ} {sc : Scene} {holds : σ → Prop}
  {watched : σ → Set (List Component)}

/-- What an engine holds of a place. -/
@[ext]
structure Cell where
  directory : Option (TrackedDirectory Name)
  marked : Bool
  watched : Prop

namespace Cell

/-- Nothing is held of a place. -/
def empty : Cell := ⟨none, false, False⟩

/-- A directory is held as its first listing shows it. -/
def fresh (l : Listing Name) : Cell := ⟨some (.ofListing l), false, True⟩

/-- Cells of places `Out` may be emptied, and cells of places `In` may be filled. -/
inductive Reshape (sc : Scene) (Out In : List Name → Prop) (y : List Name) (c : Cell) : Cell → Prop
  | same : Reshape sc Out In y c c
  | left (out : Out y) (registered : c.directory ≠ none) : Reshape sc Out In y c .empty
  | entered (within : In y) (unregistered : c.directory = none) :
      Reshape sc Out In y c (.fresh (sc.listing y))

end Cell

/-- Registering places a watch. -/
theorem Host.HoldsWatches.register (hw : host.HoldsWatches watched) {r r' : Registry σ} {p : Path}
    (h : r.register host p = (.ok true, r')) :
    watched r'.machine = insert p.components (watched r.machine) := by
  obtain ⟨l, r₁, r₂, hwatch, hlist, rfl⟩ := Registry.register_eq_true h
  have hplaced := hw.placed p r.machine (congrArg Prod.fst hwatch)
  have hlisted := Registry.watched_list hw r₁ p
  rw [hlist] at hlisted
  rw [show (host.watch p r.machine).2 = r₁.machine from congrArg (·.2.machine) hwatch] at hplaced
  exact hlisted.trans hplaced

namespace Engine

/-- The cell of a place. -/
def cell (watched : σ → Set (List Component)) (s : Engine σ) (y : List Name) : Cell where
  directory := s.forest y
  marked := s.stale.contains (s.registry.root.below y)
  watched := (s.registry.root.below y).components ∈ watched s.registry.machine

/-- The watches that are on no place below the root. -/
def strays (watched : σ → Set (List Component)) (s : Engine σ) : Set (List Component) :=
  {c | c ∈ watched s.registry.machine ∧ ∀ y, c ≠ (s.registry.root.below y).components}

theorem components_below_inj {root : Path} {y z : List Name}
    (h : (root.below y).components = (root.below z).components) : y = z :=
  (Path.at_below root y).unique (h.trans (Path.at_below root z))

/-- Dropping the mark of one place leaves the marks of the others. -/
theorem contains_erase_apart {root p q : Path} {y z : List Name} (hp : Path.At root p y)
    (hq : Path.At root q z) (hz : z ≠ y) (m : OrderedMap Path Unit) :
    (m.erase p).contains q = m.contains q := by
  rw [OrderedMap.contains_erase, bne_iff_ne.2, Bool.true_and]
  exact fun he => hz (hq.unique (hp.of_compare_eq he))

/-- Nothing but one place changes. -/
structure Alters (watched : σ → Set (List Component)) (y : List Name) (s s' : Engine σ) : Prop where
  root : s'.registry.root = s.registry.root
  forest : ∀ z, z ≠ y → s'.forest z = s.forest z
  marks : ∀ q z, Path.At s.registry.root q z → z ≠ y → s'.stale.contains q = s.stale.contains q
  watches : ∀ c, c ≠ (s.registry.root.below y).components →
    (c ∈ watched s'.registry.machine ↔ c ∈ watched s.registry.machine)

namespace Alters

variable {y : List Name} {s s' s'' : Engine σ}

theorem trans (h : Alters watched y s s') (h' : Alters watched y s' s'') :
    Alters watched y s s'' where
  root := h'.root.trans h.root
  forest z hz := (h'.forest z hz).trans (h.forest z hz)
  marks q z hq hz := (h'.marks q z (h.root ▸ hq) hz).trans (h.marks q z hq hz)
  watches c hc := (h'.watches c (h.root ▸ hc)).trans (h.watches c hc)

theorem cell (h : Alters watched y s s') {z : List Name} (hz : z ≠ y) :
    s'.cell watched z = s.cell watched z := by
  refine Cell.ext (h.forest z hz) ?_ (propext ?_)
  · rw [Engine.cell, h.root]
    exact h.marks _ z (Path.at_below _ z) hz
  · rw [Engine.cell, h.root]
    exact h.watches _ fun he => hz (components_below_inj he)

theorem strays (h : Alters watched y s s') : s'.strays watched = s.strays watched := by
  ext c
  rw [Engine.strays, Engine.strays, h.root]
  exact and_congr_left fun hc => h.watches c (hc y)

end Alters

variable {h : host.Steady sc holds watched} {base s : Engine σ} {Out In : List Name → Prop}

/-- However a path is written, its mark is that of the place it leads to. -/
theorem contains_stale_eq (hf : h.laws.Fits s.registry) {p : Path} {y : List Name}
    (hp : Path.At sc.root p y) : s.stale.contains p = (s.cell watched y).marked :=
  s.stale.contains_congr (hp.compare_eq (hf.root_eq ▸ Path.at_below _ y))

/-! ## Cells that are emptied and filled -/

/-- Places `Out` were emptied and places `In` were filled. -/
structure Reshaped (h : host.Steady sc holds watched) (base : Engine σ)
    (Out In : List Name → Prop) (s : Engine σ) : Prop where
  fits : h.laws.Fits s.registry
  strays : s.strays watched = base.strays watched
  cells : ∀ y, Cell.Reshape sc Out In y (base.cell watched y) (s.cell watched y)

namespace Reshaped

theorem refl (hb : h.laws.Fits base.registry) : Reshaped h base Out In base :=
  ⟨hb, rfl, fun _ => .same⟩

/-- What is neither emptied nor filled stays. -/
theorem kept (hs : Reshaped h base Out In s) {y : List Name} (hout : ¬ Out y) (hin : ¬ In y) :
    s.cell watched y = base.cell watched y := by
  have hc := hs.cells y
  generalize s.cell watched y = c at hc
  cases hc with
  | same => rfl
  | left out => exact absurd out hout
  | entered within => exact absurd within hin

/-- What is not registered and was not emptied was not registered at first. -/
theorem none_before (hs : Reshaped h base Out In s) {y : List Name} (hn : s.forest y = none)
    (hout : ¬ Out y) : base.forest y = none := by
  have hc := hs.cells y
  generalize hcell : s.cell watched y = c at hc
  have hcn : c.directory = none := hcell ▸ hn
  cases hc with
  | same => exact hcn
  | left out => exact absurd out hout
  | entered within unregistered => exact unregistered

/-- The cell of one place is emptied or filled. -/
theorem alter (hs : Reshaped h base Out In s) {s' : Engine σ} {y : List Name}
    (ha : Alters watched y s s') (hf : h.laws.Fits s'.registry)
    (hy : Cell.Reshape sc Out In y (base.cell watched y) (s'.cell watched y)) :
    Reshaped h base Out In s' where
  fits := hf
  strays := ha.strays.trans hs.strays
  cells z := by
    by_cases hz : z = y
    · exact hz ▸ hy
    · rw [ha.cell hz]
      exact hs.cells z

end Reshaped

/-- Dropping a registered directory empties its cell. -/
theorem cell_cancel (hf : h.laws.Fits s.registry) {p : Path} {y : List Name} (hp : h.laws.Names p y)
    {d : TrackedDirectory Name} (hd : s.registry.get? p = some d) :
    Alters watched y s (s.cancel host p) ∧ h.laws.Fits (s.cancel host p).registry ∧
      (s.cancel host p).cell watched y = .empty := by
  obtain ⟨hfit, hforest, -, hstale⟩ := cancel_spec hf hp hd
  have hroot : (s.cancel host p).registry.root = s.registry.root :=
    hfit.root_eq.trans hf.root_eq.symm
  have hpy : p.components = (s.registry.root.below y).components := by
    rw [hf.root_eq, Path.at_below]
    exact hp.1
  have hmachine : watched (s.cancel host p).registry.machine =
      watched s.registry.machine \ {p.components} := by
    rw [registry_cancel hd]
    exact h.keeps.removed p s.registry.machine
  refine ⟨⟨hroot, ?_, ?_, ?_⟩, hfit, Cell.ext ?_ ?_ (propext ?_)⟩
  · intro z hz
    rw [hforest, Function.update_of_ne hz]
  · intro q z hq hz
    rw [hf.root_eq] at hq
    rw [hstale, contains_erase_apart hp.1 hq hz]
  · intro c hc
    rw [hmachine, Set.mem_sdiff, Set.mem_singleton_iff, hpy]
    exact and_iff_left hc
  · rw [cell, hforest, Function.update_self, Cell.empty]
  · rw [cell, hstale, hroot, OrderedMap.contains_erase, Path.compare_eq_iff.2 hpy.symm]
    rfl
  · rw [cell, hroot, hmachine, ← hpy, Cell.empty]
    exact iff_false_intro fun hc => hc.2 rfl

/-- Registering a directory that is not registered fills its cell. -/
theorem cell_register (hf : h.laws.Fits s.registry) {p : Path} {y : List Name}
    (hp : h.laws.Names p y) (hy : sc.Stands y) (hn : s.forest y = none)
    (hm : (s.cell watched y).marked = false) :
    ∃ s', s.register host p = (.ok true, s') ∧ Alters watched y s s' ∧ h.laws.Fits s'.registry ∧
      s'.cell watched y = .fresh (sc.listing y) := by
  rcases register_cases hf hp hn with
    ⟨e, s', hreg, hmay, -⟩ | ⟨l, s', hreg, hl, -, hfit, hforest, -, hstale⟩
  · exact absurd hmay (Host.Steady.not_mayFail hy)
  have hroot : s'.registry.root = s.registry.root := hfit.root_eq.trans hf.root_eq.symm
  have hpy : p.components = (s.registry.root.below y).components := by
    rw [hf.root_eq, Path.at_below]
    exact hp.1
  obtain rfl : l = sc.listing y := (Scene.of_look_eq_ok hl.symm).1
  have hregistry : s.registry.register host p = (.ok true, s'.registry) := by
    rw [register] at hreg
    obtain ⟨hres, rfl⟩ := Prod.mk.inj hreg
    exact Prod.ext hres rfl
  have hmachine := h.keeps.register hregistry
  refine ⟨s', hreg, ⟨hroot, ?_, ?_, ?_⟩, hfit, Cell.ext ?_ ?_ (propext ?_)⟩
  · intro z hz
    rw [hforest, Function.update_of_ne hz]
  · intro q z _ _
    rw [hstale]
  · intro c hc
    rw [hmachine, Set.mem_insert_iff, hpy]
    exact or_iff_right hc
  · rw [cell, hforest, Function.update_self, Cell.fresh]
  · rw [cell, hstale, hroot]
    exact hm
  · rw [cell, hroot, hmachine, ← hpy, Cell.fresh]
    exact iff_true_intro (Set.mem_insert _ _)

namespace Reshaped

variable (hmark : ∀ y, base.forest y = none → (base.cell watched y).marked = false)
  (hsep : ∀ y, Out y → ¬ In y)
include hmark hsep

/-- A place that may be filled and is not registered is as it was at first. -/
theorem unregistered (hs : Reshaped h base Out In s) {y : List Name} (hy : In y)
    (hn : s.forest y = none) :
    base.forest y = none ∧ (s.cell watched y).marked = false := by
  have hc := hs.cells y
  generalize hcell : s.cell watched y = c at hc
  have hcn : c.directory = none := hcell ▸ hn
  cases hc with
  | same => exact ⟨hcn, hmark y hcn⟩
  | left out => exact absurd hy (hsep y out)
  | entered => cases hcn

/-- Registering such a place fills its cell, unless it is registered. -/
theorem register (hs : Reshaped h base Out In s) {p : Path} {y : List Name}
    (hp : h.laws.Names p y) (hdir : sc.Stands y) (hy : In y) :
    s.register host p = (.ok false, s) ∨ ∃ s', s.register host p = (.ok true, s') ∧
      Reshaped h base Out In s' ∧ s'.cell watched y = .fresh (sc.listing y) := by
  by_cases hc : s.registry.contains p = true
  · left
    rw [Engine.register, Registry.register, if_pos hc]
  · right
    have hn : s.forest y = none := not_not.1 fun hne => hc ((hs.fits.contains_iff hp.1).2 hne)
    obtain ⟨hbase, hm⟩ := hs.unregistered hmark hsep hy hn
    obtain ⟨s', hreg, ha, hf, hfresh⟩ := cell_register hs.fits hp hdir hn hm
    refine ⟨s', hreg, hs.alter ha hf ?_, hfresh⟩
    rw [hfresh]
    exact .entered hy hbase

end Reshaped

/-- Retiring empties cells of places `Out`, with all that is below them, and adopting fills cells of
places `In`, with the observable directories below them. -/
theorem upkeep_reshaped (h : host.Steady sc holds watched) (base : Engine σ)
    (Out In : List Name → Prop)
    (hmark : ∀ y, base.forest y = none → (base.cell watched y).marked = false)
    (hout : ∀ y n, Out y → Out (y ++ [n])) (hdir : ∀ y, In y → sc.Stands y)
    (hin : ∀ y n, In y → sc.Stands (y ++ [n]) → In (y ++ [n])) (hsep : ∀ y, Out y → ¬ In y) :
    Upkeep host (Reshaped h base Out In) (fun p => ∃ y, h.laws.Names p y ∧ In y)
      (fun p => ∃ y, h.laws.Names p y ∧ Out y) (fun _ _ _ => True) where
  emit := by
    intro s kind p f hs _
    unfold emit
    split
    · exact hs
    · exact ⟨hs.fits.of_eq rfl rfl rfl hs.fits.machine, hs.strays, hs.cells⟩
  unmark := by
    rintro s p hs ⟨y, hp, hy⟩ hn
    have hn : s.forest y = none := (hs.fits.get?_eq hp.1).symm.trans hn
    have hroot := hs.fits.root_eq
    have hunmarked : (s.unmark p).cell watched y = ⟨none, false, (s.cell watched y).watched⟩ := by
      refine Cell.ext hn ?_ rfl
      change (s.stale.erase p).contains (s.registry.root.below y) = false
      rw [OrderedMap.contains_erase, hroot, (Path.at_below _ y).compare_eq hp.1]
      rfl
    have ha : Alters watched y s (s.unmark p) := by
      refine ⟨rfl, fun _ _ => rfl, ?_, fun _ _ => Iff.rfl⟩
      intro q z hq hz
      change (s.stale.erase p).contains q = _
      rw [hroot] at hq
      exact contains_erase_apart hp.1 hq hz _
    refine hs.alter ha hs.fits ?_
    · rw [hunmarked]
      have hc := hs.cells y
      generalize hcell : s.cell watched y = c at hc
      have hcn : c.directory = none := hcell ▸ hn
      cases hc with
      | same =>
          have he : base.cell watched y = ⟨none, false, (base.cell watched y).watched⟩ :=
            Cell.ext hcn (hmark y hcn) rfl
          rw [← he]
          exact .same
      | left out registered => exact .left out registered
      | entered within unregistered => cases hcn
  cancel := by
    rintro s p d hs ⟨y, hp, hy⟩ hd
    obtain ⟨ha, hf, hempty⟩ := cell_cancel hs.fits hp hd
    refine hs.alter ha hf ?_
    rw [hempty]
    have hd : s.forest y = some d := (hs.fits.get?_eq hp.1).symm.trans hd
    have hc := hs.cells y
    generalize hcell : s.cell watched y = c at hc
    have hcd : c.directory = some d := hcell ▸ hd
    cases hc with
    | same => exact .left hy (by rw [hcd]; simp)
    | left => cases hcd
    | entered within unregistered => exact absurd within (hsep y hy)
  left := by
    rintro s p d n i hs ⟨y, hp, hy⟩ hd hi
    exact ⟨trivial, fun _ => ⟨y ++ [n], hp.child n, hout y n hy⟩⟩
  register := by
    rintro s p hs ⟨y, hp, hy⟩
    rcases hs.register hmark hsep hp (hdir y hy) hy with hreg | ⟨s', hreg, hs', -⟩ <;> rw [hreg]
    · exact hs
    · exact hs'
  entered := by
    rintro s p s' d n i hs ⟨y, hp, hy⟩ hreg hd hi
    refine ⟨trivial, fun hdirectory => ⟨y ++ [n], hp.child n, hin y n hy ?_⟩⟩
    rcases hs.register hmark hsep hp (hdir y hy) hy with hreg' | ⟨s'', hreg', hs', hfresh⟩
    · cases hreg'.symm.trans hreg
    obtain rfl : s'' = s' := congrArg Prod.snd (hreg'.symm.trans hreg)
    have hforest : s''.forest y = some (.ofListing (sc.listing y)) := congrArg Cell.directory hfresh
    rw [hs'.fits.get?_eq hp.1] at hd
    obtain rfl := Option.some.inj (hforest.symm.trans hd)
    rw [TrackedDirectory.get?_items_ofListing] at hi
    obtain ⟨e, he, rfl⟩ := Option.map_eq_some_iff.1 hi
    refine (Scene.stands_iff_listing h.readable
      ⟨_, Scene.look_of_stands h.readable (hdir y hy)⟩).1 ?_
    rw [he]
    exact congrArg some hdirectory

end Engine

end DirWatch
