import DirWatch.Proofs.Engine.Steps

/-! # Watches that are on directories

A native watch is on a directory, not on the path under which it was asked for: two paths of one
directory share it, and removing either takes it from both. This is what the steps of a pass do to
such watches. -/

namespace DirWatch

variable {σ : Type} {host : Host σ} {sc : Scene} {holds : σ → Prop}
  {watched : σ → Set (List Component)} {alive : σ → List Component → Option Identity}

/-- A machine with one watch for each directory. It tells which directory the watch of a path is on,
as long as that watch is alive. A watch is placed on the directory that stands at the path; removing
it ends the watch of the directory, under whatever paths it was asked for. -/
structure Host.SharesWatches (host : Host σ) (sc : Scene)
    (alive : σ → List Component → Option Identity) : Prop where
  metadata : ∀ p s, alive (host.metadata p s).2 = alive s
  readDirectory : ∀ p s, alive (host.readDirectory p s).2 = alive s
  placed : ∀ p s m, sc.metadata p = .ok m → (host.watch p s).1 = .ok () →
    alive (host.watch p s).2 = Function.update (alive s) p.components m.identity
  removed : ∀ p s c, alive (host.unwatch p s).2 c =
    if alive s c = alive s p.components then none else alive s c

/-- Every directory that can be listed has an identity of its own. -/
structure Scene.Identified (sc : Scene) : Prop where
  known : ∀ y, sc.Listed y → sc.identity y ≠ none
  apart : ∀ y z, sc.Listed y → sc.Listed z → sc.identity y = sc.identity z → y = z

/-- Some actions ask for a watch on the directory at a place. -/
def Watches (root : Path) (x : List Name) (actions : List Action) : Prop :=
  ∃ p result, .watched p result ∈ actions ∧ Path.At root p x

/-- Some actions take the watch away from the directory at a place. -/
def Unwatches (root : Path) (x : List Name) (actions : List Action) : Prop :=
  ∃ p result, .unwatched p result ∈ actions ∧ Path.At root p x

section Append

variable {root : Path} {x : List Name} {actions more : List Action}

theorem watches_append :
    Watches root x (actions ++ more) ↔ Watches root x actions ∨ Watches root x more := by
  simp only [Watches, List.mem_append, or_and_right, exists_or]

theorem watches_singleton {p : Path} {result : Except Error Unit} {y : List Name}
    (hp : Path.At root p y) : Watches root x [.watched p result] ↔ x = y := by
  constructor
  · rintro ⟨q, r, hq, hx⟩
    obtain ⟨rfl, -⟩ := Action.watched.inj (List.mem_singleton.1 hq)
    exact hx.unique hp
  · rintro rfl
    exact ⟨p, result, List.mem_singleton_self _, hp⟩

theorem unwatches_append :
    Unwatches root x (actions ++ more) ↔ Unwatches root x actions ∨ Unwatches root x more := by
  simp only [Unwatches, List.mem_append, or_and_right, exists_or]

end Append

/-- Listing a directory ends no watch. -/
theorem Host.SharesWatches.list (hn : host.SharesWatches sc alive) (observed : Name → Bool)
    (p : Path) (s : σ) : alive (host.list observed p s).2 = alive s :=
  host.list_keeps hn.metadata hn.readDirectory observed p s

namespace Engine

variable {h : host.Steady sc holds watched} {In : List Name → Prop} {s s' s'' : Engine σ}
  {p : Path} {y : List Name}

/-! ## What a step does to watches -/

/-- The directory that the watch of a place is on. -/
def guarding (alive : σ → List Component → Option Identity) (s : Engine σ) (x : List Name) :
    Option Identity := alive s.registry.machine (s.registry.root.below x).components

/-- Every registered directory has an identity. -/
def Recognized (s : Engine σ) : Prop := ∀ x, s.forest x ≠ none → s.recorded x ≠ none

/-- A step that concerns no watch. -/
structure Idled (alive : σ → List Component → Option Identity) (s s' : Engine σ)
    (new : List Action) : Prop where
  registered : ∀ x, s'.forest x = none ↔ s.forest x = none
  recorded : s'.recorded = s.recorded
  guarding : s'.guarding alive = s.guarding alive
  journal : s'.registry.journal = s.registry.journal ++ new
  quiet : ∀ root x, ¬ Watches root x new

/-- A step that drops the directory at a place. -/
structure Dropped (root : Path) (alive : σ → List Component → Option Identity) (y : List Name)
    (s s' : Engine σ) (new : List Action) : Prop where
  there : s.forest y ≠ none
  registered : ∀ x, s'.forest x ≠ none → x ≠ y ∧ s.forest x ≠ none
  recorded : s'.recorded = Function.update s.recorded y none
  guarding : ∀ x, s'.guarding alive x =
    if s.guarding alive x = s.guarding alive y then none else s.guarding alive x
  journal : s'.registry.journal = s.registry.journal ++ new
  unwatches : Unwatches root y new
  quiet : ∀ root x, ¬ Watches root x new

/-- A step that registers the directory at a place where none is registered. -/
structure Placed (sc : Scene) (alive : σ → List Component → Option Identity) (y : List Name)
    (s s' : Engine σ) (new : List Action) : Prop where
  registered : ∀ x, x ≠ y → (s'.forest x = none ↔ s.forest x = none)
  unregistered : s.recorded y = none
  recorded : s'.recorded = Function.update s.recorded y (sc.identity y)
  guarding : s'.guarding alive = Function.update (s.guarding alive) y (sc.identity y)
  journal : s'.registry.journal = s.registry.journal ++ new
  watches : ∀ x, Watches sc.root x new ↔ x = y

/-- What a step does to watches. A directory that was replaced is dropped and registered anew. -/
inductive Effect (sc : Scene) (alive : σ → List Component → Option Identity)
    (In : List Name → Prop) (s s' : Engine σ) : Prop
  | idled {new : List Action} (h : Idled alive s s' new)
  | dropped {y : List Name} {new : List Action} (h : Dropped sc.root alive y s s' new)
  | placed {y : List Name} {new : List Action} (within : In y) (listed : sc.Listed y)
      (h : Placed sc alive y s s' new)
  | replaced {y : List Name} {t : Engine σ} {new more : List Action} (within : In y)
      (listed : sc.Listed y) (h : Dropped sc.root alive y s t new)
      (h' : Placed sc alive y t s' more)

theorem components_eq (hs : h.laws.Fits s.registry) (hp : h.laws.Names p y) :
    p.components = (s.registry.root.below y).components := by
  rw [hs.root_eq, Path.at_below]
  exact hp.1

theorem recorded_update {d : Option (TrackedDirectory Name)}
    (hf : s'.forest = Function.update s.forest y d) :
    s'.recorded = Function.update s.recorded y (d.bind (·.identity)) := by
  funext x
  rw [recorded, hf]
  by_cases hx : x = y
  · rw [hx, Function.update_self, Function.update_self]
  · rw [Function.update_of_ne hx, Function.update_of_ne hx]
    rfl

theorem guarding_update {i : Option Identity} (hr : s'.registry.root = s.registry.root)
    (ha : alive s'.registry.machine = Function.update (alive s.registry.machine)
      (s.registry.root.below y).components i) :
    s'.guarding alive = Function.update (s.guarding alive) y i := by
  funext x
  rw [guarding, hr, ha]
  by_cases hx : x = y
  · rw [hx, Function.update_self, Function.update_self]
  · rw [Function.update_of_ne hx, Function.update_of_ne fun he => hx (components_below_inj he)]
    rfl

theorem Step.fits (hs : h.laws.Fits s.registry) (hstep : Step h In s s') :
    h.laws.Fits s'.registry := by
  cases hstep with
  | told kind p f =>
      unfold emit
      split
      · exact hs
      · exact hs.of_eq rfl rfl rfl hs.machine
  | began p => exact hs.of_eq rfl rfl rfl hs.machine
  | listed names => exact (hs.list names).1
  | forgot unregistered => exact hs
  | dropped names registered => exact (cancel_spec hs names registered).1
  | entered names within stands unregistered =>
      rcases register_cases hs names unregistered with
        ⟨e, s', -, hmay, -⟩ | ⟨l, s', hr, -, -, hf, -⟩
      · exact absurd hmay (Host.Steady.not_mayFail stands)
      · rw [hr]
        exact hf
  | @renewed p y d replaced names within listed registered watch =>
      cases replaced with
      | false => exact HostLaws.Fits.insert hs names.1 _
      | true => exact (quiet_rearm (s := s.unmark p) names hs).1.fits.insert names.1 _

section Effects

variable (hn : host.SharesWatches sc alive)

theorem idled_of_eq {new : List Action} (hr : s'.registry.root = s.registry.root)
    (hd : s'.registry.directories = s.registry.directories)
    (hm : alive s'.registry.machine = alive s.registry.machine)
    (hj : s'.registry.journal = s.registry.journal ++ new) (hq : ∀ root x, ¬ Watches root x new) :
    Idled alive s s' new := by
  have hforest : s'.forest = s.forest := by
    funext x
    simp only [forest, Registry.forest, Registry.get?, hr, hd]
  refine ⟨fun x => by rw [hforest], ?_, ?_, hj, hq⟩
  · funext x
    rw [recorded, recorded, hforest]
  · funext x
    rw [guarding, guarding, hr, hm]

theorem idled_unmark (p : Path) : Idled alive s (s.unmark p) [] :=
  idled_of_eq rfl rfl rfl (List.append_nil _).symm (by simp [Watches])

/-- A directory that was not replaced is registered with the identity that it has. -/
theorem idled_refresh (hs : h.laws.Fits s.registry) (hp : h.laws.Names p y)
    {d : TrackedDirectory Name} (hd : s.forest y = some d) (hi : s.recorded y ≠ none)
    (hr : ¬ (s.cell watched y).Replaced (sc.listing y)) :
    Idled alive s (s.refresh host p d (sc.listing y) false) [] := by
  have hforest : (s.refresh host p d (sc.listing y) false).forest =
      Function.update s.forest y (some (d.reconcile (sc.listing y)).2) := hs.forest_insert hp.1 _
  have hrecorded : s.recorded y = d.identity := by
    rw [recorded, hd]
    rfl
  have hidentity : s.recorded y = sc.identity y := by
    by_contra hne
    rw [hrecorded] at hi hne
    exact hr (.inr ⟨d, hd, Option.isSome_iff_ne_none.2 hi, fun he => hne he.symm⟩)
  refine ⟨fun x => ?_, ?_, rfl, (List.append_nil _).symm, by simp [Watches]⟩
  · rw [hforest]
    by_cases hx : x = y
    · rw [hx, Function.update_self, hd]
      simp
    · rw [Function.update_of_ne hx]
  · rw [recorded_update hforest]
    change Function.update s.recorded y (sc.identity y) = _
    rw [← hidentity, Function.update_eq_self]

include hn

theorem dropped_cancel (hs : h.laws.Fits s.registry) (hp : h.laws.Names p y)
    {d : TrackedDirectory Name} (hd : s.registry.get? p = some d) :
    Dropped sc.root alive y s (s.cancel host p) [.unwatched p (s.registry.unwatch host p).1] := by
  obtain ⟨hf, hforest, -⟩ := cancel_spec hs hp hd
  have hroot : (s.cancel host p).registry.root = s.registry.root :=
    hf.root_eq.trans hs.root_eq.symm
  refine ⟨?_, fun x hx => ?_, recorded_update hforest, fun x => ?_, ?_, ?_, ?_⟩
  · exact Option.ne_none_iff_exists'.2 ⟨d, (hs.get?_eq hp.1).symm.trans hd⟩
  · rw [hforest] at hx
    by_cases hxy : x = y
    · rw [hxy, Function.update_self] at hx
      exact absurd rfl hx
    · exact ⟨hxy, by rwa [Function.update_of_ne hxy] at hx⟩
  · rw [guarding, hroot, registry_cancel hd]
    exact (hn.removed p s.registry.machine _).trans (by rw [components_eq hs hp]; rfl)
  · rw [registry_cancel hd]
    exact Registry.journal_unwatch _ _ _
  · exact ⟨p, _, List.mem_singleton_self _, hp.1⟩
  · simp [Watches]

/-- A watch is placed on the directory that stands at a place. -/
theorem alive_watch (hs : h.laws.Fits s.registry) (hp : h.laws.Names p y) (hl : sc.Listed y) :
    alive (s.registry.watch host p).2.machine =
      Function.update (alive s.registry.machine) p.components (sc.identity y) := by
  obtain ⟨l, hlook⟩ := hl
  obtain ⟨-, m, hm, -⟩ := Scene.of_look_eq_ok hlook
  obtain ⟨hat, z, rfl⟩ := hp
  obtain rfl : z = y := (Path.at_below sc.root z).unique hat
  rw [Scene.identity, Scene.identity_listing hm]
  exact hn.placed _ _ m hm (h.spare _ _ hs.machine)

/-- The watch of a directory is placed before its first listing is taken. -/
theorem placed_register (hs : h.laws.Fits s.registry) (hp : h.laws.Names p y) (hy : sc.Stands y)
    (hx : s.forest y = none) :
    ∃ l, Placed sc alive y s (s.register host p).2 [.watched p (.ok ()), .listed p l] := by
  rcases register_cases hs hp hx with
    ⟨e, s', -, hmay, -⟩ | ⟨l, s', hreg, hl, -, hf, hforest, -⟩
  · exact absurd hmay (Host.Steady.not_mayFail hy)
  obtain rfl : l = sc.listing y := (Scene.of_look_eq_ok hl.symm).1
  have hroot : s'.registry.root = s.registry.root := hf.root_eq.trans hs.root_eq.symm
  have hregistry : s.registry.register host p = (.ok true, s'.registry) := by
    rw [register] at hreg
    obtain ⟨hres, rfl⟩ := Prod.mk.inj hreg
    exact Prod.ext hres rfl
  obtain ⟨l, r₁, r₂, hw, hlist, hr⟩ := Registry.register_eq_true hregistry
  have halive : alive s'.registry.machine =
      Function.update (alive s.registry.machine) p.components (sc.identity y) := by
    have hlisted := hn.list (r₁.observes p) p r₁.machine
    have hwatched := alive_watch hn hs hp (hy.listed h.readable)
    rw [hw] at hwatched
    have hmachine : r₂.machine = (host.list (r₁.observes p) p r₁.machine).2 :=
      congrArg (fun r => r.2.machine) hlist.symm
    rw [hr]
    change alive r₂.machine = _
    rw [hmachine, hlisted, hwatched]
  have hjournal : s'.registry.journal =
      s.registry.journal ++ [.watched p (.ok ()), .listed p (.ok l)] := by
    have hj₁ := Registry.journal_watch host s.registry p
    have hj₂ := Registry.journal_list host r₁ p
    rw [hw] at hj₁
    rw [hlist] at hj₂
    rw [hr]
    change r₂.journal = _
    rw [hj₂, hj₁, List.append_assoc]
    rfl
  rw [hreg]
  rw [components_eq hs hp] at halive
  refine ⟨.ok l, fun x hxy => ?_, recorded_of_none hx, recorded_update hforest,
    guarding_update hroot halive, hjournal, fun x => ?_⟩
  · rw [hforest, Function.update_of_ne hxy]
  · rw [← List.singleton_append, watches_append, watches_singleton hp.1, or_iff_left]
    simp [Watches]

/-- A directory that was replaced loses its watch before it gets a new one. -/
theorem placed_refresh (hs : h.laws.Fits s.registry) (hp : h.laws.Names p y) (hl : sc.Listed y)
    {d : TrackedDirectory Name} (hd : s.forest y = some d) :
    ∃ result, Placed sc alive y (s.cancel host p) (s.refresh host p d (sc.listing y) true)
      [.watched p result] := by
  have hget : s.registry.get? p = some d := (hs.get?_eq hp.1).trans hd
  obtain ⟨hf, hforest, -⟩ := cancel_spec hs hp hget
  have hroot : (s.cancel host p).registry.root = s.registry.root :=
    hf.root_eq.trans hs.root_eq.symm
  have hforest' : (s.refresh host p d (sc.listing y) true).forest =
      Function.update s.forest y (some (d.reconcile (sc.listing y)).2) :=
    (quiet_rearm (s := s.unmark p) hp hs).1.fits.forest_insert hp.1 _
  have hmachine : (s.refresh host p d (sc.listing y) true).registry.machine =
      ((s.cancel host p).registry.watch host p).2.machine := by
    rw [registry_cancel hget]
    rfl
  have hjournal : (s.refresh host p d (sc.listing y) true).registry.journal =
      ((s.cancel host p).registry.watch host p).2.journal := by
    rw [registry_cancel hget]
    rfl
  refine ⟨_, fun x hx => ?_, ?_, ?_, guarding_update hroot.symm ?_,
    hjournal.trans (Registry.journal_watch host _ p), fun x => watches_singleton hp.1⟩
  · rw [hforest, hforest', Function.update_of_ne hx, Function.update_of_ne hx]
  · rw [recorded_update hforest, Function.update_self]
    rfl
  · rw [recorded_update hforest, recorded_update hforest', Function.update_idem]
    rfl
  · rw [hmachine, alive_watch hn hf hp hl, components_eq hf hp]

theorem Step.effect (hs : h.laws.Fits s.registry) (hi : s.Recognized)
    (hstep : Step h In s s') : Effect sc alive In s s' := by
  cases hstep with
  | told kind p f =>
      unfold emit
      split
      · exact .idled (idled_of_eq rfl rfl rfl (List.append_nil _).symm (by simp [Watches]))
      · exact .idled (idled_of_eq rfl rfl rfl rfl (by simp [Watches]))
  | began p => exact .idled (idled_of_eq rfl rfl rfl rfl (by simp [Watches]))
  | listed names =>
      exact .idled (idled_of_eq rfl rfl (hn.list _ _ _) (Registry.journal_list _ _ _)
        (by simp [Watches]))
  | forgot unregistered => exact .idled (idled_unmark _)
  | dropped names registered => exact .dropped (dropped_cancel hn hs names registered)
  | entered names within stands unregistered =>
      obtain ⟨l, hl⟩ := placed_register hn hs names stands unregistered
      exact .placed within (stands.listed h.readable) hl
  | @renewed p y d replaced names within listed registered watch =>
      cases replaced with
      | false =>
          have hrecorded : s.recorded y ≠ none := hi y (by simp [registered])
          refine .idled (idled_refresh hs names registered hrecorded fun hr => ?_)
          cases watch.2 hr
      | true =>
          have hget : s.registry.get? p = some d := (hs.get?_eq names.1).trans registered
          obtain ⟨result, hplaced⟩ := placed_refresh hn hs names listed registered
          exact .replaced within listed (dropped_cancel hn hs names hget) hplaced

end Effects

end Engine

end DirWatch
