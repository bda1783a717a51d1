import DirWatch.Proofs.Engine.Batch

/-! # The steps of a pass

On a steady machine a pass goes step by step: it drops directories, brings one up to date, and
registers others. What is gone is dropped before anything is registered. -/

namespace DirWatch

variable {σ : Type} {host : Host σ} {sc : Scene} {holds : σ → Prop}
  {watched : σ → Set (List Component)}

namespace Scene

/-- The identity of the directory that stands at a place. -/
def identity (sc : Scene) (y : List Name) : Option Identity := (sc.listing y).identity

/-- Passes over a set of places give up what a place was registered as: they find that the place is
gone, or they look at it themselves. -/
def GivesUp (sc : Scene) (D : Set (List Name)) (x : List Name) : Prop :=
  sc.Loses D x ∨ x ∈ D ∧ sc.Listed x

theorem givesUp_union {D D' : Set (List Name)} {x : List Name} :
    sc.GivesUp (D ∪ D') x ↔ sc.GivesUp D x ∨ sc.GivesUp D' x := by
  simp only [GivesUp, loses_union, Set.mem_union]
  tauto

theorem GivesUp.mono {D D' : Set (List Name)} {x : List Name} (hx : sc.GivesUp D x)
    (hD : D ⊆ D') : sc.GivesUp D' x := by
  rcases hx with ⟨y, hy, hmiss⟩ | ⟨hx, hl⟩
  · exact .inl ⟨y, hD hy, hmiss⟩
  · exact .inr ⟨hD hx, hl⟩

end Scene

namespace Engine

/-- The identity that a place is registered with. -/
def recorded (s : Engine σ) (x : List Name) : Option Identity := (s.forest x).bind (·.identity)

theorem recorded_of_none {s : Engine σ} {x : List Name} (hx : s.forest x = none) :
    s.recorded x = none := by
  rw [recorded, hx]
  rfl

theorem forest_of_recorded {s : Engine σ} {x : List Name} {i : Identity}
    (hx : s.recorded x = some i) : s.forest x ≠ none := by
  intro hn
  cases (recorded_of_none hn).symm.trans hx

/-- What is registered at a place, if anything, is the directory that stands there. -/
def Genuine (sc : Scene) (s : Engine σ) (x : List Name) : Prop :=
  ∀ i, s.recorded x = some i → sc.Listed x ∧ sc.identity x = some i

theorem genuine_of_none {s : Engine σ} {x : List Name} (hx : s.forest x = none) :
    Genuine sc s x := fun _ hi => absurd hx (forest_of_recorded hi)

/-- The engine once a directory is brought up to date with a listing, before anything below it is
reported. If the directory was replaced, its watch is placed anew. -/
def refresh (host : Host σ) (p : Path) (d : TrackedDirectory Name) (l : Listing Name)
    (replaced : Bool) (s : Engine σ) : Engine σ :=
  let s := { s.unmark p with counters := { s.counters with diffed := s.counters.diffed + 1 } }
  let s := if replaced then { s with registry := (s.registry.rearm host p).2 } else s
  s.put p (d.reconcile l).2

/-- The steps of passes that register or bring up to date directories at some places. -/
inductive Step (h : host.Steady sc holds watched) (In : List Name → Prop) (s : Engine σ) :
    Engine σ → Prop
  | told (kind : ChangeKind) (p : Path) (f : Bool) : Step h In s (s.emit kind p f)
  | began (p : Path) : Step h In s { s with registry := s.registry.record (.began p) }
  | listed {p : Path} {y : List Name} (names : h.laws.Names p y) :
      Step h In s { s with registry := (s.registry.list host p).2 }
  | forgot {p : Path} (unregistered : s.registry.get? p = none) : Step h In s (s.unmark p)
  | dropped {p : Path} {y : List Name} {d : TrackedDirectory Name} (names : h.laws.Names p y)
      (registered : s.registry.get? p = some d) : Step h In s (s.cancel host p)
  | entered {p : Path} {y : List Name} (names : h.laws.Names p y) (within : In y)
      (stands : sc.Stands y) (unregistered : s.forest y = none) :
      Step h In s (s.register host p).2
  | renewed {p : Path} {y : List Name} {d : TrackedDirectory Name} {replaced : Bool}
      (names : h.laws.Names p y) (within : In y) (listed : sc.Listed y)
      (registered : s.forest y = some d)
      (watch : replaced = true ↔ (s.cell watched y).Replaced (sc.listing y)) :
      Step h In s (s.refresh host p d (sc.listing y) replaced)

/-- Steps one after another. -/
abbrev Steps (h : host.Steady sc holds watched) (In : List Name → Prop) :
    Engine σ → Engine σ → Prop := Relation.ReflTransGen (Step h In)

variable {h : host.Steady sc holds watched} {In In' : List Name → Prop} {base s s' : Engine σ}
  {p : Path} {y : List Name} {d : TrackedDirectory Name}

theorem Step.mono (hstep : Step h In s s') (hin : ∀ y, In y → In' y) : Step h In' s s' := by
  cases hstep with
  | told kind p f => exact .told kind p f
  | began p => exact .began p
  | listed names => exact .listed names
  | forgot unregistered => exact .forgot unregistered
  | dropped names registered => exact .dropped names registered
  | entered names within stands unregistered =>
      exact .entered names (hin _ within) stands unregistered
  | renewed names within listed registered watch =>
      exact .renewed names (hin _ within) listed registered watch

theorem Steps.mono (hsteps : Steps h In s s') (hin : ∀ y, In y → In' y) : Steps h In' s s' :=
  Relation.ReflTransGen.mono (fun _ _ (hstep : Step h In _ _) => hstep.mono hin) s s' hsteps

/-! ## Retiring and adopting -/

/-- Retiring and adopting go step by step. -/
theorem upkeep_steps (h : host.Steady sc holds watched) (base : Engine σ)
    (Out In : List Name → Prop)
    (hmark : ∀ y, base.forest y = none → (base.cell watched y).marked = false)
    (hout : ∀ y n, Out y → Out (y ++ [n])) (hdir : ∀ y, In y → sc.Stands y)
    (hin : ∀ y n, In y → sc.Stands (y ++ [n]) → In (y ++ [n])) (hsep : ∀ y, Out y → ¬ In y) :
    Upkeep host (fun s => Reshaped h base Out In s ∧ Steps h In base s)
      (fun p => ∃ y, h.laws.Names p y ∧ In y) (fun p => ∃ y, h.laws.Names p y ∧ Out y)
      (fun _ _ _ => True) := by
  have hup := upkeep_reshaped h base Out In hmark hout hdir hin hsep
  refine
    { emit := fun s kind p f hs hp => ⟨hup.emit s kind p f hs.1 hp, hs.2.tail (.told kind p f)⟩
      unmark := fun s p hs hp hn => ⟨hup.unmark s p hs.1 hp hn, hs.2.tail (.forgot hn)⟩
      cancel := ?_
      left := fun s p d n i hs hp hd hi => hup.left s p d n i hs.1 hp hd hi
      register := ?_
      entered := fun s p s' d n i hs hp hr hd hi => hup.entered s p s' d n i hs.1 hp hr hd hi }
  · intro s p d hs hp hd
    refine ⟨hup.cancel s p d hs.1 hp hd, ?_⟩
    obtain ⟨y, hy, -⟩ := hp
    exact hs.2.tail (.dropped hy hd)
  · intro s p hs hp
    refine ⟨hup.register s p hs.1 hp, ?_⟩
    obtain ⟨y, hy, hwithin⟩ := hp
    by_cases hc : s.registry.contains p = true
    · rw [Engine.register, Registry.register, if_pos hc]
      exact hs.2
    · have hn : s.forest y = none := not_not.1 fun hne => hc ((hs.1.fits.contains_iff hy.1).2 hne)
      exact hs.2.tail (.entered hy hwithin (hdir y hwithin) hn)

/-- Retiring a directory that is gone registers nothing. -/
theorem steps_retire (hs : Valid h.laws s) (hp : h.laws.Names p y) :
    Steps h (fun _ => False) s (s.retire host p) := by
  have hup := upkeep_steps h s (y <+: ·) (fun _ => False)
    (fun x => unmarked_of_unregistered hs) (fun x n hx => hx.trans (List.prefix_append x [n]))
    (fun _ => False.elim) (fun _ _ => False.elim) (fun _ _ => id)
  exact (hup.retire ⟨y, hp, List.prefix_rfl⟩ ⟨.refl hs.fits, .refl⟩).2

/-! ## Taking a listing over -/

section Absorb

variable (hs : Valid h.laws s) (hp : h.laws.Names p y) (hd : s.forest y = some d)
  (hl : sc.Listed y)
include hs hp hd hl

/-- First everything is dropped that is below no directory of the listing. -/
theorem steps_reportDeleted :
    let base := s.put p (d.reconcile (sc.listing y)).2
    let s₁ := reportDeleted host p (d.reconcile (sc.listing y)).1.deleted base
    Steps h (fun _ => False) base s₁ ∧ Valid h.laws s₁ ∧
      s₁.forest y = some (d.reconcile (sc.listing y)).2 ∧
      (∀ x, Losing sc y x → s₁.forest x = none) ∧ ∀ x, sc.Stands x → x ≠ y →
        s₁.forest x = s.forest x := by
  intro base s₁
  have hcur := hs.sound.current y d hd
  have hlists : h.laws.lists y (.ok (sc.listing y)) := hl.look_eq.symm
  have hforest : base.forest = Function.update s.forest y (some (d.reconcile (sc.listing y)).2) :=
    hs.fits.forest_insert hp.1 _
  obtain ⟨es, hstage, -⟩ := stage_deleted hs hp hd hlists
  have hmark : ∀ x, base.forest x = none → (base.cell watched x).marked = false := by
    intro x hx
    refine unmarked_of_unregistered hs ?_
    by_cases hxy : x = y
    · rw [hxy, hforest, Function.update_self] at hx
      cases hx
    · rwa [hforest, Function.update_of_ne hxy] at hx
  have hup := upkeep_steps h base (Losing sc y) (fun _ => False) hmark
    (by
      rintro x n ⟨k, hk, hnot⟩
      exact ⟨k, hk.trans (List.prefix_append x [n]), hnot⟩)
    (fun _ => False.elim) (fun _ _ => False.elim) (fun _ _ => id)
  obtain ⟨hresh, hsteps⟩ : Reshaped h base (Losing sc y) (fun _ => False) s₁ ∧
      Steps h (fun _ => False) base s₁ := by
    refine hup.reportDeleted ?_ ⟨.refl (hs.fits.insert hp.1 _), .refl⟩
    intro e he
    refine ⟨trivial, fun hdir => ⟨_, hp.child e.name, e.name, List.prefix_rfl, ?_⟩⟩
    rw [← Scene.stands_iff_listing h.readable hl, ← hdir]
    exact ((TrackedDirectory.mem_deleted hcur).1 he).2
  refine ⟨hsteps, hstage.valid, hstage.here, ?_, ?_⟩
  · -- what is registered below the directory hangs on an item that the listing shows
    rintro x ⟨n, hn, hnot⟩
    by_contra hx
    obtain ⟨d', i, hd', hi, hdir⟩ :=
      hstage.valid.sound.hangs y n (registered_of_isPart hstage.valid hn hx)
    obtain rfl := Option.some.inj (hstage.here.symm.trans hd')
    rw [TrackedDirectory.get?_items_reconcile hcur] at hi
    obtain ⟨e, he, rfl⟩ := Option.map_eq_some_iff.1 hi
    refine hnot ((Scene.stands_iff_listing h.readable hl).1 ?_)
    rw [he]
    exact congrArg some hdir
  · intro x hx hxy
    have hkept := hresh.kept (y := x) (fun ⟨n, hn, hnot⟩ => hnot (hx.of_isPart hn)) id
    refine (congrArg Cell.directory hkept).trans ?_
    change base.forest x = _
    rw [hforest, Function.update_of_ne hxy]

/-- Then what the listing shows anew is registered. -/
theorem steps_absorb :
    ∃ s₁, Steps h (fun _ => False) (s.put p (d.reconcile (sc.listing y)).2) s₁ ∧
      s₁.forest y = some (d.reconcile (sc.listing y)).2 ∧
      (∀ x, Losing sc y x → s₁.forest x = none) ∧
      Steps h (Gaining sc s y) s₁ (s.absorb host p (sc.listing y)).2 := by
  obtain ⟨hsteps, hvalid, hhere, hlost, hkept⟩ := steps_reportDeleted hs hp hd hl
  refine ⟨_, hsteps, hhere, hlost, ?_⟩
  set s₁ := reportDeleted host p (d.reconcile (sc.listing y)).1.deleted
    (s.put p (d.reconcile (sc.listing y)).2) with hs₁
  have hcur := hs.sound.current y d hd
  have hbefore : ∀ n, sc.Stands (y ++ [n]) →
      s₁.forest (y ++ [n]) = s.forest (y ++ [n]) := fun n hn => hkept _ hn (by simp)
  have hup := upkeep_steps h s₁ (fun _ => False) (Gaining sc s y)
    (fun x => unmarked_of_unregistered hvalid) (fun _ _ => id) (fun _ hx => hx.1)
    (by
      rintro x n ⟨-, k, hk, hnone⟩ hx
      exact ⟨hx, k, hk.trans (List.prefix_append x [n]), hnone⟩)
    (fun _ => False.elim)
  have hcreated : Reshaped h s₁ (fun _ => False) (Gaining sc s y)
        (reportCreated host p (d.reconcile (sc.listing y)).1.created s₁).2 ∧
      Steps h (Gaining sc s y) s₁
        (reportCreated host p (d.reconcile (sc.listing y)).1.created s₁).2 := by
    refine hup.reportCreated ?_ ⟨.refl hvalid.fits, .refl⟩
    intro e he
    refine ⟨trivial, fun hdir => ⟨_, hp.child e.name, ?_, e.name, List.prefix_rfl, ?_⟩⟩
    · rw [← Scene.stands_iff_listing h.readable hl, ← hdir]
      exact (TrackedDirectory.mem_created.1 he).1
    · have hnew : ⟨e.name, true⟩ ∈ (d.reconcile (sc.listing y)).1.created := hdir ▸ he
      exact bare_of_created hs.sound hd hnew List.prefix_rfl
  rw [absorb, (hs.fits.get?_eq hp.1).trans hd]
  dsimp only
  split
  · next e s₂ hr =>
      rw [show reportCreated _ _ _ s₁ = (.error e, s₂) from hr] at hcreated
      exact hcreated.2
  · next s₂ hr =>
      rw [show reportCreated _ _ _ s₁ = (.ok (), s₂) from hr] at hcreated
      obtain ⟨hresh, hsteps⟩ : Reshaped h s₁ (fun _ => False) (Gaining sc s y)
            (reportUpdated p (d.reconcile (sc.listing y)).1.updated s₂) ∧
          Steps h (Gaining sc s y) s₁
            (reportUpdated p (d.reconcile (sc.listing y)).1.updated s₂) :=
        hup.reportUpdated (fun _ _ => trivial) hcreated
      refine (hup.retryUnregistered ?_ ⟨hresh, hsteps⟩).2
      -- a directory that is tried again is shown by the listing, and was not registered before
      intro q hq
      have hself := (congrArg Cell.directory (hresh.kept (y := y) id not_gaining_self)).trans hhere
      have hget := (hresh.fits.get?_eq hp.1).trans hself
      rw [unregistered, hget] at hq
      obtain ⟨hq, hnot⟩ := List.mem_filter.1 hq
      obtain ⟨n, hn, rfl⟩ := List.mem_map.1 hq
      obtain ⟨i, hi, hdir⟩ := TrackedDirectory.mem_subdirectories.1 hn
      rw [TrackedDirectory.get?_items_reconcile hcur] at hi
      obtain ⟨e, he, rfl⟩ := Option.map_eq_some_iff.1 hi
      have hx : sc.Stands (y ++ [n]) := by
        rw [← Scene.stands_iff_listing h.readable hl, he]
        exact congrArg some hdir
      refine ⟨_, hp.child n, hx, n, List.prefix_rfl, ?_⟩
      rw [← hbefore n hx]
      refine hresh.none_before ?_ id
      by_contra hne
      rw [(hresh.fits.contains_iff (hp.child n).1).2 hne] at hnot
      cases hnot

end Absorb

/-! ## A pass -/

/-- A directory that is listed is brought up to date before anything else. -/
theorem steps_renew (hs : Valid h.laws s) (hp : h.laws.Names p y) (hd : s.forest y = some d)
    (hl : sc.Listed y) :
    ∃ s₁, Steps h (· = y) s s₁ ∧ s₁.forest y = some (d.reconcile (sc.listing y)).2 ∧
      (∀ x, Losing sc y x → s₁.forest x = none) ∧
      Steps h (Gaining sc s y) s₁
        (renew host p (sc.listing y) (s.wasReplaced p d (sc.listing y))
          { s.unmark p with
            counters := { s.counters with diffed := s.counters.diffed + 1 } }).2 := by
  have hrefresh : Steps h (· = y) s
      (s.refresh host p d (sc.listing y) (s.wasReplaced p d (sc.listing y))) :=
    .single (.renewed hp rfl hl hd (wasReplaced_iff hs.fits hp hd _))
  have hquiet := quiet_unmark (p := p) hs.fits
    { s.counters with diffed := s.counters.diffed + 1 }
  have hs' := hquiet.valid hs
  cases hrep : s.wasReplaced p d (sc.listing y) with
  | false =>
      rw [hrep] at hrefresh
      obtain ⟨s₁, hsteps, hhere, hlost, hgain⟩ := steps_absorb hs' hp hd hl
      exact ⟨s₁, hrefresh.trans (hsteps.mono fun _ => False.elim), hhere, hlost, hgain⟩
  | true =>
      rw [hrep] at hrefresh
      obtain ⟨hok, -⟩ := cells_rearm hs'.fits hp
      have hs'' := (quiet_rearm hp hs'.fits).1.valid hs'
      obtain ⟨s₁, hsteps, hhere, hlost, hgain⟩ := steps_absorb hs'' hp hd hl
      refine ⟨s₁, hrefresh.trans (hsteps.mono fun _ => False.elim), hhere, hlost, ?_⟩
      have hgain : Steps h (Gaining sc s y) s₁ _ := hgain
      simp only [renew, if_true]
      rcases hr : Registry.rearm host _ p with ⟨e | _, r⟩
      · rw [hr] at hok
        cases hok
      · rw [hr] at hgain
        exact hgain

/-- A pass goes in two halves. First the directory itself is brought up to date and what is gone is
dropped. Then the directories are registered that the pass gains. -/
theorem steps_diff (hs : Valid h.laws s) (hp : h.laws.Names p y) :
    ∃ s₁, Steps h (fun x => x = y ∧ s.forest x ≠ none) s s₁ ∧
      (∀ x, sc.GivesUp {y} x → Genuine sc s₁ x) ∧
      Steps h (fun x => s.forest y ≠ none ∧ Gaining sc s y x) s₁ (s.diff host p).2 := by
  have hget : s.registry.get? p = s.forest y := hs.fits.get?_eq hp.1
  cases hd : s.forest y with
  | none =>
      have hgone : ∀ x, y <+: x → s.forest x = none :=
        fun x hx => not_not.1 fun hne => registered_of_isPart hs hx hne hd
      rw [diff_none (hget.trans hd)]
      refine ⟨_, .single (.began p), fun x hx => genuine_of_none (hgone x ?_), .refl⟩
      rcases hx with hx | ⟨rfl, -⟩
      · exact (Scene.loses_singleton.1 hx).below
      · exact List.prefix_rfl
  | some d =>
      obtain ⟨hquiet, hlook⟩ := quiet_listed hp hs.fits
      have hlook : ((s.registry.record (.began p)).list host p).1 = sc.look y := hlook
      have hbegun : Steps h (fun x => x = y ∧ s.forest x ≠ none) s
          { s with registry := ((s.registry.record (.began p)).list host p).2 } :=
        (Relation.ReflTransGen.single (.began p)).tail (.listed hp)
      rw [diff_eq (hget.trans hd), hlook]
      set t : Engine σ := { s with registry := ((s.registry.record (.began p)).list host p).2 }
      have ht : Valid h.laws t := hquiet.valid hs
      unfold resume
      split
      · next q hv =>
          obtain ⟨es, hretired⟩ := retired_retire ht.fits hp fun z n _ => ht.sound.hangs z n
          refine ⟨_, hbegun.trans ((steps_retire ht hp).mono fun _ => False.elim), ?_, .refl⟩
          rintro x (hx | ⟨rfl, hl⟩)
          · exact genuine_of_none
              (hretired.gone x (Covers.singleton.2 (Scene.loses_singleton.1 hx).below))
          · exact absurd hl (Scene.Vanished.not_listed ⟨q, hv⟩)
      · next e hne he =>
          refine ⟨_, hbegun, fun x hx => ?_, .refl⟩
          have hl : ¬ sc.Listed y := by
            rintro ⟨l, hlist⟩
            cases he.symm.trans hlist
          rcases hx with hx | ⟨rfl, hlx⟩
          · rcases Scene.loses_singleton.1 hx with ⟨⟨q, hv⟩, -⟩ | ⟨hly, -⟩
            · exact absurd (Except.error.inj (he.symm.trans hv)) (hne q)
            · exact absurd hly hl
          · exact absurd hlx hl
      · next l hlist =>
          obtain ⟨rfl, -⟩ := Scene.of_look_eq_ok hlist
          have hl : sc.Listed y := ⟨_, hlist⟩
          have hreg : s.forest y ≠ none := by simp [hd]
          obtain ⟨s₁, hsteps, hhere, hlost, hgain⟩ := steps_renew ht hp hd hl
          refine ⟨s₁, hbegun.trans (hsteps.mono ?_), ?_, hgain.mono fun _ hx => ⟨by simp, hx⟩⟩
          · rintro x rfl
            exact ⟨rfl, hreg⟩
          · rintro x (hx | ⟨rfl, -⟩)
            · exact genuine_of_none (hlost x (hl.misses_iff.1 (Scene.loses_singleton.1 hx)))
            · intro i hi
              rw [recorded, hhere] at hi
              exact ⟨hl, hi⟩

/-- A pass over any path that is written plainly. -/
theorem steps_step (hs : Valid h.laws s) (hp : Path.Plain sc.root p) :
    ∃ s₁, Steps h (fun y => Path.At sc.root p y ∧ s.forest y ≠ none) s s₁ ∧
      (∀ x, sc.GivesUp {y | Path.At sc.root p y} x → Genuine sc s₁ x) ∧
      Steps h (Reaches sc s {y | Path.At sc.root p y}) s₁ (s.diff host p).2 := by
  by_cases hat : ∃ y, Path.At sc.root p y
  · obtain ⟨y, hy⟩ := hat
    have hplace : {z | Path.At sc.root p z} = {y} :=
      Set.ext fun z => ⟨fun hz => hz.unique hy, fun hz => hz ▸ hy⟩
    obtain ⟨s₁, hfirst, hgenuine, hsecond⟩ := steps_diff hs ⟨hy, y, hp y hy⟩
    refine ⟨s₁, hfirst.mono ?_, hplace ▸ hgenuine, hsecond.mono ?_⟩
    · rintro x ⟨rfl, hx⟩
      exact ⟨hy, hx⟩
    · rintro x ⟨hreg, hx, n, hn, hnone⟩
      exact ⟨hx, y, hy, hreg, n, hn, hnone⟩
  · have hnone : ∀ y, ¬ Path.At sc.root p y := fun y hy => hat ⟨y, hy⟩
    rw [diff_outside hs hnone]
    refine ⟨_, .single (.began p), ?_, .refl⟩
    rintro x (⟨y, hy, -⟩ | ⟨hx, -⟩)
    · exact absurd hy (hnone y)
    · exact absurd hx (hnone x)

end Engine

end DirWatch
