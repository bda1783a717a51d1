import DirWatch.Proofs.Engine.Settled

/-! # Batches of passes

A pass settles the place it is made over: it empties what is gone, fills what is new, and brings the
place itself up to date. Passes in turn settle the places of all their paths. -/

namespace DirWatch

variable {σ : Type} {host : Host σ} {sc : Scene} {holds : σ → Prop}
  {watched : σ → Set (List Component)}

namespace Scene

variable {x y : List Name}

theorem Misses.below (h : sc.Misses y x) : y <+: x := by
  rcases h with ⟨-, hy⟩ | ⟨-, n, hn, -⟩
  · exact hy
  · exact Covers.of_child hn

theorem loses_singleton : sc.Loses {y} x ↔ sc.Misses y x := by
  simp [Loses]

/-- A directory that can be listed misses what is below no directory of it. -/
theorem Listed.misses_iff (h : sc.Listed y) :
    sc.Misses y x ↔ ∃ n, y ++ [n] <+: x ∧ ¬ sc.Stands (y ++ [n]) := by
  constructor
  · rintro (⟨hv, -⟩ | ⟨-, hn⟩)
    · exact absurd h hv.not_listed
    · exact hn
  · exact fun hn => .inr ⟨h, hn⟩

theorem Listed.not_misses_self (h : sc.Listed y) : ¬ sc.Misses y y := by
  rw [h.misses_iff]
  rintro ⟨n, hn, -⟩
  exact Covers.not_prefix_child hn

end Scene

namespace Engine

variable {h : host.Steady sc holds watched} {s s' : Engine σ} {p : Path} {y : List Name}
  {d : TrackedDirectory Name}

/-- The cells are told by the directories, the marks and the watches. -/
theorem cell_of_eq (hr : s'.registry.root = s.registry.root)
    (hd : s'.registry.directories = s.registry.directories) (hst : s'.stale = s.stale)
    (hm : watched s'.registry.machine = watched s.registry.machine) :
    (∀ x, s'.cell watched x = s.cell watched x) ∧ s'.strays watched = s.strays watched := by
  refine ⟨fun x => ?_, ?_⟩
  · simp only [cell, forest, Registry.forest, Registry.get?, hr, hd, hst, hm]
  · simp only [strays, hr, hm]

/-- Below a registered directory, what is registered is below a registered child. -/
theorem registered_of_isPart (hs : Valid h.laws s) {x : List Name} (hy : y <+: x)
    (hx : s.forest x ≠ none) : s.forest y ≠ none :=
  fun hn => hx (Forest.none_below (fun z n _ => hs.sound.hangs z n) hn hy)

theorem unmarked_of_unregistered (hs : Valid h.laws s) {x : List Name} (hx : s.forest x = none) :
    (s.cell watched x).marked = false := by
  by_contra hm
  obtain ⟨z, hz, hne⟩ := hs.at_marked trivial ((Bool.not_eq_false _).mp hm)
  rw [hs.fits.root_eq] at hz
  exact hne ((Path.at_below _ x).unique hz ▸ hx)

/-! ## Passes that come to nothing -/

/-- A pass over a directory that is not registered, or that can neither be listed nor is gone. -/
theorem settles_idle (hs : Valid h.laws s) (hs' : Valid h.laws s')
    (hsame : (∀ x, s'.cell watched x = s.cell watched x) ∧ s'.strays watched = s.strays watched)
    (hy : s.forest y ≠ none → ¬ sc.Vanished y ∧ ¬ sc.Listed y) : Settles h {y} s s' where
  valid := hs'
  strays := hsame.2
  cells x := by
    rw [hsame.1]
    refine .same (fun hx => ⟨?_, ?_⟩) fun _ => ?_
    · rw [Scene.loses_singleton]
      intro hmiss
      obtain ⟨hv, hl⟩ := hy (registered_of_isPart hs hmiss.below hx)
      rcases hmiss with ⟨hv', -⟩ | ⟨hl', -⟩
      · exact hv hv'
      · exact hl hl'
    · rintro ⟨rfl, hl⟩
      exact (hy hx).2 hl
    · rintro ⟨hdir, z, rfl, hreg, n, hn, -⟩
      exact (hy hreg).2 ⟨_, Scene.look_of_stands h.readable (hdir.of_isPart (Covers.of_child hn))⟩

/-! ## A directory that is gone -/

theorem settles_retired (hs : Valid h.laws s) (hp : h.laws.Names p y) (hv : sc.Vanished y) :
    Settles h {y} s (s.retire host p) := by
  have hhang : s.forest.Hangs (y <+: ·) := fun z n _ => hs.sound.hangs z n
  obtain ⟨es, hretired⟩ := retired_retire hs.fits hp hhang
  have hmay : h.laws.MayFail y := Host.Steady.mayFail_iff.2 hv.not_listed
  have hup := upkeep_reshaped h s (y <+: ·) (fun _ => False)
    (fun x => unmarked_of_unregistered hs) (fun x n hx => hx.trans (List.prefix_append x [n]))
    (fun _ => False.elim) (fun _ _ => False.elim) (fun _ _ => id)
  have hr := hup.retire ⟨y, hp, List.prefix_rfl⟩ (.refl hs.fits)
  refine ⟨(Passed.retired hs hmay hretired).valid, hr.strays, fun x => ?_⟩
  have hc := hr.cells x
  generalize hcell : (s.retire host p).cell watched x = c at hc
  cases hc with
  | same =>
      refine .same (fun hx => ⟨?_, ?_⟩) fun _ => ?_
      · rw [Scene.loses_singleton]
        intro hmiss
        have hgone := hretired.gone x (Covers.singleton.2 hmiss.below)
        exact hx ((congrArg Cell.directory hcell).symm.trans hgone)
      · rintro ⟨rfl, hl⟩
        exact hv.not_listed hl
      · rintro ⟨hdir, z, rfl, -, n, hn, -⟩
        exact hv.not_stands h.readable (hdir.of_isPart (Covers.of_child hn))
  | left out registered => exact .emptied registered (Scene.loses_singleton.2 (.inl ⟨hv, out⟩))
  | entered within => exact within.elim

/-! ## A directory that is listed -/

/-- No pass fails. -/
theorem Passed.ok {r : Except Error Unit × Engine σ} {es : List Event}
    (hp : Passed h.laws y s r es) : r.1 = .ok () := by
  cases hr : r.1 with
  | ok => rfl
  | error e =>
      obtain ⟨-, z, hz⟩ := hp.failure e hr
      cases hz

section Listed

variable {r : Except Error Unit × Engine σ} {es : List Event}

/-- A pass over a directory that can be listed leaves nothing registered below what is no directory
of it. -/
theorem Passed.none_of_missed (hp : Passed h.laws y s r es) (hs : Valid h.laws s)
    (hy : s.forest y ≠ none) (hl : sc.Listed y) {x : List Name} {n : Name} (hn : y ++ [n] <+: x)
    (hd : ¬ sc.Stands (y ++ [n])) : r.2.forest x = none := by
  obtain ⟨⟨d, l, hdy, hlist, hd'⟩, -⟩ :=
    (hp.visited hy).resolve_left fun hmay => Host.Steady.mayFail_iff.1 hmay hl
  obtain ⟨rfl, -⟩ := Scene.of_look_eq_ok hlist.symm
  by_contra hx
  obtain ⟨d'', i, hd'', hi, hdir⟩ := hp.valid.sound.hangs y n (registered_of_isPart hp.valid hn hx)
  obtain rfl := Option.some.inj (hd'.symm.trans hd'')
  rw [TrackedDirectory.get?_items_reconcile (hs.sound.current y d hdy)] at hi
  obtain ⟨e, he, rfl⟩ := Option.map_eq_some_iff.1 hi
  refine hd ((Scene.stands_iff_listing h.readable hl).1 ?_)
  rw [he]
  exact congrArg some hdir

/-- A listing that shows a directory makes an item of it. -/
theorem carries_of_holds {F : Forest} (hy : F y = some d) (hd : d.Holds (sc.listing y))
    (hl : sc.Listed y) (hr : sc.Readable) {n : Name}
    (hn : sc.Stands (y ++ [n])) : F.Carries y n := by
  obtain ⟨e, he, hdir⟩ :=
    Option.map_eq_some_iff.1 ((Scene.stands_iff_listing hr hl).2 hn)
  rw [← hd.items] at he
  obtain ⟨i, hi, rfl⟩ := Option.map_eq_some_iff.1 he
  exact ⟨d, i, hy, hi, hdir⟩

/-- It registers every observable directory below an unregistered subdirectory. -/
theorem Passed.registered_of_reached (hp : Passed h.laws y s r es) (hs : Valid h.laws s)
    (hy : s.forest y ≠ none) {x : List Name} {n : Name} (hn : y ++ [n] <+: x)
    (hx : sc.Stands x) (hnone : s.forest (y ++ [n]) = none) : r.2.forest x ≠ none := by
  have hlisted : ∀ {z}, sc.Stands z → sc.Listed z :=
    fun hz => ⟨_, Scene.look_of_stands h.readable hz⟩
  obtain ⟨rest, rfl⟩ := hn
  induction rest using List.reverseRecOn with
  | nil =>
      rw [List.append_nil] at hx ⊢
      have hdy : sc.Stands y := hx.parent
      obtain ⟨⟨d, l, hd, hlist, hd'⟩, -, hwhole⟩ :=
        (hp.visited hy).resolve_left (Host.Steady.not_mayFail hdy)
      obtain ⟨rfl, -⟩ := Scene.of_look_eq_ok hlist.symm
      have hholds := TrackedDirectory.holds_reconcile (hs.sound.current y d hd) (sc.listing y)
      have hcarries := carries_of_holds hd' hholds (hlisted hdy) h.readable hx
      exact (hwhole hp.ok n hcarries).resolve_right (Host.Steady.not_mayFail hx)
  | append_singleton rest m ih =>
      rw [← List.append_assoc] at hx ⊢
      have hz := hx.parent
      have hreg := ih hz
      have hbelow : y ++ [n] <+: y ++ [n] ++ rest := List.prefix_append _ _
      have hne : y ++ [n] ++ rest ≠ y := by
        intro he
        exact Covers.not_prefix_child (he ▸ hbelow)
      have hnone' : s.forest (y ++ [n] ++ rest) = none :=
        Forest.none_below (fun z k _ => hs.sound.hangs z k) hnone hbelow
      rcases hp.drift.others _ hne hreg with ⟨hkept, -⟩ | ⟨⟨l, hlist, hd'⟩, -, hwhole⟩
      · exact absurd (hkept.trans hnone') hreg
      · obtain ⟨rfl, -⟩ := Scene.of_look_eq_ok hlist.symm
        have hholds := TrackedDirectory.holds_reconcile TrackedDirectory.current_empty
          (sc.listing (y ++ [n] ++ rest))
        have hcarries := carries_of_holds hd' hholds (hlisted hz) h.readable hx
        exact (hwhole hp.ok m hcarries).resolve_right (Host.Steady.not_mayFail hx)

end Listed

/-- What a listed directory loses: all that is below no directory of it. -/
def Losing (sc : Scene) (y x : List Name) : Prop := ∃ n, y ++ [n] <+: x ∧ ¬ sc.Stands (y ++ [n])

/-- What a listed directory gains: all directories below those of it that are not registered. -/
def Gaining (sc : Scene) (s : Engine σ) (y x : List Name) : Prop :=
  sc.Stands x ∧ ∃ n, y ++ [n] <+: x ∧ s.forest (y ++ [n]) = none

theorem not_losing_self : ¬ Losing sc y y := by
  rintro ⟨n, hn, -⟩
  exact Covers.not_prefix_child hn

theorem not_gaining_self : ¬ Gaining sc s y y := by
  rintro ⟨-, n, hn, -⟩
  exact Covers.not_prefix_child hn

theorem not_losing_of_stands {n : Name} (hn : sc.Stands (y ++ [n])) : ¬ Losing sc y (y ++ [n]) := by
  rintro ⟨k, hk, hlost⟩
  obtain rfl := Covers.child_unique hk List.prefix_rfl
  exact hlost hn

/-- Taking the listing of a directory over empties and fills cells below the directory. -/
theorem reshaped_absorb (hs : Valid h.laws s) (hp : h.laws.Names p y) (hd : s.forest y = some d)
    (hl : sc.Listed y) :
    Reshaped h (s.put p (d.reconcile (sc.listing y)).2) (Losing sc y) (Gaining sc s y)
      (s.absorb host p (sc.listing y)).2 := by
  set base := s.put p (d.reconcile (sc.listing y)).2 with hbase
  have hcur := hs.sound.current y d hd
  have hfit : h.laws.Fits base.registry := hs.fits.insert hp.1 _
  have hforest : base.forest = Function.update s.forest y (some (d.reconcile (sc.listing y)).2) :=
    hs.fits.forest_insert hp.1 _
  have hself : base.forest y = some (d.reconcile (sc.listing y)).2 := by
    rw [hforest, Function.update_self]
  have hold : ∀ x, x ≠ y → base.forest x = s.forest x := by
    intro x hx
    rw [hforest, Function.update_of_ne hx]
  have hchild : ∀ n, y ++ [n] ≠ y := fun n => by simp
  have hmark : ∀ x, base.forest x = none → (base.cell watched x).marked = false := by
    intro x hx
    have hxy : x ≠ y := by
      rintro rfl
      rw [hself] at hx
      cases hx
    exact unmarked_of_unregistered hs ((hold x hxy).symm.trans hx)
  have hsep : ∀ x, Losing sc y x → ¬ Gaining sc s y x := by
    rintro x ⟨n, hn, hnot⟩ ⟨hdir, -⟩
    exact hnot (hdir.of_isPart hn)
  have hnames : ∀ n, h.laws.Names (p.child n) (y ++ [n]) := hp.child
  have hdirectory : ∀ n, ((sc.listing y).entries.get? n).map (·.isDirectory) = some true ↔
      sc.Stands (y ++ [n]) := fun n => Scene.stands_iff_listing h.readable hl
  have hup := upkeep_reshaped h base (Losing sc y) (Gaining sc s y) hmark
    (by
      rintro x n ⟨k, hk, hnot⟩
      exact ⟨k, hk.trans (List.prefix_append x [n]), hnot⟩)
    (fun _ hx => hx.1)
    (by
      rintro x n ⟨-, k, hk, hnone⟩ hx
      exact ⟨hx, k, hk.trans (List.prefix_append x [n]), hnone⟩)
    hsep
  refine hup.absorb ((hs.fits.get?_eq hp.1).trans hd) (.refl hfit) ?_ ?_ (fun _ _ => trivial) ?_
  · intro e he
    refine ⟨trivial, fun hdir => ⟨_, hnames e.name, e.name, List.prefix_rfl, ?_⟩⟩
    rw [← hdirectory, ← hdir]
    exact ((TrackedDirectory.mem_deleted hcur).1 he).2
  · intro e he
    refine ⟨trivial, fun hdir => ⟨_, hnames e.name, ?_, e.name, List.prefix_rfl, ?_⟩⟩
    · rw [← hdirectory, ← hdir]
      exact (TrackedDirectory.mem_created.1 he).1
    · have hnew : ⟨e.name, true⟩ ∈ (d.reconcile (sc.listing y)).1.created := hdir ▸ he
      exact bare_of_created hs.sound hd hnew List.prefix_rfl
  · -- a directory that is tried again is shown by the listing, and was not registered before
    intro s' hs' q hq
    have hself' : s'.forest y = some (d.reconcile (sc.listing y)).2 :=
      (congrArg Cell.directory (hs'.kept not_losing_self not_gaining_self)).trans hself
    unfold unregistered at hq
    rw [hs'.fits.get?_eq hp.1, show s'.registry.forest y = _ from hself'] at hq
    obtain ⟨hq, hnot⟩ := List.mem_filter.1 hq
    obtain ⟨n, hn, rfl⟩ := List.mem_map.1 hq
    obtain ⟨i, hi, hdir⟩ := TrackedDirectory.mem_subdirectories.1 hn
    rw [TrackedDirectory.get?_items_reconcile hcur] at hi
    obtain ⟨e, he, rfl⟩ := Option.map_eq_some_iff.1 hi
    have hx : sc.Stands (y ++ [n]) := by
      rw [← hdirectory, he]
      exact congrArg some hdir
    refine ⟨_, hnames n, hx, n, List.prefix_rfl, ?_⟩
    have hnone : s'.forest (y ++ [n]) = none := by
      by_contra hne
      rw [(hs'.fits.contains_iff (hnames n).1).2 hne] at hnot
      cases hnot
    rw [← hold _ (hchild n)]
    exact hs'.none_before hnone (not_losing_of_stands hx)

/-- Taking the listing over leaves the watch of the directory and its mark as they are. Below it, it
empties and fills what a pass has to. -/
theorem cells_absorb (hs : Valid h.laws s) (hp : h.laws.Names p y) (hd : s.forest y = some d)
    (hl : sc.Listed y) (hm : ∀ q, Path.At sc.root q y → s.stale.contains q = false) :
    (s.absorb host p (sc.listing y)).1 = .ok () ∧
      Valid h.laws (s.absorb host p (sc.listing y)).2 ∧
      (s.absorb host p (sc.listing y)).2.strays watched = s.strays watched ∧
      (s.absorb host p (sc.listing y)).2.cell watched y =
        { s.cell watched y with directory := some (d.reconcile (sc.listing y)).2 } ∧
      ∀ x, x ≠ y → Turns sc watched s {y} x ((s.absorb host p (sc.listing y)).2.cell watched x) := by
  have hlists : h.laws.lists y (.ok (sc.listing y)) := hl.look_eq.symm
  obtain ⟨es, hpass⟩ := passed_absorb hp hs hd hlists hm
  have hreg : s.forest y ≠ none := by simp [hd]
  have hresh := reshaped_absorb hs hp hd hl
  have hforest := hs.fits.forest_insert hp.1 (d.reconcile (sc.listing y)).2
  refine ⟨hpass.ok, hpass.valid, hresh.strays, ?_, fun x hx => ?_⟩
  · rw [hresh.kept not_losing_self not_gaining_self]
    exact Cell.ext ((congrFun hforest y).trans (Function.update_self ..)) rfl rfl
  · have hold : (s.put p (d.reconcile (sc.listing y)).2).cell watched x = s.cell watched x :=
      Cell.ext ((congrFun hforest x).trans (Function.update_of_ne hx ..)) rfl rfl
    have hc := hresh.cells x
    rw [hold] at hc
    generalize hcell : (s.absorb host p (sc.listing y)).2.cell watched x = c at hc
    have hafter : (s.absorb host p (sc.listing y)).2.forest x = c.directory :=
      congrArg Cell.directory hcell
    cases hc with
    | same =>
        refine .same (fun hne => ⟨fun hlost => ?_, fun hxy => hx hxy.1⟩) fun hnone hreach => ?_
        · rw [Scene.loses_singleton, hl.misses_iff] at hlost
          obtain ⟨n, hn, hnot⟩ := hlost
          exact hne (hafter.symm.trans (hpass.none_of_missed hs hreg hl hn hnot))
        · obtain ⟨hdir, _, rfl, -, n, hn, hbare⟩ := hreach
          exact hpass.registered_of_reached hs hreg hn hdir hbare (hafter.trans hnone)
    | left out registered =>
        exact .emptied registered (Scene.loses_singleton.2 (hl.misses_iff.2 out))
    | entered within unregistered =>
        obtain ⟨hdir, n, hn, hbare⟩ := within
        exact .filled unregistered ⟨hdir, y, rfl, hreg, n, hn, hbare⟩ (Cell.filled_fresh _)

theorem Turns.congr {s₀ : Engine σ} {D : Set (List Name)} {x : List Name} {c : Cell}
    (hf : s.forest = s₀.forest) (hc : s.cell watched x = s₀.cell watched x)
    (ht : Turns sc watched s D x c) : Turns sc watched s₀ D x c := by
  have hreach : Reaches sc s D x = Reaches sc s₀ D x := by rw [Reaches, Reaches, hf]
  cases ht with
  | emptied registered lost => exact .emptied (hf ▸ registered) lost
  | renewed registered there visited listed hren =>
      exact .renewed (hf ▸ registered) there visited listed (hc ▸ hren)
  | filled unregistered reached hfill => exact .filled (hf ▸ unregistered) (hreach ▸ reached) hfill
  | same registered unregistered =>
      rw [hc]
      exact .same (hf ▸ registered) (hf ▸ hreach ▸ unregistered)

/-- A pass takes the listing over once the mark is dropped, and the watch placed anew if need be. -/
theorem settles_absorb {s₀ : Engine σ} (hs : Valid h.laws s) (hp : h.laws.Names p y)
    (hd : s.forest y = some d) (hl : sc.Listed y)
    (hm : ∀ q, Path.At sc.root q y → s.stale.contains q = false) (ha : Alters watched y s₀ s)
    (hf : s.forest y = s₀.forest y)
    (hw : (s.cell watched y).watched ↔
      (s₀.cell watched y).watched ∨ (s₀.cell watched y).Replaced (sc.listing y)) :
    (s.absorb host p (sc.listing y)).1 = .ok () ∧
      Settles h {y} s₀ (s.absorb host p (sc.listing y)).2 := by
  obtain ⟨hok, hvalid, hstrays, hself, hrest⟩ := cells_absorb hs hp hd hl hm
  have hforest : s.forest = s₀.forest := by
    funext z
    by_cases hz : z = y
    · rw [hz, hf]
    · exact ha.forest z hz
  refine ⟨hok, hvalid, hstrays.trans ha.strays, fun x => ?_⟩
  by_cases hx : x = y
  · subst hx
    refine .renewed (by rw [← hf, hd]; simp) ?_ rfl hl ?_
    · rw [Scene.loses_singleton]
      exact hl.not_misses_self
    · rw [hself]
      have hholds := TrackedDirectory.holds_reconcile (hs.sound.current x d hd) (sc.listing x)
      exact ⟨⟨⟨_, rfl, hholds⟩, hm _ (hs.fits.root_eq ▸ Path.at_below _ x)⟩, hw⟩
  · exact (hrest x hx).congr hforest (ha.cell hx)

/-! ## One pass -/

/-- Requests that change no cell may come before passes. -/
theorem Settles.of_same {s₀ : Engine σ} {D : Set (List Name)} (hset : Settles h D s s')
    (hsame : (∀ x, s.cell watched x = s₀.cell watched x) ∧ s.strays watched = s₀.strays watched) :
    Settles h D s₀ s' where
  valid := hset.valid
  strays := hset.strays.trans hsame.2
  cells x := (hset.cells x).congr (funext fun z => congrArg Cell.directory (hsame.1 z)) (hsame.1 x)

theorem cells_unmark (hf : h.laws.Fits s.registry) (hp : h.laws.Names p y) (c : Counters) :
    Alters watched y s { s.unmark p with counters := c } where
  root := rfl
  forest _ _ := rfl
  marks q z hq hz := by
    rw [hf.root_eq] at hq
    exact contains_erase_apart hp.1 hq hz _
  watches _ _ := Iff.rfl

theorem cells_rearm (hf : h.laws.Fits s.registry) (hp : h.laws.Names p y) :
    (s.registry.rearm host p).1 = .ok () ∧
      Alters watched y s { s with registry := (s.registry.rearm host p).2 } ∧
      (cell watched { s with registry := (s.registry.rearm host p).2 } y).watched := by
  have hpy : p.components = (s.registry.root.below y).components := by
    rw [hf.root_eq, Path.at_below]
    exact hp.1
  have hok : (s.registry.rearm host p).1 = .ok () :=
    h.spare p _ (hf.unwatch hp).machine
  have hmachine : watched (s.registry.rearm host p).2.machine =
      insert p.components (watched s.registry.machine \ {p.components}) := by
    refine (h.keeps.placed p _ hok).trans ?_
    rw [Registry.watched_unwatch h.keeps]
  refine ⟨hok, ⟨rfl, fun _ _ => rfl, fun _ _ _ _ => rfl, fun c hc => ?_⟩, ?_⟩
  · rw [hmachine, hpy, Set.mem_insert_iff, Set.mem_sdiff, Set.mem_singleton_iff]
    simp [hc]
  · change (s.registry.root.below y).components ∈ watched (s.registry.rearm host p).2.machine
    rw [hmachine, hpy]
    exact Set.mem_insert _ _

theorem wasReplaced_iff (hf : h.laws.Fits s.registry) (hp : h.laws.Names p y)
    (hd : s.forest y = some d) (l : Listing Name) :
    s.wasReplaced p d l = true ↔ (s.cell watched y).Replaced l := by
  have hmark := contains_stale_eq hf hp.1
  have hcell : (s.cell watched y).directory = some d := hd
  simp [wasReplaced, Cell.Replaced, hmark, hcell]

/-- Once the mark is dropped, a directory that was replaced gets a new watch, and the listing is
taken over. -/
theorem settles_renew {s₀ : Engine σ} (hs : Valid h.laws s) (hp : h.laws.Names p y)
    (hd : s.forest y = some d) (hl : sc.Listed y)
    (hm : ∀ q, Path.At sc.root q y → s.stale.contains q = false) (ha : Alters watched y s₀ s)
    (hf : s.forest y = s₀.forest y)
    (hw : (s.cell watched y).watched ↔ (s₀.cell watched y).watched) {replaced : Bool}
    (hr : replaced = true ↔ (s₀.cell watched y).Replaced (sc.listing y)) :
    (renew host p (sc.listing y) replaced s).1 = .ok () ∧
      Settles h {y} s₀ (renew host p (sc.listing y) replaced s).2 := by
  cases replaced with
  | false =>
      refine settles_absorb hs hp hd hl hm ha hf (hw.trans (or_iff_left fun hrep => ?_).symm)
      cases hr.2 hrep
  | true =>
      obtain ⟨hok, hrearmed, hplaced⟩ := cells_rearm hs.fits hp
      have hquiet := (quiet_rearm hp hs.fits).1
      have hvalid := hquiet.valid hs
      have hd' := (congrFun hquiet.forest y).trans hd
      simp only [renew, if_true]
      rcases hreg : s.registry.rearm host p with ⟨e | _, r⟩
      · rw [hreg] at hok
        cases hok
      · rw [hreg] at hrearmed hplaced hvalid hd'
        dsimp only at hrearmed hplaced hvalid hd' ⊢
        have hf' := hd'.trans (hd.symm.trans hf)
        refine settles_absorb hvalid hp hd' hl hm (ha.trans hrearmed) hf' ?_
        exact iff_of_true hplaced (.inr (hr.1 rfl))

/-- What comes of the answer to the request for a listing. -/
theorem settles_resume (hs : Valid h.laws s) (hp : h.laws.Names p y) (hd : s.forest y = some d) :
    (resume host p d s (sc.look y)).1 = .ok () ∧
      Settles h {y} s (resume host p d s (sc.look y)).2 := by
  unfold resume
  split
  · next hl => exact ⟨rfl, settles_retired hs hp ⟨_, hl⟩⟩
  · next e hne hl =>
      refine ⟨rfl, settles_idle hs hs ⟨fun _ => rfl, rfl⟩ fun _ => ⟨?_, ?_⟩⟩
      · rintro ⟨q, hv⟩
        exact hne q (Except.error.inj (hl.symm.trans hv))
      · rintro ⟨l, hlist⟩
        cases hl.symm.trans hlist
  · next l hl =>
      obtain ⟨rfl, -⟩ := Scene.of_look_eq_ok hl
      have hquiet := quiet_unmark (p := p) hs.fits
        { s.counters with diffed := s.counters.diffed + 1 }
      refine settles_renew (hquiet.valid hs) hp hd ⟨_, hl⟩ ?_ (cells_unmark hs.fits hp _) rfl Iff.rfl
        (wasReplaced_iff hs.fits hp hd _)
      intro q hq
      change (s.stale.erase p).contains q = false
      rw [OrderedMap.contains_erase, hq.compare_eq hp.1]
      rfl

/-- A pass over a directory below the root. -/
theorem settles_diff (hs : Valid h.laws s) (hp : h.laws.Names p y) :
    (s.diff host p).1 = .ok () ∧ Settles h {y} s (s.diff host p).2 := by
  have hget : s.registry.get? p = s.forest y := hs.fits.get?_eq hp.1
  cases hd : s.forest y with
  | none =>
      rw [diff_none (hget.trans hd)]
      refine ⟨rfl, settles_idle hs ((quiet_began hs.fits p).valid hs) ?_ (absurd hd)⟩
      exact cell_of_eq rfl rfl rfl rfl
  | some d =>
      obtain ⟨hquiet, hlook⟩ := quiet_listed hp hs.fits
      have hlook : ((s.registry.record (.began p)).list host p).1 = sc.look y := hlook
      rw [diff_eq (hget.trans hd), hlook]
      obtain ⟨hok, hset⟩ := settles_resume (hquiet.valid hs) hp hd
      refine ⟨hok, hset.of_same (cell_of_eq rfl rfl rfl ?_)⟩
      exact Registry.watched_list h.keeps _ p

/-! ## A batch -/

/-- The places of some paths. -/
def places (root : Path) (batch : List Path) : Set (List Name) :=
  {y | ∃ p ∈ batch, Path.At root p y}

/-- A pass over any path that is written plainly. -/
theorem settles_step (hs : Valid h.laws s) (hp : Path.Plain sc.root p) :
    ∃ es, (s.diff host p).1 = .ok () ∧
      Settles h {y | Path.At sc.root p y} s (s.diff host p).2 ∧
      s.registry.Reports (s.diff host p).2.registry es ∧
      (∀ e ∈ es, h.laws.Grounded e) ∧
      Mirror.Plays s.forest.known es (s.diff host p).2.forest.known := by
  by_cases hat : ∃ y, Path.At sc.root p y
  · obtain ⟨y, hy⟩ := hat
    have hnames : h.laws.Names p y := ⟨hy, y, hp y hy⟩
    have hplace : {z | Path.At sc.root p z} = {y} :=
      Set.ext fun z => ⟨fun hz => hz.unique hy, fun hz => hz ▸ hy⟩
    obtain ⟨hok, hset⟩ := settles_diff hs hnames
    obtain ⟨es, hes⟩ := passed_diff hnames hs
    obtain ⟨M, hplays, hM⟩ := hes.plays
    exact ⟨es, hok, hplace ▸ hset, hes.reports, hes.grounded, hM hok ▸ hplays⟩
  · have hnone : ∀ y, ¬ Path.At sc.root p y := fun y hy => hat ⟨y, hy⟩
    have hplace : {z | Path.At sc.root p z} = ∅ := Set.eq_empty_of_forall_notMem hnone
    have hquiet := quiet_began hs.fits p
    rw [diff_outside hs hnone, hplace]
    refine ⟨[], rfl, ?_, .nil hquiet.changes, by simp, .nil _⟩
    exact (Settles.refl (hquiet.valid hs)).of_same (cell_of_eq rfl rfl rfl rfl)

/-- Passes in turn over paths that are written plainly. -/
theorem settles_inTurn {batch : List Path} (hs : Valid h.laws s)
    (hp : ∀ p ∈ batch, Path.Plain sc.root p) :
    ∃ es, (inTurn (diff host) batch s).1 = .ok () ∧
      Settles h (places sc.root batch) s (inTurn (diff host) batch s).2 ∧
      s.registry.Reports (inTurn (diff host) batch s).2.registry es ∧
      (∀ e ∈ es, h.laws.Grounded e) ∧
      Mirror.Plays s.forest.known es (inTurn (diff host) batch s).2.forest.known := by
  induction batch generalizing s with
  | nil =>
      have hnone : places sc.root [] = ∅ := by simp [places]
      exact ⟨[], rfl, hnone ▸ .refl hs, .nil rfl, by simp, .nil _⟩
  | cons p batch ih =>
      obtain ⟨es, hok, hset, hr, hg, hplays⟩ := settles_step hs (hp p List.mem_cons_self)
      rw [inTurn]
      rcases hd : s.diff host p with ⟨_ | _, s'⟩
      · rw [hd] at hok
        cases hok
      · rw [hd] at hset hr hplays
        obtain ⟨fs, hok', hset', hr', hg', hplays'⟩ :=
          ih hset.valid fun q hq => hp q (List.mem_cons_of_mem p hq)
        have hunion : places sc.root (p :: batch) =
            {y | Path.At sc.root p y} ∪ places sc.root batch := by
          ext y
          simp [places]
        exact ⟨es ++ fs, hok', hunion ▸ hset.trans hset', hr.append hr',
          List.forall_mem_append.2 ⟨hg, hg'⟩, hplays.append hplays'⟩

end Engine

end DirWatch
