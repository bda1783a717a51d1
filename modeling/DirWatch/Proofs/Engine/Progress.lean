import DirWatch.Proofs.Engine.Pass
import DirWatch.Proofs.Scene

/-! # Passes while nothing changes

While nothing changes, each pass brings one directory up to date and registers what is observable
below it. When nothing awaits a pass any more, the registered directories are the observable ones. -/

namespace DirWatch

variable {σ : Type} {host : Host σ} {sc : Scene} {holds : σ → Prop}

/-! ## Directories that are up to date -/

/-- A tracked directory has the entries and the identity that the file system shows. -/
structure Scene.Matches (sc : Scene) (y : List Name) (d : TrackedDirectory Name) : Prop where
  items : ∀ n f t, (∃ i, d.items.get? n = some i ∧ i.isDirectory = f ∧ i.modified = t) ↔
    ∃ m, sc.Shows y n m ∧ m.isDirectory = f ∧ m.modified = t
  identity : ∀ m, sc.metadata (sc.root.below y) = .ok m → d.identity = m.identity

namespace Scene.Matches

theorem reconcile (hl : sc.Listable) {y : List Name} (hy : sc.Directory y)
    {d : TrackedDirectory Name} (hd : d.Current) :
    sc.Matches y (d.reconcile (sc.listing y)).2 where
  items n f t := by
    rw [TrackedDirectory.get?_items_reconcile hd]
    simp only [Option.map_eq_some_iff, get?_listing hl hy]
    constructor
    · rintro ⟨_, ⟨_, ⟨m, hm, rfl⟩, rfl⟩, rfl, rfl⟩
      exact ⟨m, hm, rfl, rfl⟩
    · rintro ⟨m, hm, rfl, rfl⟩
      exact ⟨_, ⟨_, ⟨m, hm, rfl⟩, rfl⟩, rfl, rfl⟩
  identity m hm := by rw [TrackedDirectory.identity_reconcile, identity_listing hm]

/-- The items that are directories are the observable directories. -/
theorem directory {y : List Name} (hy : sc.Directory y) {d : TrackedDirectory Name}
    (h : sc.Matches y d) {F : Forest} (hd : F y = some d) {n : Name} (hc : F.Carries y n) :
    sc.Directory (y ++ [n]) := by
  obtain ⟨d', i, hd', hi, hdir⟩ := hc
  obtain rfl := Option.some.inj (hd.symm.trans hd')
  obtain ⟨m, hm, hmd, -⟩ := (h.items n true i.modified).1 ⟨i, hi, hdir, rfl⟩
  exact .child hy hm hmd

end Scene.Matches

namespace Engine

/-- A directory is up to date, its subdirectories are registered, and if all is tidy it is not
marked. -/
structure Ready (sc : Scene) (tidy : Prop) (s : Engine σ) (y : List Name) : Prop where
  current : ∃ d, s.forest y = some d ∧ sc.Matches y d
  whole : ∀ n, s.forest.Carries y n → s.forest (y ++ [n]) ≠ none
  unmarked : tidy → ∀ q, Path.At sc.root q y → s.stale.contains q = false

/-- Of the registered directories that are observable, those that await no pass are ready. -/
structure Progress (L : HostLaws host sc.root sc.filter) (s : Engine σ) (rest : List Path) :
    Prop where
  valid : Valid L s
  rooted : s.forest [] ≠ none
  ready : ∀ y, sc.Directory y → s.forest y ≠ none →
    (∃ p ∈ rest, Path.At sc.root p y) ∨ Ready sc L.tidy s y

section Passes

variable (h : host.Presents sc holds) (hl : sc.Listable) {tidy : Prop} {s : Engine σ} {p : Path}
  {rest : List Path} {y : List Name} {es : List Event} {r : Except Error Unit × Engine σ}

/-- A pass that brings a directory up to date leaves it ready. -/
theorem ready_of_whole (hok : r.1 = .ok ()) (hy : sc.Directory y) {d : TrackedDirectory Name}
    (hd : r.2.forest y = some d) (hmatch : sc.Matches y d)
    (hu : tidy → ∀ q, Path.At sc.root q y → r.2.stale.contains q = false)
    (hw : Whole (h.laws hl tidy) r y) : Ready sc tidy r.2 y := by
  refine ⟨⟨d, hd, hmatch⟩, ?_, hu⟩
  intro n hc
  exact (hw hok n hc).resolve_right (Host.Presents.not_mayFail (hmatch.directory hy hd hc))

theorem ready_of_renewed (hs : Valid (h.laws hl tidy) s) (hr : Renewed (h.laws hl tidy) y s r)
    (hok : r.1 = .ok ()) (hy : sc.Directory y) : Ready sc tidy r.2 y := by
  obtain ⟨⟨d, l, hd, hlist, hd'⟩, hu, hw⟩ := hr
  obtain rfl := Host.Presents.eq_listing hlist
  have hmatch := Scene.Matches.reconcile hl hy (hs.sound.current y d hd)
  exact ready_of_whole h hl hok hy hd' hmatch (fun _ => hu) hw

theorem ready_of_fresh (hf : Fresh (h.laws hl tidy) r y) (hok : r.1 = .ok ())
    (hy : sc.Directory y) : Ready sc tidy r.2 y := by
  obtain ⟨⟨l, hlist, hd⟩, hu, hw⟩ := hf
  obtain rfl := Host.Presents.eq_listing hlist
  have hmatch := Scene.Matches.reconcile hl hy TrackedDirectory.current_empty
  exact ready_of_whole h hl hok hy hd hmatch hu hw

theorem ready_of_kept (hd : Drift (h.laws hl tidy) y s r) {z : List Name}
    (hk : Kept (h.laws hl tidy) s.forest r.2.forest z) (hz : sc.Directory z)
    (hr : Ready sc tidy s z) : Ready sc tidy r.2 z := by
  obtain ⟨d, hsd, hmatch⟩ := hr.current
  refine ⟨⟨d, hk.1.trans hsd, hmatch⟩, ?_, ?_⟩
  · intro n hc
    have hc' := hc.congr hk.1
    refine (hk.2 n (hr.whole n hc')).resolve_right ?_
    exact Host.Presents.not_mayFail (hmatch.directory hz hsd hc')
  · exact fun ht q hq => hd.unmarked (hr.unmarked ht q hq)

/-- A pass over a directory below the root does not fail, and makes progress. -/
theorem progress_passed (hs : Progress (h.laws hl tidy) s (p :: rest)) (hat : Path.At sc.root p y)
    (hp : Passed (h.laws hl tidy) y s r es) :
    r.1 = .ok () ∧ Progress (h.laws hl tidy) r.2 rest := by
  have hok : r.1 = .ok () := by
    cases hr : r.1 with
    | ok => rfl
    | error e =>
        obtain ⟨hfatal, z, hz⟩ := hp.failure e hr
        exact absurd hz (Host.Presents.not_fatal hfatal)
  have hrenewed : sc.Directory y → s.forest y ≠ none → Renewed (h.laws hl tidy) y s r :=
    fun hy hne => (hp.visited hne).resolve_left (Host.Presents.not_mayFail hy)
  refine ⟨hok, hp.valid, ?_, ?_⟩
  · by_cases hy : y = []
    · subst hy
      obtain ⟨⟨d, l, -, -, hd⟩, -⟩ := hrenewed .root hs.rooted
      rw [hd]
      simp
    · rw [hp.drift.outside [] fun hpre => hy (List.prefix_nil.1 hpre)]
      exact hs.rooted
  · intro z hz hne
    by_cases hzy : z = y
    · subst hzy
      have hreg : s.forest z ≠ none := fun hn => hne (hp.absent hn)
      exact .inr (ready_of_renewed h hl hs.valid (hrenewed hz hreg) hok hz)
    · rcases hp.drift.others z hzy hne with hk | hf
      · rw [hk.1] at hne
        rcases hs.ready z hz hne with ⟨q, hq, hqz⟩ | hr
        · rcases List.mem_cons.1 hq with rfl | hq
          · exact absurd (hqz.unique hat) hzy
          · exact .inl ⟨q, hq, hqz⟩
        · exact .inr (ready_of_kept h hl hp.drift hk hz hr)
      · exact .inr (ready_of_fresh h hl hf hok hz)

/-- A pass over any path makes progress. What it reports leads a listener along. -/
theorem progress_diff (hs : Progress (h.laws hl tidy) s (p :: rest))
    (hp : Path.Plain sc.root p) :
    ∃ es, (s.diff host p).1 = .ok () ∧ Progress (h.laws hl tidy) (s.diff host p).2 rest ∧
      s.registry.Reports (s.diff host p).2.registry es ∧
      (∀ e ∈ es, (h.laws hl tidy).Grounded e) ∧
      Mirror.Plays s.forest.known es (s.diff host p).2.forest.known := by
  by_cases hat : ∃ y, Path.At sc.root p y
  · obtain ⟨y, hy⟩ := hat
    obtain ⟨es, hes⟩ := passed_diff (L := h.laws hl tidy) ⟨hy, ⟨y, hp y hy⟩⟩ hs.valid
    obtain ⟨hok, hprog⟩ := progress_passed h hl hs hy hes
    obtain ⟨M, hplays, hM⟩ := hes.plays
    exact ⟨es, hok, hprog, hes.reports, hes.grounded, hM hok ▸ hplays⟩
  · rw [diff_outside hs.valid fun y hy => hat ⟨y, hy⟩]
    refine ⟨[], rfl, ⟨?_, hs.rooted, ?_⟩, .nil ?_, by simp, .nil _⟩
    · exact ⟨hs.valid.fits.of_eq rfl rfl rfl hs.valid.fits.machine, hs.valid.sound,
        hs.valid.marked⟩
    · intro y hy hne
      rcases hs.ready y hy hne with ⟨q, hq, hqy⟩ | hr
      · rcases List.mem_cons.1 hq with rfl | hq
        · exact absurd ⟨y, hqy⟩ hat
        · exact .inl ⟨q, hq, hqy⟩
      · exact .inr ⟨hr.current, hr.whole, hr.unmarked⟩
    · exact (Registry.notifications_record _ _).trans (List.append_nil _)

/-- Passes in turn, until nothing awaits one. -/
theorem progress_inTurn {batch : List Path} (hs : Progress (h.laws hl tidy) s batch)
    (hp : ∀ p ∈ batch, Path.Plain sc.root p) :
    ∃ es, (inTurn (diff host) batch s).1 = .ok () ∧
      Progress (h.laws hl tidy) (inTurn (diff host) batch s).2 [] ∧
      s.registry.Reports (inTurn (diff host) batch s).2.registry es ∧
      (∀ e ∈ es, (h.laws hl tidy).Grounded e) ∧
      Mirror.Plays s.forest.known es (inTurn (diff host) batch s).2.forest.known := by
  induction batch generalizing s with
  | nil => exact ⟨[], rfl, hs, .nil rfl, by simp, .nil _⟩
  | cons p batch ih =>
      obtain ⟨es, hok, hprog, hr, hg, hplays⟩ := progress_diff h hl hs (hp p List.mem_cons_self)
      rw [inTurn]
      rcases hd : s.diff host p with ⟨_ | _, s'⟩
      · rw [hd] at hok
        cases hok
      · rw [hd] at hprog hr hplays
        obtain ⟨fs, hok', hprog', hr', hg', hplays'⟩ :=
          ih hprog fun q hq => hp q (List.mem_cons_of_mem p hq)
        exact ⟨es ++ fs, hok', hprog', hr.append hr', List.forall_mem_append.2 ⟨hg, hg'⟩,
          hplays.append hplays'⟩

variable {h hl}

theorem Progress.done (hs : Progress (h.laws hl tidy) s []) (hy : sc.Directory y)
    (hne : s.forest y ≠ none) : Ready sc tidy s y := by
  rcases hs.ready y hy hne with ⟨q, hq, -⟩ | hr
  · cases hq
  · exact hr

/-- When nothing awaits a pass, what is registered is what is observable. -/
theorem Progress.registered_iff (hs : Progress (h.laws hl tidy) s []) (y : List Name) :
    s.forest y ≠ none ↔ sc.Directory y := by
  constructor
  · intro hne
    induction y using List.reverseRecOn with
    | nil => exact .root
    | append_singleton y n ih =>
        have hc := hs.valid.sound.hangs y n hne
        have hreg : s.forest y ≠ none := by
          obtain ⟨d, i, hd, -⟩ := hc
          simp [hd]
        obtain ⟨d, hd, hmatch⟩ := (hs.done (ih hreg) hreg).current
        exact hmatch.directory (ih hreg) hd hc
  · intro hy
    induction hy with
    | root => exact hs.rooted
    | @child y n m parent shown isDirectory ih =>
        have hr := hs.done parent ih
        obtain ⟨d, hd, hmatch⟩ := hr.current
        obtain ⟨i, hi, hdir, -⟩ := (hmatch.items n true m.modified).2 ⟨m, shown, isDirectory, rfl⟩
        exact hr.whole n ⟨d, i, hd, hi, hdir⟩

theorem Progress.ready_of_directory (hs : Progress (h.laws hl tidy) s []) {y : List Name}
    (hy : sc.Directory y) : Ready sc tidy s y :=
  hs.done hy ((hs.registered_iff y).2 hy)

/-- When nothing awaits a pass, nothing is marked. -/
theorem Progress.stale_eq (hs : Progress (h.laws hl tidy) s []) (ht : tidy) : s.stale = ∅ := by
  apply OrderedMap.eq_empty_of_contains
  intro q
  by_contra hq
  rw [Bool.not_eq_false] at hq
  obtain ⟨y, hy, hne⟩ := hs.valid.at_marked ht hq
  rw [(hs.ready_of_directory ((hs.registered_iff y).1 hne)).unmarked ht q hy] at hq
  cases hq

end Passes

end Engine

end DirWatch
