import DirWatch.Proofs.Worker.Rescan

/-! # A rescan reports the difference

Every notification of a rescan has a reason in what the file system shows, so it tells of its entry
what will be known of it in the end. What leads from the tracked entries to the observable ones in
this way is their difference, each change once. -/

namespace DirWatch

variable {σ : Type} {host : Host σ} {sc : Scene} {holds : σ → Prop}

namespace Engine

section Passes

variable {h : host.Presents sc holds} {hl : sc.Listable} {tidy : Prop} {s : Engine σ}
  {y : List Name}

/-- In the end, what is known of an observable directory is what its listing shows. -/
theorem Progress.known_eq (hs : Progress (h.laws hl tidy) s []) (hy : sc.Directory y) (n : Name) :
    s.forest.known y n = ((sc.listing y).entries.get? n).map (·.known) := by
  obtain ⟨d, hd, hmatch⟩ := (hs.ready_of_directory hy).current
  apply Option.ext
  intro k
  rw [Forest.known_eq_some, Option.map_eq_some_iff]
  simp only [Scene.get?_listing hl hy]
  constructor
  · rintro ⟨d', i, hd', hi, rfl⟩
    obtain rfl := Option.some.inj (hd.symm.trans hd')
    obtain ⟨m, hm, hf, ht⟩ := (hmatch.items n _ _).1 ⟨i, hi, rfl, rfl⟩
    exact ⟨_, ⟨m, hm, rfl⟩, by rw [hf, ht]; rfl⟩
  · rintro ⟨_, ⟨m, hm, rfl⟩, rfl⟩
    obtain ⟨i, hi, hf, ht⟩ := (hmatch.items n _ _).2 ⟨m, hm, rfl, rfl⟩
    exact ⟨d, i, hd, hi, by rw [← hf, ← ht]; rfl⟩

/-- In the end, nothing is known of other places. -/
theorem Progress.known_eq_none (hs : Progress (h.laws hl tidy) s []) (hy : ¬ sc.Directory y) :
    s.forest.known y = fun _ => none :=
  Forest.known_none (not_not.1 ((hs.registered_iff y).not.2 hy))

/-- What is taken to be gone is not observable. -/
theorem not_directory_of_gone {t : List Name} (ht : (h.laws hl tidy).Gone t) :
    ¬ sc.Directory t := by
  intro hdir
  rcases ht with hfail | ⟨y, n, l, rfl, hlist, hne⟩
  · exact Host.Presents.not_mayFail hdir hfail
  · obtain ⟨hy, m, hm, hd⟩ := Scene.directory_concat hdir
    obtain rfl := Host.Presents.eq_listing hlist
    rw [(Scene.get?_listing hl hy).2 ⟨m, hm, rfl⟩, Option.map_some, hd] at hne
    exact hne rfl

/-- What has a reason tells what will be known in the end. -/
theorem Progress.toward_of_grounded (hs : Progress (h.laws hl tidy) s []) (hk : sc.Linkless)
    {e : Event} (he : (h.laws hl tidy).Grounded e) : s.forest.known.Toward e := by
  have shown : ∀ {y n l i}, (h.laws hl tidy).lists y (.ok l) → l.entries.get? n = some i →
      s.forest.known y n = some i.known := by
    intro y n l i hlist hi
    obtain ⟨rfl, m, hm, hd⟩ := hlist.1 l rfl
    rw [hs.known_eq (hk.shown_of_listing hl hm hd hi).1, hi]
    rfl
  cases e with
  | created y n k =>
      obtain ⟨l, i, hlist, hi, rfl⟩ := he
      exact shown hlist hi
  | updated y n t =>
      obtain ⟨l, i, hlist, hi, ht⟩ := he
      exact (shown hlist hi).trans (congrArg some ht)
  | deleted y n f =>
      change (s.forest.known y n).map (·.isDirectory) ≠ some f
      by_cases hy : sc.Directory y
      · rcases he with ⟨l, hlist, hne⟩ | ⟨t, ht, hgone⟩
        · obtain rfl := Host.Presents.eq_listing hlist
          rw [hs.known_eq hy, Option.map_map]
          simpa only [Function.comp_def, ListedEntry.isDirectory_known] using hne
        · exact absurd (hy.of_isPart ht) (not_directory_of_gone hgone)
      · rw [hs.known_eq_none hy]
        simp

end Passes

end Engine

namespace Worker

variable {w : Worker σ}

/-- Without links, a rescan reports the difference between the tracked entries and the observable
ones, each change once and nothing else. -/
theorem rescan_difference (hw : w.Watches sc) (h : host.Presents sc holds) (hl : sc.Listable)
    (hk : sc.Linkless) (hm : holds w.registry.machine) :
    (w.answer host .rescan).2.1 = .ok () ∧
      ∃ cs : List Change, (w.answer host .rescan).2.2.registry.notifications =
          w.registry.notifications ++ cs.map .changed ∧
        IsDifference w.entries sc.Observable cs := by
  obtain ⟨es, hok, hp, ⟨cs, hcs, hv⟩, hg, hplays⟩ :=
    rescanned hw h hl hm fun no : False => no.elim
  have hshows := shows_entries hp.valid.anchored
  rw [entries_eq_of_progress hp] at hshows
  obtain ⟨hnodup, hdiff⟩ := hplays.difference (fun e he => hp.toward_of_grounded hk (hg e he))
    (shows_entries hw.anchored) hshows
  rw [← hv] at hnodup hdiff
  exact ⟨hok, cs, hcs, .of_views hnodup hdiff⟩

theorem linkless_shelf : shelfScene.Linkless := by
  -- the only directory below the root is its entry `a`
  have hdir : ∀ y n m, shelfScene.metadata (shelfScene.root.below (y ++ [n])) = .ok m →
      m.isDirectory = true → y = [] ∧ n = ⟨[0x61], by decide⟩ := by
    intro y n m hm hd
    have hat := Path.at_below shelfScene.root (y ++ [n])
    change Engine.shelfMetadata _ = _ at hm
    rw [Engine.shelfMetadata] at hm
    split at hm
    · next hp =>
        rcases hp with hp | hp
        · rw [hp] at hat
          have hnil := hat.unique (Path.at_below shelfScene.root [])
          simp at hnil
        · have ha : shelfScene.root.below [⟨[0x61], by decide⟩] = .ofString "/r/a" := by
            decide +kernel
          rw [hp, ← ha] at hat
          exact List.append_singleton_inj.1
            (hat.unique (Path.at_below shelfScene.root ([] ++ [⟨[0x61], by decide⟩])))
    · split at hm
      · obtain rfl := Except.ok.inj hm
        cases hd
      · cases hm
  constructor
  · intro y n m hm hd
    obtain ⟨rfl, -⟩ := hdir y n m hm hd
    exact ⟨_, rfl, rfl⟩
  · intro y n m es hm hd hes
    obtain ⟨rfl, rfl⟩ := hdir y n m hm hd
    obtain rfl := Except.ok.inj hes
    exact ⟨_, List.mem_cons_self, rfl, _, rfl, rfl⟩

/-- What the small tree has is created. -/
theorem rescan_difference_shelf :
    (shelfWorker.answer (Engine.shelf true) .rescan).2.1 = .ok () ∧
      ∃ cs : List Change,
        (shelfWorker.answer (Engine.shelf true) .rescan).2.2.registry.notifications =
          shelfWorker.registry.notifications ++ cs.map .changed ∧
        IsDifference shelfWorker.entries shelfScene.Observable cs :=
  rescan_difference watches_shelf presents_shelf listable_shelf linkless_shelf trivial

end Worker

end DirWatch
