import DirWatch.Proofs.Engine.Batch
import DirWatch.Proofs.Engine.Journal
import DirWatch.Proofs.Worker.Observed

/-! # The order of a batch

While a machine stands still, a batch of passes comes to the same end in whatever order they are
made, and tells the listener the same changes. Only the generations and the order of the changes
depend on it. -/

namespace DirWatch

variable {σ : Type} {host : Host σ} {sc : Scene} {holds : σ → Prop}
  {watched : σ → Set (List Component)}

/-- What a directory is tracked as: its entries and its identity. -/
def TrackedDirectory.shown (d : TrackedDirectory Name) :
    (Name → Option ListedEntry) × Option Identity :=
  (fun n => (d.items.get? n).map Item.listed, d.identity)

theorem TrackedDirectory.Holds.shown_eq {d : TrackedDirectory Name} {l : Listing Name}
    (h : d.Holds l) : d.shown = (fun n => l.entries.get? n, l.identity) :=
  Prod.ext (funext h.items) h.identity

theorem Forest.known_eq_of_shown {F G : Forest}
    (h : ∀ y, (F y).map (·.shown) = (G y).map (·.shown)) : F.known = G.known := by
  funext y n
  have hF : ∀ {H : Forest}, H.known y n =
      ((H y).map (·.shown)).bind fun v => (v.1 n).map ListedEntry.known := by
    intro H
    cases hd : H y with
    | none => rw [Forest.known, hd]; rfl
    | some d =>
        rw [Forest.known, hd, Option.map_some, Option.bind_some, Option.bind_some]
        simp only [TrackedDirectory.shown, Option.map_map]
        rfl
  rw [hF, hF, h]

/-! ## Places that are held alike -/

/-- Of a place the same is held, but for the generation. -/
structure Cell.Alike (c c' : Cell) : Prop where
  directory : c.directory.map (·.shown) = c'.directory.map (·.shown)
  marked : c.marked = c'.marked
  watched : c.watched ↔ c'.watched

namespace Cell

variable {l : Listing Name} {c c' : Cell}

theorem Alike.refl (c : Cell) : c.Alike c := ⟨rfl, rfl, Iff.rfl⟩

theorem UpToDate.alike (h : c.UpToDate l) (h' : c'.UpToDate l) (hw : c.watched ↔ c'.watched) :
    c.Alike c' where
  directory := by
    obtain ⟨d, hd, hholds⟩ := h.directory
    obtain ⟨d', hd', hholds'⟩ := h'.directory
    rw [hd, hd', Option.map_some, Option.map_some, hholds.shown_eq, hholds'.shown_eq]
  marked := h.unmarked.trans h'.unmarked.symm
  watched := hw

end Cell

namespace Engine

/-- What becomes of a place is determined but for the generation. -/
theorem Turns.alike {s : Engine σ} {D : Set (List Name)} {x : List Name} {c c' : Cell}
    (ht : Turns sc watched s D x c) (ht' : Turns sc watched s D x c') : c.Alike c' := by
  cases ht with
  | emptied registered lost =>
      cases ht' with
      | emptied => exact .refl _
      | renewed _ there => exact absurd lost there
      | filled unregistered => exact absurd unregistered registered
      | same registered' => exact absurd lost (registered' registered).1
  | renewed registered there visited listed hren =>
      cases ht' with
      | emptied _ lost => exact absurd lost there
      | renewed _ _ _ _ hren' =>
          exact hren.toUpToDate.alike hren'.toUpToDate (hren.watched.trans hren'.watched.symm)
      | filled unregistered => exact absurd unregistered registered
      | same registered' => exact absurd ⟨visited, listed⟩ (registered' registered).2
  | filled unregistered reached hfill =>
      cases ht' with
      | emptied registered => exact absurd unregistered registered
      | renewed registered => exact absurd unregistered registered
      | filled _ _ hfill' =>
          exact hfill.toUpToDate.alike hfill'.toUpToDate (iff_of_true hfill.watched hfill'.watched)
      | same _ unregistered' => exact absurd reached (unregistered' unregistered)
  | same registered unregistered =>
      cases ht' with
      | emptied registered' lost => exact absurd lost (registered registered').1
      | renewed registered' _ visited listed =>
          exact absurd ⟨visited, listed⟩ (registered registered').2
      | filled unregistered' reached => exact absurd reached (unregistered unregistered')
      | same => exact .refl _

/-- Two engines hold the same: the registered directories with their entries and identities, the
marks, and what is watched. Generations do not count. -/
structure Alike (watched : σ → Set (List Component)) (s s' : Engine σ) : Prop where
  directories : ∀ p, (s.registry.get? p).map (·.shown) = (s'.registry.get? p).map (·.shown)
  marks : ∀ p, s.stale.contains p = s'.stale.contains p
  watches : watched s.registry.machine = watched s'.registry.machine

section Settled

variable {h : host.Steady sc holds watched} {s s' s'' : Engine σ} {D : Set (List Name)}

/-- What leads to no place is neither registered nor marked. -/
theorem Valid.outside (hs : Valid h.laws s) {p : Path} (hp : ¬ ∃ y, Path.At sc.root p y) :
    s.registry.get? p = none ∧ s.stale.contains p = false := by
  have hn : ¬ s.registry.contains p = true := fun hc => hp (hs.fits.inside p hc)
  refine ⟨not_not.1 fun hne => hn (Option.isSome_iff_ne_none.2 hne), ?_⟩
  by_contra hm
  exact hn (hs.marked trivial p ((Bool.not_eq_false _).mp hm))

/-- What is watched is told place by place. -/
theorem mem_watched_iff (s : Engine σ) (c : List Component) :
    c ∈ watched s.registry.machine ↔ c ∈ s.strays watched ∨
      ∃ y, c = (s.registry.root.below y).components ∧ (s.cell watched y).watched := by
  constructor
  · intro hc
    by_cases hy : ∃ y, c = (s.registry.root.below y).components
    · obtain ⟨y, rfl⟩ := hy
      exact .inr ⟨y, rfl, hc⟩
    · exact .inl ⟨hc, fun y he => hy ⟨y, he⟩⟩
  · rintro (⟨hc, -⟩ | ⟨y, rfl, hc⟩)
    · exact hc
    · exact hc

theorem alike_of_cells (hs : Valid h.laws s) (hs' : Valid h.laws s')
    (hcells : ∀ x, (s.cell watched x).Alike (s'.cell watched x))
    (hstrays : s.strays watched = s'.strays watched) : Alike watched s s' where
  directories p := by
    by_cases hp : ∃ y, Path.At sc.root p y
    · obtain ⟨y, hy⟩ := hp
      rw [hs.fits.get?_eq hy, hs'.fits.get?_eq hy]
      exact (hcells y).directory
    · rw [(hs.outside hp).1, (hs'.outside hp).1]
  marks p := by
    by_cases hp : ∃ y, Path.At sc.root p y
    · obtain ⟨y, hy⟩ := hp
      rw [contains_stale_eq hs.fits hy, contains_stale_eq hs'.fits hy]
      exact (hcells y).marked
    · rw [(hs.outside hp).2, (hs'.outside hp).2]
  watches := by
    ext c
    rw [mem_watched_iff, mem_watched_iff, hstrays, hs.fits.root_eq, hs'.fits.root_eq]
    exact or_congr_right (exists_congr fun y => and_congr_right fun _ => (hcells y).watched)

end Settled

/-! ## The order -/

/-- Two orders of a batch leave engines alike, and report and count the same changes. Its paths are
written plainly. -/
theorem alike_of_perm {batch batch' : List Path} {s : Engine σ}
    (h : host.Steady sc holds watched) (hbatch : batch.Perm batch')
    (hplain : ∀ p ∈ batch, Path.Plain sc.root p)
    (ha : s.registry.Anchored) (hr : s.registry.root = sc.root) (hf : s.registry.filter = sc.filter)
    (hm : holds s.registry.machine)
    (hmarks : ∀ q, s.stale.contains q = true → s.registry.contains q = true) :
    let r := inTurn (diff host) batch s
    let r' := inTurn (diff host) batch' s
    r.1 = .ok () ∧ r'.1 = .ok () ∧ Alike watched r.2 r'.2 ∧
      r.2.counters.totals = r'.2.counters.totals ∧ ∃ cs cs' : List Change,
        r.2.registry.notifications = s.registry.notifications ++ cs.map .changed ∧
        r'.2.registry.notifications = s.registry.notifications ++ cs'.map .changed ∧
        (cs.map Change.view).Perm (cs'.map Change.view) := by
  intro r r'
  have hs : Valid h.laws s := valid_of_anchored ha hr hf hm fun _ => hmarks
  have hplaces : places sc.root batch' = places sc.root batch := by
    ext y
    simp only [places, hbatch.mem_iff]
  obtain ⟨es, hok, hset, ⟨cs, hcs, hview⟩, hg, hplays⟩ := settles_inTurn hs hplain
  obtain ⟨es', hok', hset', ⟨cs', hcs', hview'⟩, hg', hplays'⟩ :=
    settles_inTurn hs fun p hp => hplain p (hbatch.mem_iff.2 hp)
  rw [hplaces] at hset'
  have hcells : ∀ x, (r.2.cell watched x).Alike (r'.2.cell watched x) :=
    fun x => (hset.cells x).alike (hset'.cells x)
  have hchanges : (cs.map Change.view).Perm (cs'.map Change.view) := by
    -- both make the difference of what was known before to what is known afterwards
    have hknown : r'.2.forest.known = r.2.forest.known :=
      Forest.known_eq_of_shown fun y => (hcells y).directory.symm
    have htoward := hplays.toward fun e he => Host.Steady.toward_of_grounded (hg e he)
    have htoward' := hplays'.toward fun e he => Host.Steady.toward_of_grounded (hg' e he)
    obtain ⟨hnodup, hmem⟩ := hplays.differs htoward
    obtain ⟨hnodup', hmem'⟩ := hplays'.differs htoward'
    rw [hview, hview']
    refine ((List.perm_ext_iff_of_nodup hnodup hnodup').2 fun e => ?_).map _
    rw [hmem, hmem']
    change _ ↔ Mirror.Differs s.forest.known r'.2.forest.known e
    rw [hknown]
  refine ⟨hok, hok', ?_, ?_, cs, cs', hcs, hcs', hchanges⟩
  · exact alike_of_cells hset.valid hset'.valid hcells (hset.strays.trans hset'.strays.symm)
  · exact (totals_inTurn hcs).trans ((hchanges.foldl_eq _).trans (totals_inTurn hcs').symm)

/-! ## A directory that could not be watched at first -/

open Worker (cabinet cabinetDirectories cabinetFilter)

/-- The directories `a` and `a/b` with a hidden file `a/b/x`, on a machine that keeps a ledger of its
watches. -/
def ledger : Host (OrderedMap Path Unit) where
  metadata p m := ((cabinet.metadata p ()).1, m)
  target p m := ((cabinet.target p ()).1, m)
  canonical p m := (.ok p, m)
  readDirectory p m := ((cabinet.readDirectory p ()).1, m)
  watch p m := (.ok (), m.insert p ())
  unwatch p m := (.ok (), m.erase p)

/-- What the machine shows. -/
def cabinetScene : Scene where
  root := .ofString "/r"
  filter := cabinetFilter
  metadata p := (cabinet.metadata p ()).1
  readDirectory p := (cabinet.readDirectory p ()).1

/-- The same machine while it is busy with `a/b`. -/
def busy : Host (OrderedMap Path Unit) :=
  { ledger with
    watch p m :=
      if p.same (.ofString "/r/a/b") then (.error (.watcher "busy"), m) else ledger.watch p m }

/-- The root was registered while it was empty. -/
def unopened : Engine (OrderedMap Path Unit) where
  registry :=
    { root := .ofString "/r"
      filter := cabinetFilter
      directories := (∅ : OrderedMap Path (TrackedDirectory Name)).insert (.ofString "/r")
        (.ofListing {})
      machine := (∅ : OrderedMap Path Unit).insert (.ofString "/r") () }

/-- The root was passed over while the machine was busy: `a/b` is known and not registered. The watch
on `a` was dropped since. -/
def ajar : Engine (OrderedMap Path Unit) :=
  (unopened.diff busy (.ofString "/r")).2.markStale (.ofString "/r/a")

theorem below_cabinet : cabinetScene.root.below [] = .ofString "/r" ∧
    cabinetScene.root.below [nameA] = .ofString "/r/a" ∧
    cabinetScene.root.below [nameA, nameB] = .ofString "/r/a/b" := by
  refine ⟨?_, ?_, ?_⟩ <;> decide +kernel

theorem place_cabinet {p : Path} {y : List Name} (hy : Path.At cabinetScene.root p y)
    (hp : cabinetDirectories.any p.same = true) : y = [] ∨ y = [nameA] ∨ y = [nameA, nameB] := by
  obtain ⟨hroot, ha, hb⟩ := below_cabinet
  obtain ⟨q, hq, hpq⟩ := List.any_eq_true.1 hp
  have hat : Path.At cabinetScene.root q y := (Path.same_iff.1 hpq).symm.trans hy
  simp only [cabinetDirectories, List.mem_cons, List.not_mem_nil, or_false] at hq
  rcases hq with rfl | rfl | rfl
  · rw [← hroot] at hat
    exact .inl (hat.unique (Path.at_below _ _))
  · rw [← ha] at hat
    exact .inr (.inl (hat.unique (Path.at_below _ _)))
  · rw [← hb] at hat
    exact .inr (.inr (hat.unique (Path.at_below _ _)))

theorem metadata_cabinet {y : List Name} (hy : y = [] ∨ y = [nameA] ∨ y = [nameA, nameB]) :
    cabinetScene.metadata (cabinetScene.root.below y) = .ok { isDirectory := true } := by
  have hp : cabinetDirectories.any (cabinetScene.root.below y).same = true := by
    rcases hy with rfl | rfl | rfl <;> decide +kernel
  exact if_pos hp

/-- Nothing else is a directory. -/
theorem place_of_metadata_cabinet {y : List Name} {m : Metadata}
    (hm : cabinetScene.metadata (cabinetScene.root.below y) = .ok m) (hd : m.isDirectory = true) :
    y = [] ∨ y = [nameA] ∨ y = [nameA, nameB] := by
  refine place_cabinet (Path.at_below _ _) ?_
  by_contra hp
  change ite _ _ _ = _ at hm
  rw [if_neg hp] at hm
  split at hm
  · obtain rfl := Except.ok.inj hm
    cases hd
  · cases hm

/-- Each directory holds one entry. -/
theorem readDirectory_cabinet :
    cabinetScene.readDirectory (cabinetScene.root.below []) =
        .ok [⟨nameA, true, .ok { isDirectory := true }⟩] ∧
      cabinetScene.readDirectory (cabinetScene.root.below [nameA]) =
        .ok [⟨nameB, true, .ok { isDirectory := true }⟩] ∧
      cabinetScene.readDirectory (cabinetScene.root.below [nameA, nameB]) =
        .ok [⟨nameX, false, .ok { isDirectory := false }⟩] := by
  obtain ⟨hroot, ha, hb⟩ := below_cabinet
  rw [hroot, ha, hb]
  exact ⟨rfl, rfl, rfl⟩

theorem linkless_cabinet : cabinetScene.Linkless where
  parent y n m hm hd := by
    refine ⟨_, metadata_cabinet ?_, rfl⟩
    rcases place_of_metadata_cabinet hm hd with h | h | h
    · simp at h
    · have h : y ++ [n] = [] ++ [nameA] := h
      exact .inl (List.append_singleton_inj.1 h).1
    · have h : y ++ [n] = [nameA] ++ [nameB] := h
      exact .inr (.inl (List.append_singleton_inj.1 h).1)
  entry y n m es hm hd hes := by
    obtain ⟨hroot, ha, -⟩ := readDirectory_cabinet
    rcases place_of_metadata_cabinet hm hd with h | h | h
    · simp at h
    · have h : y ++ [n] = [] ++ [nameA] := h
      obtain ⟨rfl, rfl⟩ := List.append_singleton_inj.1 h
      obtain rfl := Except.ok.inj (hroot.symm.trans hes)
      exact ⟨_, List.mem_singleton_self _, rfl, _, rfl, rfl⟩
    · have h : y ++ [n] = [nameA] ++ [nameB] := h
      obtain ⟨rfl, rfl⟩ := List.append_singleton_inj.1 h
      obtain rfl := Except.ok.inj (ha.symm.trans hes)
      exact ⟨_, List.mem_singleton_self _, rfl, _, rfl, rfl⟩

theorem directory_cabinet {y : List Name} (h : cabinetScene.Directory y) :
    y = [] ∨ y = [nameA] ∨ y = [nameA, nameB] := by
  obtain ⟨hroot, ha, hb⟩ := readDirectory_cabinet
  induction h with
  | root => exact .inl rfl
  | @child y n m parent shown isDirectory ih =>
      obtain ⟨-, es, e, hes, he, rfl, hm⟩ := shown
      rcases ih with rfl | rfl | rfl
      · obtain rfl := Except.ok.inj (hroot.symm.trans hes)
        obtain rfl := List.mem_singleton.1 he
        exact .inr (.inl rfl)
      · obtain rfl := Except.ok.inj (ha.symm.trans hes)
        obtain rfl := List.mem_singleton.1 he
        exact .inr (.inr rfl)
      · obtain rfl := Except.ok.inj (hb.symm.trans hes)
        obtain rfl := List.mem_singleton.1 he
        obtain rfl := Except.ok.inj hm
        cases isDirectory

theorem listable_cabinet : cabinetScene.Listable where
  looked y hy := by
    rcases directory_cabinet hy with rfl | rfl | rfl <;> decide +kernel
  found y hy := ⟨_, metadata_cabinet (directory_cabinet hy), rfl⟩
  shown y hy := by
    obtain ⟨hroot, ha, hb⟩ := readDirectory_cabinet
    rcases directory_cabinet hy with rfl | rfl | rfl
    · exact ⟨_, hroot, List.nodup_singleton _⟩
    · exact ⟨_, ha, List.nodup_singleton _⟩
    · exact ⟨_, hb, List.nodup_singleton _⟩

theorem steady_ledger : ledger.Steady cabinetScene (fun _ => True) (fun m => m.places) where
  presents :=
    { metadata := fun _ _ _ => ⟨rfl, trivial⟩
      readDirectory := fun _ _ _ => ⟨rfl, trivial⟩
      watch := fun _ _ _ => trivial
      unwatch := fun _ _ _ => trivial
      watched := fun _ _ _ _ => rfl
      notFatal := fun _ _ _ _ he => by cases he }
  keeps :=
    { metadata := fun _ _ => rfl
      target := fun _ _ => rfl
      readDirectory := fun _ _ => rfl
      placed := fun p m _ => m.places_insert p ()
      refused := fun _ _ _ he => by cases he
      removed := fun p m => m.places_erase p }
  readable := ⟨linkless_cabinet, fun _ => listable_cabinet⟩
  spare _ _ _ := rfl

/-- The machine was busy, and nothing else went wrong. -/
theorem valid_ajar : Valid steady_ledger.laws ajar := by
  have hstart : Valid (HostLaws.any busy (.ofString "/r") cabinetFilter True) unopened :=
    valid_of_anchored (anchored_start (l := {}) rfl) rfl rfl trivial (by simp [unopened])
  have hpass := valid_diff hstart (.ofString "/r")
  unfold ajar
  generalize (unopened.diff busy (.ofString "/r")).2 = s at hpass
  refine valid_of_anchored ?_ ?_ ?_ trivial fun _ => marked_markStale (hpass.marked trivial) _
  all_goals rw [registry_markStale]
  · exact hpass.anchored
  · exact hpass.fits.root_eq
  · exact hpass.fits.filter_eq

/-- The directory `a/b` is registered in the pass over `a`, before or after a pass over it. -/
theorem alike_of_perm_cabinet :
    let r := inTurn (diff ledger) [.ofString "/r/a", .ofString "/r/a/b"] ajar
    let r' := inTurn (diff ledger) [.ofString "/r/a/b", .ofString "/r/a"] ajar
    r.1 = .ok () ∧ r'.1 = .ok () ∧ Alike (fun m => m.places) r.2 r'.2 ∧
      r.2.counters.totals = r'.2.counters.totals ∧ ∃ cs cs' : List Change,
        r.2.registry.notifications = ajar.registry.notifications ++ cs.map .changed ∧
        r'.2.registry.notifications = ajar.registry.notifications ++ cs'.map .changed ∧
        (cs.map Change.view).Perm (cs'.map Change.view) := by
  refine alike_of_perm steady_ledger (.swap _ _ _) ?_ valid_ajar.anchored valid_ajar.fits.root_eq
    valid_ajar.fits.filter_eq trivial (valid_ajar.marked trivial)
  intro p hp
  obtain ⟨-, ha, hb⟩ := below_cabinet
  simp only [List.mem_cons, List.not_mem_nil, or_false] at hp
  rcases hp with rfl | rfl
  · exact ha ▸ Path.plain_below _ _
  · exact hb ▸ Path.plain_below _ _

end Engine

end DirWatch
