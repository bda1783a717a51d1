import DirWatch.Proofs.Engine.Invariant
import DirWatch.Proofs.Registry.Observed

/-! # What the first walk registers

A walk comes to a directory by way of the directory that lists it, and every directory it comes to
is tried. The walk goes on below a directory that could not be registered. So a registered directory
hangs on an item of the directory that lists it, unless that one was refused. -/

namespace DirWatch

variable {σ : Type} {host : Host σ} {sc : Scene} {holds : σ → Prop}

/-! ## Machines that may fail -/

/-- No directory lists a name twice, and what is looked up by its path is shown likewise by the
directory that lists it. -/
structure Scene.Coherent (sc : Scene) : Prop where
  distinct : ∀ p es, sc.readDirectory p = .ok es → (es.map (·.name)).Nodup
  entry : ∀ p es e m, sc.readDirectory p = .ok es → e ∈ es →
    sc.metadata (p.child e.name) = .ok m → e.metadata = .ok m

/-- What a machine tells is true of a scene. Any request may fail, at any time. -/
structure Host.Glimpses (host : Host σ) (sc : Scene) (holds : σ → Prop) : Prop where
  metadata : ∀ p s, holds s →
    (∀ m, (host.metadata p s).1 = .ok m → sc.metadata p = .ok m) ∧ holds (host.metadata p s).2
  target : ∀ p s, holds s → holds (host.target p s).2
  readDirectory : ∀ p s, holds s →
    (∀ es, (host.readDirectory p s).1 = .ok es → sc.readDirectory p = .ok es) ∧
      holds (host.readDirectory p s).2
  watch : ∀ p s, holds s → holds (host.watch p s).2
  unwatch : ∀ p s, holds s → holds (host.unwatch p s).2

/-- A directory as it is tracked after its listing was taken. -/
structure Scene.Taken (sc : Scene) (y : List Name) (d : TrackedDirectory Name) : Prop where
  listed : d = .ofListing (sc.listing y)
  found : ∃ m, sc.metadata (sc.root.below y) = .ok m ∧ m.isDirectory = true
  shown : ∃ es, sc.readDirectory (sc.root.below y) = .ok es

/-- A listing that is taken is the listing of the scene. -/
theorem Host.Glimpses.list (h : host.Glimpses sc holds) (y : List Name) {s : σ} (hs : holds s) :
    let taken := host.list (fun n => sc.filter.allows (.ofNames (y ++ [n]))) (sc.root.below y) s
    holds taken.2 ∧ ∀ l, taken.1 = .ok l → sc.Taken y (.ofListing l) := by
  dsimp only
  rw [Host.list]
  split
  · exact ⟨hs, by simp⟩
  obtain ⟨hm, hms⟩ := h.metadata (sc.root.below y) s hs
  split
  · next he =>
      rw [he] at hms
      exact ⟨hms, by simp⟩
  next m s₁ he =>
  rw [he] at hm hms
  obtain ⟨hr, hrs⟩ := h.readDirectory (sc.root.below y) s₁ hms
  split
  · exact ⟨hms, by simp⟩
  next hd =>
  split
  · next he =>
      rw [he] at hrs
      exact ⟨hrs, by simp⟩
  next es s₂ he =>
  rw [he] at hr hrs
  refine ⟨hrs, ?_⟩
  rintro l ⟨⟩
  have hmeta := hm m rfl
  have hread := hr es rfl
  refine ⟨?_, ⟨m, hmeta, by simpa using hd⟩, es, hread⟩
  rw [Scene.listing, hmeta, hread]
  rfl

/-! ## Walks -/

/-- The place is the root, or it was visited. -/
def Scene.Met (sc : Scene) (visits : List Visit) (y : List Name) : Prop :=
  y = [] ∨ ∃ u ∈ visits, u.path = sc.root.below y

/-- A visit is of an observed place. A directory that is the root or was visited shows it, unless it
is the root. -/
def Scene.ComesTo (sc : Scene) (visits : List Visit) (v : Visit) : Prop :=
  ∃ y, v.path = sc.root.below y ∧ sc.filter.allows (.ofNames y) = true ∧
    ∀ z n, y = z ++ [n] → sc.Met visits z ∧
      ∃ es e, sc.readDirectory (sc.root.below z) = .ok es ∧ e ∈ es ∧ e.name = n

theorem Scene.Met.mono {visits later : List Visit} {y : List Name} (h : sc.Met visits y)
    (hlater : visits ⊆ later) : sc.Met later y :=
  h.imp id fun ⟨u, hu, hpath⟩ => ⟨u, hlater hu, hpath⟩

theorem Scene.ComesTo.mono {visits later : List Visit} {v : Visit} (h : sc.ComesTo visits v)
    (hlater : visits ⊆ later) : sc.ComesTo later v := by
  obtain ⟨y, hpath, hallows, hshown⟩ := h
  exact ⟨y, hpath, hallows, fun z n hy => (hshown z n hy).imp (·.mono hlater) id⟩

/-- A walk comes to a directory by way of the directory that lists it. -/
theorem Walk.comesTo_traverse (h : host.Glimpses sc holds) (only rooted : Bool) {s : σ}
    (hs : holds s) : ((⟨sc.root, sc.filter, only, rooted⟩ : Walk).traverse host s).Keeps
      (fun (_ : Unit) => holds) sc.ComesTo [] () := by
  have hroot : ∀ visits v, v.path = sc.root → sc.ComesTo visits v := by
    intro visits v hv
    refine ⟨[], hv, sc.filter.allows_nil, fun z n hz => ?_⟩
    simp at hz
  refine Keeping.traverse (D := fun visits p => ∃ y, p = sc.root.below y ∧ sc.Met visits y) ?_ hs
  refine
    { metadata := fun _ p s hs => (h.metadata p s hs).2
      target := fun _ p s hs => h.target p s hs
      readDirectory := fun _ p s hs => (h.readDirectory p s hs).2
      mono := fun _ _ hlater =>
        ⟨fun _ => Exists.imp fun _ => And.imp id (·.mono hlater), fun _ => (·.mono hlater)⟩
      root := fun _ => ⟨[], rfl, .inl rfl⟩
      first := fun _ _ => hroot [] _ rfl
      entry := ?_ }
  rintro visits _ _ s es e ⟨y, rfl, hmet⟩ hs hread he hallows looked v
  have hchild : (sc.root.below y).child e.name = sc.root.below (y ++ [e.name]) :=
    (Path.below_concat sc.root y e.name).symm
  rw [hchild, relativeTo_below] at hallows
  refine ⟨⟨y ++ [e.name], hchild, hallows, fun z n hz => ?_⟩, fun _ => ?_⟩
  · obtain ⟨rfl, rfl⟩ := List.append_singleton_inj.1 hz
    exact ⟨hmet, es, e, (h.readDirectory _ s hs).1 es hread, he, rfl⟩
  · exact ⟨_, hchild, .inr ⟨v, List.mem_append_right _ List.mem_cons_self, hchild⟩⟩

/-! ## Registrations -/

/-- A directory that is not registered is retired without a trace: what is registered below it
stays. -/
theorem Engine.registry_retire_of_none {s : Engine σ} {p : Path} (h : s.registry.get? p = none) :
    (s.retire host p).registry = s.registry := by
  rw [retire, retireAll_skip h, retireAll_nil]
  rfl

namespace Registry

/-- Registering a directory has failed: it could not be watched or not be listed. -/
def Refused (r : Registry σ) (p : Path) : Prop :=
  ∃ e, .watched p (.error e) ∈ r.journal ∨ .listed p (.error e) ∈ r.journal

theorem Refused.mono {r r' : Registry σ} {p : Path} (h : r.Refused p)
    (hj : r.journal <+: r'.journal) : r'.Refused p :=
  h.imp fun _ he => he.imp (fun he => hj.subset he) fun he => hj.subset he

theorem journal_register (host : Host σ) (r : Registry σ) (p : Path) :
    r.journal <+: (r.register host p).2.journal :=
  register_keeps (I := fun r' : Registry σ => r.journal <+: r'.journal)
    (fun _ h => h.trans (List.prefix_append _ _)) (fun _ h => h.trans (List.prefix_append _ _))
    (fun _ h => h.trans (List.prefix_append _ _)) (fun _ _ _ _ h _ => h) List.prefix_rfl

theorem contains_register (host : Host σ) {r : Registry σ} {q : Path} (h : r.contains q = true)
    (p : Path) : (r.register host p).2.contains q = true := by
  refine register_keeps (I := fun r' : Registry σ => r'.contains q = true)
    (fun _ h => h) (fun _ h => h) (fun _ h => h) ?_ h
  intro _ r' l _ hr' _
  exact (OrderedMap.contains_insert _ _ _ _).trans (Bool.or_eq_true_iff.2 (.inr hr'))

/-- A directory that is tried is registered or refused. -/
theorem tried_register (host : Host σ) (r : Registry σ) (p : Path) :
    (r.register host p).2.contains p = true ∨ (r.register host p).2.Refused p := by
  unfold register
  split
  · exact .inl ‹_›
  split
  · next e r₁ hw =>
      have hj := journal_watch host r p
      rw [hw] at hj
      dsimp only at hj
      exact .inr ⟨e, .inl (by simp [hj])⟩
  next r₁ hw =>
  split
  · next e r₂ hl =>
      have hj := journal_list host r₁ p
      rw [hl] at hj
      dsimp only at hj
      exact .inr ⟨e, .inr (List.mem_append_left _ (by simp [hj]))⟩
  · left
    refine (OrderedMap.contains_insert _ _ _ _).trans ?_
    simp [Std.ReflCmp.compare_self]

/-- A registry in which the directories of some visits were tried, and no others. -/
structure Enrolled (sc : Scene) (holds : σ → Prop) (visits : List Visit) (r : Registry σ) :
    Prop where
  root_eq : r.root = sc.root
  filter_eq : r.filter = sc.filter
  machine : holds r.machine
  within : ∀ p ∈ r.paths, ∃ v ∈ visits, v.path = p
  taken : ∀ y d, r.forest y = some d → sc.Taken y d
  came : ∀ v ∈ visits, sc.ComesTo visits v
  answered : ∀ v ∈ visits, r.contains v.path = true ∨ r.Refused v.path

namespace Enrolled

variable {r r' : Registry σ} {visits : List Visit}

/-- The listing that a registration takes is that of the scene. -/
theorem list (h' : host.Glimpses sc holds) (hr : r.root = sc.root) (hf : r.filter = sc.filter)
    (hs : holds r.machine) (y : List Name) :
    holds (r.list host (sc.root.below y)).2.machine ∧
      ∀ l, (r.list host (sc.root.below y)).1 = .ok l → sc.Taken y (.ofListing l) := by
  have hl := h'.list y hs
  rwa [← Host.Presents.observes_below hr hf y] at hl

/-- Trying one more directory. -/
theorem register (h : r.Enrolled sc holds visits) (h' : host.Glimpses sc holds) {v : Visit}
    (hv : sc.ComesTo visits v) : (r.register host v.path).2.Enrolled sc holds (visits ++ [v]) := by
  obtain ⟨y, hpath, -⟩ := id hv
  let I : Registry σ → Prop := fun r =>
    (r.root = sc.root ∧ r.filter = sc.filter ∧ holds r.machine) ∧
      (∀ p ∈ r.paths, ∃ u ∈ visits ++ [v], u.path = p) ∧
        ∀ z d, r.forest z = some d → sc.Taken z d
  have hkept : I (r.register host v.path).2 := by
    rw [hpath]
    refine register_keeps (I := I) ?_ ?_ ?_ ?_ ?_
    · exact fun r hr => ⟨⟨hr.1.1, hr.1.2.1, h'.watch _ _ hr.1.2.2⟩, hr.2⟩
    · exact fun r hr =>
        ⟨⟨hr.1.1, hr.1.2.1, (list h' hr.1.1 hr.1.2.1 hr.1.2.2 y).1⟩, hr.2⟩
    · exact fun r hr => ⟨⟨hr.1.1, hr.1.2.1, h'.unwatch _ _ hr.1.2.2⟩, hr.2⟩
    · rintro r r' l ⟨⟨hroot, hfilter, hs⟩, -⟩ ⟨hmachine, hwithin, htaken⟩ hl
      have hnew := (list h' hroot hfilter hs y).2 l (congrArg Prod.fst hl)
      refine ⟨hmachine, ?_, ?_⟩
      · intro p hp
        rcases OrderedMap.mem_keys_insert hp with rfl | hp
        · exact ⟨v, by simp, hpath⟩
        · exact hwithin p hp
      · intro z d hd
        rw [forest, Registry.get?, OrderedMap.get?_insert] at hd
        split at hd
        · next he =>
            obtain rfl := Option.some.inj hd
            have hz : Path.At sc.root (r'.root.below z) y := (Path.at_below _ _).of_compare_eq he
            rw [hmachine.1] at hz
            obtain rfl := (Path.at_below sc.root z).unique hz
            exact hnew
        · exact htaken z d hd
    · refine ⟨⟨h.root_eq, h.filter_eq, h.machine⟩, fun p hp => ?_, h.taken⟩
      obtain ⟨u, hu, hup⟩ := h.within p hp
      exact ⟨u, List.mem_append_left _ hu, hup⟩
  obtain ⟨⟨hroot, hfilter, hmachine⟩, hwithin, htaken⟩ := hkept
  have hsub : visits ⊆ visits ++ [v] := List.subset_append_left _ _
  refine ⟨hroot, hfilter, hmachine, hwithin, htaken, ?_, ?_⟩
  · exact List.forall_mem_append.2 ⟨fun u hu => (h.came u hu).mono hsub,
      List.forall_mem_singleton.2 (hv.mono hsub)⟩
  · refine List.forall_mem_append.2 ⟨fun u hu => ?_,
      List.forall_mem_singleton.2 (tried_register host r _)⟩
    exact (h.answered u hu).imp (fun hc => contains_register host hc _)
      fun hf => hf.mono (journal_register host r _)

/-- A tree that is opened has been walked to the end, and its root is registered. -/
theorem openTree (h : host.Glimpses sc holds) {machine : σ} (hm : holds machine)
    (hr : openTree host sc.root sc.filter machine = (.ok (), r)) :
    ∃ visits, r.Enrolled sc holds visits ∧ r.contains sc.root = true := by
  have hempty : Enrolled sc holds []
      { root := sc.root, filter := sc.filter, machine : Registry σ } :=
    ⟨rfl, rfl, hm, nofun, nofun, nofun, nofun⟩
  have hopened : Opened host _ (Registry.openTree host sc.root sc.filter machine) :=
    opened_of_keeps (Walk.comesTo_traverse h true true hm) hm (fun _ r hr => ⟨(), hr.machine⟩)
      (fun _ _ _ _ hr _ hm =>
        ⟨hr.root_eq, hr.filter_eq, hm, hr.within, hr.taken, hr.came, hr.answered⟩)
      (fun _ _ _ hr hv => hr.register h hv) hempty
  rw [hr] at hopened
  cases hopened with
  | @opened visits machine r known rooted =>
      obtain ⟨he, _, -, ht⟩ := known
      cases ht with
      | finished kept =>
          refine ⟨visits, ?_, he.root_eq ▸ rooted⟩
          exact ⟨he.root_eq, he.filter_eq, kept, he.within, he.taken, he.came, he.answered⟩

end Enrolled

/-- A watcher that is started opens its tree. -/
theorem result_start {platform : Platform σ} {w : Watcher σ} {before machine : σ}
    {backend : Backend} (hs : w.state = .idle before [])
    (ho : platform.openService w.config before = (.ok backend, machine)) :
    (w.start platform).1 = (openTree platform.toHost w.root w.filter machine).1 := by
  unfold Watcher.start
  rw [hs]
  dsimp only
  rw [ho]
  dsimp only
  change _ = (registerTree platform.toHost (w.initialWalk.traverse platform.toHost machine)
    { root := w.root, filter := w.filter, machine }).1
  split
  · next e r he =>
      rw [he]
  · next r he =>
      rw [he]

/-- Whatever fails on the way: if a tree is opened, its root is registered, and every other
registered directory hangs on an item of the directory that lists it, unless that one was
refused. -/
theorem hangs_or_refused (h : host.Glimpses sc holds) (hc : sc.Coherent) {machine : σ}
    (hm : holds machine) {r : Registry σ}
    (hr : openTree host sc.root sc.filter machine = (.ok (), r)) :
    r.contains sc.root = true ∧ (∀ p ∈ r.paths, ∃ y, p = sc.root.below y) ∧
      ∀ y n, r.forest (y ++ [n]) ≠ none →
        r.forest.Carries y n ∨ r.forest y = none ∧ r.Refused (sc.root.below y) := by
  obtain ⟨visits, he, hroot⟩ := Enrolled.openTree h hm hr
  have hplace : ∀ p ∈ r.paths, ∃ v ∈ visits, v.path = p ∧ ∃ y, p = sc.root.below y := by
    intro p hp
    obtain ⟨v, hv, rfl⟩ := he.within p hp
    exact ⟨v, hv, rfl, (he.came v hv).imp fun _ hy => hy.1⟩
  refine ⟨hroot, fun p hp => (hplace p hp).elim fun _ hv => hv.2.2, ?_⟩
  intro y n hy
  have hat : ∀ x, r.contains (sc.root.below x) = true ↔ r.forest x ≠ none := by
    intro x
    rw [← he.root_eq]
    exact contains_iff_forest (Path.at_below r.root x)
  -- the directory was visited as an entry of the directory that lists it
  obtain ⟨k, hk, hsame⟩ := OrderedMap.contains_iff.1 ((hat (y ++ [n])).2 hy)
  obtain ⟨v, hv, rfl⟩ := he.within k hk
  obtain ⟨z, hz, hallows, hshown⟩ := he.came v hv
  obtain rfl : z = y ++ [n] := by
    have hplace := (Path.at_below sc.root (y ++ [n])).of_compare_eq (Std.OrientedCmp.eq_symm hsame)
    rw [hz] at hplace
    exact (Path.at_below sc.root z).unique hplace
  obtain ⟨hmet, es, e, hread, hmem, rfl⟩ := hshown y n rfl
  have hanswer : r.contains (sc.root.below y) = true ∨ r.Refused (sc.root.below y) := by
    rcases hmet with rfl | ⟨u, hu, hpath⟩
    · exact .inl hroot
    · exact hpath ▸ he.answered u hu
  cases hx : r.forest y with
  | none => exact .inr ⟨rfl, hanswer.resolve_left fun hcontains => (hat y).1 hcontains hx⟩
  | some d =>
      left
      obtain ⟨d', hd'⟩ := Option.ne_none_iff_exists'.1 hy
      obtain ⟨m, hmeta, hdirectory⟩ := (he.taken _ _ hd').found
      have hentry := hc.entry _ es e m hread hmem (by rwa [← Path.below_concat])
      obtain rfl := (he.taken y d hx).listed
      have hitem : (sc.listing y).entries.get? e.name = some ⟨m.isDirectory, m.modified⟩ := by
        have htake : (sc.readDirectory (sc.root.below y)).toOption.getD [] = es := by
          rw [hread]
          rfl
        rw [Scene.listing, htake, Scene.get?_ofEntries (hc.distinct _ es hread)]
        exact ⟨e, hmem, m, rfl, hentry, hallows, rfl⟩
      refine ⟨_, (ListedEntry.mk m.isDirectory m.modified).stamped 1, hx, ?_, hdirectory⟩
      rw [TrackedDirectory.get?_items_ofListing, hitem]
      rfl

end Registry

/-! ## Two nested directories -/

/-- The directories `a` and `a/b` in the root `/r`. -/
def nestScene : Scene where
  root := .ofString "/r"
  filter := {}
  metadata p :=
    if [Path.ofString "/r", .ofString "/r/a", .ofString "/r/a/b"].any (· == p) then
      .ok { isDirectory := true }
    else .error .notFound
  readDirectory p :=
    if p = .ofString "/r" then .ok [⟨Engine.nameA, true, .ok { isDirectory := true }⟩]
    else if p = .ofString "/r/a" then .ok [⟨Engine.nameB, true, .ok { isDirectory := true }⟩]
    else if p = .ofString "/r/a/b" then .ok []
    else .error .notFound

theorem coherent_nest : nestScene.Coherent where
  distinct p es h := by
    unfold nestScene at h
    dsimp only at h
    split at h
    · cases h; simp
    split at h
    · cases h; simp
    split at h
    · cases h; simp
    · cases h
  entry p es e m h he hm := by
    have hentry : e.metadata = .ok { isDirectory := true } := by
      unfold nestScene at h
      dsimp only at h
      split at h
      · cases h; cases List.mem_singleton.1 he; rfl
      split at h
      · cases h; cases List.mem_singleton.1 he; rfl
      split at h
      · cases h; cases he
      · cases h
    unfold nestScene at hm
    dsimp only at hm
    split at hm
    · rw [hentry, Except.ok.inj hm]
    · cases hm

/-- A machine that shows them, with a watch service that refuses one of them. -/
def nest (busy : Path) : Host Unit where
  metadata p s := (nestScene.metadata p, s)
  target p s := (nestScene.metadata p, s)
  canonical p s := (.ok p, s)
  readDirectory p s := (nestScene.readDirectory p, s)
  watch p s := (if p = busy then .error (.watcher "busy") else .ok (), s)
  unwatch _ s := (.ok (), s)

theorem glimpses_nest (busy : Path) : (nest busy).Glimpses nestScene fun _ => True where
  metadata _ _ _ := ⟨fun _ h => h, trivial⟩
  target _ _ _ := trivial
  readDirectory _ _ _ := ⟨fun _ h => h, trivial⟩
  watch _ _ _ := trivial
  unwatch _ _ _ := trivial

namespace Registry

/-- The inner directory is refused, and the outer one hangs on an item of the root. -/
theorem hangs_or_refused_nest :
    let r := (openTree (nest (.ofString "/r/a/b")) nestScene.root nestScene.filter ()).2
    r.paths = [.ofString "/r", .ofString "/r/a"] ∧ ∀ y n, r.forest (y ++ [n]) ≠ none →
      r.forest.Carries y n ∨ r.forest y = none ∧ r.Refused (nestScene.root.below y) := by
  intro r
  refine ⟨by decide +kernel, ?_⟩
  have hok : (openTree (nest (.ofString "/r/a/b")) nestScene.root nestScene.filter ()).1 =
      .ok () := by decide +kernel
  have hopened : openTree (nest (.ofString "/r/a/b")) nestScene.root nestScene.filter () =
      (.ok (), r) := by
    rw [← hok]
  exact (hangs_or_refused (glimpses_nest _) coherent_nest trivial hopened).2.2

/-- The outer directory is refused, and the inner one is registered all the same. It stays
registered when the outer one is retired. -/
theorem orphan_of_refused :
    let opened := openTree (nest (.ofString "/r/a")) nestScene.root nestScene.filter ()
    let retired := { registry := opened.2 : Engine Unit }.retire (nest (.ofString "/r/a"))
      (.ofString "/r/a")
    opened.1 = .ok () ∧
      (¬ ∀ y n, opened.2.forest (y ++ [n]) ≠ none → opened.2.forest.Carries y n) ∧
        retired.registry.contains (.ofString "/r/a/b") = true := by
  intro opened retired
  obtain ⟨hok, ha, houter, hinner, hb⟩ : opened.1 = .ok () ∧
      opened.2.get? (.ofString "/r/a") = none ∧
        (opened.2.forest [Engine.nameA]).isNone = true ∧
          (opened.2.forest ([Engine.nameA] ++ [Engine.nameB])).isSome = true ∧
            opened.2.contains (.ofString "/r/a/b") = true := by decide +kernel
  clear_value opened
  refine ⟨hok, fun hangs => ?_, ?_⟩
  · obtain ⟨d, i, hd, -⟩ := hangs _ _ (Option.isSome_iff_ne_none.1 hinner)
    rw [hd] at houter
    cases houter
  · rwa [show retired.registry = opened.2 from Engine.registry_retire_of_none ha]

end Registry

end DirWatch
