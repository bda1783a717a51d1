import DirWatch.Proofs.Engine.Progress
import DirWatch.Proofs.PendingSet
import DirWatch.Proofs.Worker.Snapshot

/-! # A rescan makes the registry exact

A rescan passes over all that is registered and all that was pending. What a pass registers meanwhile
is fresh, so in the end the registry is what the file system shows. -/

namespace DirWatch

variable {σ : Type} {host : Host σ} {sc : Scene} {holds : σ → Prop}

namespace Worker

/-! ## The batch of a rescan -/

theorem order_mark (w : Worker σ) (p : Path) :
    (w.mark p).pending.order =
      if w.pending.contains p then w.pending.order else w.pending.order ++ [p] :=
  PendingSet.order_insert w.pending w.now p

theorem mem_order_foldl {l : List Path} {w : Worker σ} {q : Path}
    (h : q ∈ w.pending.order) : q ∈ (l.foldl mark w).pending.order := by
  induction l generalizing w with
  | nil => exact h
  | cons p l ih =>
      refine ih ?_
      rw [order_mark]
      split
      · exact h
      · exact List.mem_append_left [p] h

/-- What is marked awaits a pass. -/
theorem exists_order_foldl {l : List Path} {w : Worker σ} {p : Path} (h : p ∈ l) :
    ∃ q ∈ (l.foldl mark w).pending.order, p.same q = true := by
  induction l generalizing w with
  | nil => cases h
  | cons a l ih =>
      rw [List.foldl_cons]
      rcases List.mem_cons.1 h with rfl | h
      · by_cases hc : w.pending.contains p = true
        · obtain ⟨q, hq, hs⟩ := PendingSet.contains_iff.1 hc
          refine ⟨q, mem_order_foldl ?_, hs⟩
          rwa [order_mark, if_pos hc]
        · refine ⟨p, mem_order_foldl ?_, beq_self_eq_true _⟩
          rw [order_mark, if_neg hc]
          exact List.mem_append_right _ List.mem_cons_self
      · exact ih h

/-- What awaits a pass was marked or was waiting before. -/
theorem order_of_foldl {l : List Path} {w : Worker σ} {q : Path}
    (h : q ∈ (l.foldl mark w).pending.order) : q ∈ l ∨ q ∈ w.pending.order := by
  induction l generalizing w with
  | nil => exact .inr h
  | cons p l ih =>
      rcases ih h with h | h
      · exact .inl (List.mem_cons_of_mem p h)
      · rw [order_mark] at h
        split at h
        · exact .inr h
        · rcases List.mem_append.1 h with h | h
          · exact .inr h
          · exact .inl (List.mem_singleton.1 h ▸ List.mem_cons_self)

theorem engine_markAll (w : Worker σ) : w.markAll.engine = w.engine := by
  rw [markAll]
  generalize w.registry.paths = l
  induction l generalizing w with
  | nil => rfl
  | cons p l ih => exact ih (w.mark p)

/-- A flush is passes in turn, also when nothing awaits one. -/
theorem flush_eq (w : Worker σ) (host : Host σ) :
    (w.flush host).1 = (inTurn (Engine.diff host) w.pending.order w.engine).1 ∧
      (w.flush host).2.engine = (inTurn (Engine.diff host) w.pending.order w.engine).2 := by
  unfold flush
  dsimp only [PendingSet.take]
  split
  · next hb =>
      rw [List.isEmpty_iff.1 hb]
      exact ⟨rfl, rfl⟩
  · exact ⟨rfl, rfl⟩

/-! ## The rescan -/

/-- What is registered or pending is written plainly. -/
def Plain (root : Path) (w : Worker σ) : Prop :=
  ∀ p, p ∈ w.registry.paths ∨ p ∈ w.pending.order → Path.Plain root p

/-- A worker watches a scene: its registry hangs together from the registered root, whatever its
directories were like when they were listed, and its paths are written plainly. -/
structure Watches (w : Worker σ) (sc : Scene) : Prop where
  root_eq : w.registry.root = sc.root
  filter_eq : w.registry.filter = sc.filter
  anchored : w.registry.Anchored
  registered : w.registry.contains sc.root = true
  plain : w.Plain sc.root

section Rescan

variable {w : Worker σ} {tidy : Prop}

/-- Only registered directories are marked. -/
def Tidy (w : Worker σ) : Prop :=
  ∀ q, w.engine.stale.contains q = true → w.registry.contains q = true

/-- At first, everything that is registered awaits a pass. -/
theorem Watches.progress (hw : w.Watches sc) (h : host.Presents sc holds) (hl : sc.Listable)
    (hm : holds w.registry.machine) (ht : tidy → w.Tidy) :
    Engine.Progress (h.laws hl tidy) w.engine w.markAll.pending.order where
  valid := Engine.valid_of_anchored hw.anchored hw.root_eq hw.filter_eq hm ht
  rooted := by
    have hat : Path.At w.registry.root sc.root [] := Path.at_root_iff.2 (by rw [hw.root_eq])
    exact (Registry.contains_iff_forest hat).1 hw.registered
  ready y _ hne := by
    have hat := Path.at_below w.registry.root y
    obtain ⟨k, hk, hc⟩ := OrderedMap.contains_iff.1 ((Registry.contains_iff_forest hat).2 hne)
    obtain ⟨q, hq, hs⟩ := exists_order_foldl (w := w) hk
    refine .inl ⟨q, hq, ?_⟩
    rw [← hw.root_eq]
    refine hat.of_compare_eq (Path.compare_eq_iff.2 ?_)
    rw [Path.compare_eq_iff.1 hc, Path.same_iff.1 hs]

/-- What a rescan does: no pass fails, nothing awaits another one, and what it reports leads a
listener along. -/
theorem rescanned (hw : w.Watches sc) (h : host.Presents sc holds) (hl : sc.Listable)
    (hm : holds w.registry.machine) (ht : tidy → w.Tidy) :
    ∃ es, (w.answer host .rescan).2.1 = .ok () ∧
      Engine.Progress (h.laws hl tidy) (w.answer host .rescan).2.2.engine [] ∧
      w.registry.Reports (w.answer host .rescan).2.2.registry es ∧
      (∀ e ∈ es, (h.laws hl tidy).Grounded e) ∧
      Mirror.Plays w.registry.forest.known es
        (w.answer host .rescan).2.2.registry.forest.known := by
  obtain ⟨hok, hengine⟩ := flush_eq w.markAll host
  rw [answer, registry, registry, hok, hengine, engine_markAll]
  exact Engine.progress_inTurn h hl (hw.progress h hl hm ht)
    fun p hp => hw.plain p (order_of_foldl hp)

/-- What a worker knows is what the file system shows: the registered directories are those that are
observable, each is up to date, nothing is marked or pending, and a snapshot shows each observable
entry once. -/
structure Exact (w : Worker σ) (sc : Scene) : Prop where
  registered : ∀ p, w.registry.contains p = true ↔
    ∃ y, sc.Directory y ∧ p.same (sc.root.below y) = true
  current : ∀ y, sc.Directory y →
    ∃ d, w.registry.get? (sc.root.below y) = some d ∧ sc.Matches y d
  unmarked : w.engine.stale = ∅
  idle : w.pending = {}
  nodup : (w.snapshot.map (·.path.components)).Nodup
  entries_eq : w.entries = sc.Observable

variable {h : host.Presents sc holds} {hl : sc.Listable}

theorem entries_eq_of_progress (hp : Engine.Progress (h.laws hl tidy) w.engine []) :
    w.entries = sc.Observable := by
  ext v
  refine (mem_snapshot hp.valid.anchored).trans ⟨?_, ?_⟩
  · rintro ⟨y, d, n, i, hd, hi, rfl⟩
    have hreg : w.engine.forest y ≠ none := by
      rw [show w.engine.forest y = some d from hd]
      simp
    have hy := (hp.registered_iff y).1 hreg
    obtain ⟨d', hd', hmatch⟩ := (hp.ready_of_directory hy).current
    obtain rfl := Option.some.inj (hd.symm.trans hd')
    obtain ⟨m, hm, hf, ht⟩ := (hmatch.items n _ _).1 ⟨i, hi, rfl, rfl⟩
    exact ⟨y, n, m, hy, hm, by rw [hf, ht]⟩
  · rintro ⟨y, n, m, hy, hm, rfl⟩
    obtain ⟨d, hd, hmatch⟩ := (hp.ready_of_directory hy).current
    obtain ⟨i, hi, hf, ht⟩ := (hmatch.items n _ _).2 ⟨m, hm, rfl, rfl⟩
    exact ⟨y, d, n, i, hd, hi, by rw [hf, ht]⟩

theorem exact_of_progress (hp : Engine.Progress (h.laws hl tidy) w.engine []) (ht : tidy)
    (hi : w.pending = {}) : w.Exact sc where
  registered p := by
    constructor
    · intro hc
      obtain ⟨y, hy⟩ := hp.valid.fits.inside p hc
      refine ⟨y, (hp.registered_iff y).1 ((Engine.contains_iff hp.valid.fits hy).1 hc), ?_⟩
      rw [Path.same_iff, hy, Path.at_below]
    · rintro ⟨y, hy, hs⟩
      have hat : Path.At sc.root p y := (Path.same_iff.1 hs).trans (Path.at_below sc.root y)
      exact (Engine.contains_iff hp.valid.fits hat).2 ((hp.registered_iff y).2 hy)
  current y hy := by
    obtain ⟨d, hd, hmatch⟩ := (hp.ready_of_directory hy).current
    exact ⟨d, (hp.valid.fits.get?_eq (Path.at_below sc.root y)).trans hd, hmatch⟩
  unmarked := hp.stale_eq ht
  idle := hi
  nodup := nodup_snapshot hp.valid.anchored
  entries_eq := entries_eq_of_progress hp

/-- A rescan makes a worker exact, whatever it knew before and whatever was pending. -/
theorem rescan_exact (hw : w.Watches sc) (ht : w.Tidy) (h : host.Presents sc holds)
    (hl : sc.Listable) (hm : holds w.registry.machine) :
    (w.answer host .rescan).2.1 = .ok () ∧ (w.answer host .rescan).2.2.Exact sc := by
  obtain ⟨es, hok, hp, -⟩ := rescanned hw h hl hm fun _ : True => ht
  exact ⟨hok, exact_of_progress hp trivial (pending_flush host w.markAll)⟩

end Rescan

/-! ## A rescan of a small tree -/

/-- A directory and a file below a root. -/
def shelfScene : Scene where
  root := .ofString "/r"
  filter := {}
  metadata := Engine.shelfMetadata
  readDirectory := Engine.shelfEntries

theorem readDirectory_shelf :
    shelfScene.readDirectory (shelfScene.root.below [⟨[0x61], by decide⟩]) = .ok [] := by
  have hp : shelfScene.root.below [⟨[0x61], by decide⟩] = .ofString "/r/a" := by decide +kernel
  have hne : Path.ofString "/r/a" ≠ .ofString "/r" := by decide +kernel
  rw [hp]
  change Engine.shelfEntries (.ofString "/r/a") = .ok []
  rw [Engine.shelfEntries, if_neg hne, if_pos rfl]

theorem directory_shelf {y : List Name} (h : shelfScene.Directory y) :
    y = [] ∨ y = [⟨[0x61], by decide⟩] := by
  induction h with
  | root => exact .inl rfl
  | @child y n m parent shown isDirectory ih =>
      obtain ⟨-, es, e, hes, he, rfl, hm⟩ := shown
      right
      rcases ih with rfl | rfl
      · obtain rfl := Except.ok.inj hes
        rcases List.mem_cons.1 he with rfl | he
        · rfl
        · obtain rfl := List.mem_singleton.1 he
          obtain rfl := Except.ok.inj hm
          cases isDirectory
      · rw [readDirectory_shelf] at hes
        obtain rfl := Except.ok.inj hes
        cases he

theorem listable_shelf : shelfScene.Listable where
  looked y hy := by
    rcases directory_shelf hy with rfl | rfl <;> decide +kernel
  found y hy := by
    refine ⟨{ isDirectory := true }, if_pos ?_, rfl⟩
    rcases directory_shelf hy with rfl | rfl
    · exact .inl rfl
    · exact .inr (by decide +kernel)
  shown y hy := by
    rcases directory_shelf hy with rfl | rfl
    · exact ⟨_, rfl, by decide⟩
    · exact ⟨[], readDirectory_shelf, List.nodup_nil⟩

theorem presents_shelf : (Engine.shelf true).Presents shelfScene fun _ => True where
  metadata _ _ _ := ⟨rfl, trivial⟩
  readDirectory _ _ _ := ⟨rfl, trivial⟩
  watch _ _ _ := trivial
  unwatch _ _ _ := trivial
  watched _ _ _ _ := rfl
  notFatal _ _ _ _ he := by cases he

/-- A worker that registered the root while it was empty, with a mark on it and pending paths left
over. -/
def shelfWorker : Worker Unit where
  engine := Engine.emptyRoot.markStale (.ofString "/r")
  queue := .new 1
  backend := .native
  idle := 0
  longest := 0
  pending := .ofMarks [(0, .ofString "/r/a"), (0, .ofString "/r")]

theorem watches_shelf : shelfWorker.Watches shelfScene where
  root_eq := rfl
  filter_eq := rfl
  anchored := Engine.anchored_emptyRoot
  registered := by decide +kernel
  plain p hp := by
    have hcases : p = .ofString "/r" ∨ p = .ofString "/r/a" := by
      have hpaths : shelfWorker.registry.paths = [.ofString "/r"] := by decide +kernel
      have horder : shelfWorker.pending.order = [.ofString "/r/a", .ofString "/r"] := by
        decide +kernel
      rw [hpaths, horder] at hp
      simpa [or_comm, or_assoc] using hp
    rcases hcases with rfl | rfl
    · exact Path.plain_below shelfScene.root []
    · have ha : shelfScene.root.below [⟨[0x61], by decide⟩] = .ofString "/r/a" := by
        decide +kernel
      exact ha ▸ Path.plain_below _ _

theorem tidy_shelf : shelfWorker.Tidy :=
  Engine.marked_markStale (by simp [Engine.emptyRoot]) _

/-- The small tree is found, though nothing of it was known. -/
theorem rescan_exact_shelf :
    (shelfWorker.answer (Engine.shelf true) .rescan).2.1 = .ok () ∧
      (shelfWorker.answer (Engine.shelf true) .rescan).2.2.Exact shelfScene :=
  rescan_exact watches_shelf tidy_shelf presents_shelf listable_shelf trivial

end Worker

end DirWatch
