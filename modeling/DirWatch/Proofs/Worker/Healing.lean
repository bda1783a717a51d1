import DirWatch.Proofs.Engine.Rooted
import DirWatch.Proofs.Worker.Rescan

/-! # Failures that heal

As long as the root is registered, a rescan brings everything up to date once nothing fails any
more. A pass that can list the root leaves it registered, but for one case: the root was replaced,
and the service is too busy to watch it anew. After that nothing is ever watched again. -/

namespace DirWatch

variable {σ : Type} {host : Host σ} {s : Engine σ} {p : Path}

namespace Worker

/-- As soon as all that is observable can be listed and watched, a rescan makes a worker exact,
whatever is pending and whatever has become of the machine. -/
def Heals (s : Engine σ) : Prop :=
  ∀ (w : Worker σ) (machine : σ) (host : Host σ) (sc : Scene) (holds : σ → Prop),
    w.engine = { s with registry := { s.registry with machine } } → w.Plain s.registry.root →
    sc.root = s.registry.root → sc.filter = s.registry.filter → host.Presents sc holds →
    sc.Listable → holds machine →
      (w.answer host .rescan).2.1 = .ok () ∧ (w.answer host .rescan).2.2.Exact sc

/-- A registered root is all that healing takes. -/
theorem heals_of_contains (h : s.registry.Anchored)
    (hm : ∀ q, s.stale.contains q = true → s.registry.contains q = true)
    (hroot : s.registry.contains s.registry.root = true) : Heals s := by
  intro w machine host sc holds hw hplain hr hf hp hl hs
  have hregistry : w.registry = { s.registry with machine } := by rw [registry, hw]
  have hwatches : w.Watches sc :=
    { root_eq := by rw [hregistry, hr]
      filter_eq := by rw [hregistry, hf]
      anchored := by
        rw [hregistry]
        exact ⟨h.hangs, h.current⟩
      registered := by
        rw [hregistry, hr]
        exact hroot
      plain := by
        rw [hr]
        exact hplain }
  have htidy : w.Tidy := by
    rw [Tidy, hregistry, hw]
    exact hm
  have hmachine : holds w.registry.machine := by rwa [hregistry]
  obtain ⟨es, hok, hprogress, -⟩ := rescanned hwatches hp hl hmachine fun _ : True => htidy
  exact ⟨hok, exact_of_progress hprogress trivial (pending_flush host w.markAll)⟩

/-- Where the root is given up, nothing is ever registered again. -/
theorem ends_of_givesUp (h : Engine.Reachable s)
    (hroot : s.registry.contains s.registry.root = true) (hgives : s.GivesUp host p)
    (hok : (s.diff host p).1 = .ok ()) :
    (s.diff host p).2.registry.contains s.registry.root = false ∧ ∀ tasks,
      (inTurn Engine.perform tasks (s.diff host p).2).2.registry.directories = ∅ := by
  obtain ⟨hanchored, hmarked⟩ := (Engine.Reachable.diff h host p).anchored
  have hsame := (Engine.registry_root_diff h.anchored.1 host p).1
  have hlist : ∃ l, (s.registry.list host p).1 = .ok l := by
    obtain ⟨-, d, l, r, e, -, hl, -⟩ := hgives
    exact ⟨l, congrArg Prod.fst hl⟩
  have hlost : (s.diff host p).2.registry.contains s.registry.root = false := by
    rw [← Bool.not_eq_true, Engine.contains_root_diff_iff h.anchored.1 hroot (fun _ => hlist) hok]
    exact not_not.2 hgives
  have hempty := (Engine.invariant_of_anchored hanchored hmarked).rooted (by rwa [hsame])
  exact ⟨hlost, Engine.directories_inTurn_perform hempty⟩

/-- A pass that can list the root and does not fail either leaves it registered, so that what failed
heals, or gives it up and with it everything for good. -/
theorem heals_or_ends (h : Engine.Reachable s)
    (hroot : s.registry.contains s.registry.root = true)
    (hl : p.same s.registry.root = true → ∃ l, (s.registry.list host p).1 = .ok l)
    (hok : (s.diff host p).1 = .ok ()) :
    (¬ s.GivesUp host p →
      (s.diff host p).2.registry.contains s.registry.root = true ∧ Heals (s.diff host p).2) ∧
    (s.GivesUp host p → ∀ tasks,
      (inTurn Engine.perform tasks (s.diff host p).2).2.registry.directories = ∅) := by
  obtain ⟨hanchored, hmarked⟩ := (Engine.Reachable.diff h host p).anchored
  have hsame := (Engine.registry_root_diff h.anchored.1 host p).1
  constructor
  · intro hkeeps
    have hcontains := (Engine.contains_root_diff_iff h.anchored.1 hroot hl hok).2 hkeeps
    exact ⟨hcontains, heals_of_contains hanchored hmarked (by rwa [hsame])⟩
  · exact fun hgives => (ends_of_givesUp h hroot hgives hok).2

end Worker

/-! ## A busy service -/

namespace Engine

/-- The small tree, with a service that is too busy to watch one directory. -/
def busyShelf (busy : Path) : Host Unit where
  metadata p s := (shelfMetadata p, s)
  target p s := (shelfMetadata p, s)
  canonical p s := (.ok p, s)
  readDirectory p s := (shelfEntries p, s)
  watch p s := (if p = busy then .error (.watcher "busy") else .ok (), s)
  unwatch _ s := (.ok (), s)

/-- The root was watched, and news came that its watch was dropped. -/
def markedRoot : Engine Unit := emptyRoot.markStale (.ofString "/r")

theorem reachable_markedRoot : Reachable markedRoot := .markStale (.start {} rfl rfl) _

end Engine

namespace Worker

open Engine

/-- The root is watched anew, the directory in it cannot be watched. -/
theorem heals_or_ends_shelf :
    let r := markedRoot.diff (busyShelf (.ofString "/r/a")) (.ofString "/r")
    r.1 = .ok () ∧ r.2.registry.paths = [.ofString "/r"] ∧ Heals r.2 := by
  intro r
  have hok : r.1 = .ok () := by decide +kernel
  refine ⟨hok, by decide +kernel, ?_⟩
  refine ((heals_or_ends reachable_markedRoot (by decide +kernel) ?_ hok).1 ?_).2
  · exact fun _ => ⟨_, rfl⟩
  · rintro ⟨-, d, l, r', e, -, hl, -, he⟩
    obtain rfl := (Prod.mk.inj hl).2
    have hne : Path.ofString "/r" ≠ .ofString "/r/a" := by decide +kernel
    exact absurd he (by simp [Registry.rearm, Registry.watch, busyShelf, hne])

/-- The root cannot be watched anew. Its service is only busy, but nothing is watched again. -/
theorem ends_of_transient :
    let host := busyShelf (.ofString "/r")
    let r := markedRoot.diff host (.ofString "/r")
    Reachable markedRoot ∧ markedRoot.registry.contains (.ofString "/r") = true ∧
      (markedRoot.registry.list host (.ofString "/r")).1 = .ok (shelfScene.listing []) ∧
      (∀ p s e, (host.watch p s).1 = .error e → e.isTransient = true) ∧ r.1 = .ok () ∧
      r.2.registry.contains (.ofString "/r") = false ∧
      ∀ tasks, (inTurn Engine.perform tasks r.2).2.registry.directories = ∅ := by
  intro host r
  have hroot : markedRoot.registry.contains (.ofString "/r") = true := by decide +kernel
  have hok : r.1 = .ok () := by decide +kernel
  have hgives : markedRoot.GivesUp host (.ofString "/r") :=
    ⟨by decide +kernel, _, _, _, .watcher "busy", rfl, rfl, by decide +kernel, by decide +kernel⟩
  refine ⟨reachable_markedRoot, hroot, rfl, ?_, hok,
    ends_of_givesUp reachable_markedRoot hroot hgives hok⟩
  intro p s e he
  change (if p = _ then Except.error _ else _) = _ at he
  split at he
  · obtain rfl := Except.error.inj he
    rfl
  · cases he

end Worker

end DirWatch
