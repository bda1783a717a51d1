import DirWatch.Proofs.Engine.Invariant
import DirWatch.Proofs.Replica

/-! # The stream of notifications

A listener that starts with the tracked entries and replays the notifications holds the tracked
entries after every pass, as long as no pass fails. -/

namespace DirWatch

variable {σ : Type}

/-- The tracked entries by their paths as seen from the root. -/
def Registry.tracked (r : Registry σ) : Replica :=
  {e | ∃ p d n i q, r.get? p = some d ∧ d.items.get? n = some i ∧
    r.relative? (p.child n) = some q ∧ e = (q.components, i.isDirectory)}

/-- What is tracked is what a view of the registered directories holds. -/
theorem Registry.tracked_eq {r : Registry σ} (h : r.Anchored) :
    r.tracked = r.forest.known.replica := by
  ext e
  constructor
  · rintro ⟨p, d, n, i, q, hd, hi, hq, rfl⟩
    obtain ⟨y, hy⟩ := h.inside (Option.isSome_of_eq_some hd)
    obtain ⟨q', hq', hc⟩ := (hy.child n).stripPrefix?_components
    obtain rfl : q = q' := Option.some.inj (hq.symm.trans hq')
    refine ⟨y, n, i.known, ?_, by rw [hc, Item.isDirectory_known]⟩
    rw [Forest.known, ← r.get?_eq_forest hy, hd, Option.bind_some, hi, Option.map_some]
  · rintro ⟨y, n, k, hk, rfl⟩
    obtain ⟨d, hd, hdk⟩ := Option.bind_eq_some_iff.1 hk
    obtain ⟨i, hi, rfl⟩ := Option.map_eq_some_iff.1 hdk
    obtain ⟨q, hq, hc⟩ := ((Path.at_below r.root y).child n).stripPrefix?_components
    exact ⟨r.root.below y, d, n, i, q, hd, hi, hq, by rw [hc, Item.isDirectory_known]⟩

namespace Engine

/-- What can happen to an engine: a pass over any path on any machine, news of a lost watch, or a
change of the machine. -/
inductive Task (σ : Type) where
  | diff (host : Host σ) (p : Path)
  | markStale (p : Path)
  | change (machine : σ)

def perform : Task σ → Engine σ → Except Error Unit × Engine σ
  | .diff host p, s => s.diff host p
  | .markStale p, s => (.ok (), s.markStale p)
  | .change machine, s => (.ok (), { s with registry := { s.registry with machine } })

/-- What was told between two states fits a listener that knew the tracked entries, and leads to the
tracked entries. -/
structure Followed (s : Engine σ) (r : Except Error Unit × Engine σ) : Prop where
  anchored : r.2.registry.Anchored
  replay : ∃ cs, r.2.registry.notifications = s.registry.notifications ++ cs.map .changed ∧
    s.registry.tracked.AcceptsAll cs ∧
    (r.1 = .ok () → s.registry.tracked.afterAll cs = r.2.registry.tracked)

namespace Followed

variable {s s' : Engine σ} {r : Except Error Unit × Engine σ}

/-- Nothing was told. -/
theorem quiet (h : s.registry.Anchored) (hr : s'.registry.root = s.registry.root)
    (hd : s'.registry.directories = s.registry.directories)
    (hc : s'.registry.notifications = s.registry.notifications) : Followed s (.ok (), s') := by
  obtain ⟨⟨root, filter, directories, machine, journal⟩, counters, stale⟩ := s
  obtain ⟨⟨root', filter', directories', machine', journal'⟩, counters', stale'⟩ := s'
  dsimp only at hr hd
  subst hr hd
  refine ⟨⟨h.hangs, h.current⟩, [], ?_, trivial, fun _ => rfl⟩
  rw [List.map_nil, List.append_nil]
  exact hc

theorem trans (h : Followed s (.ok (), s')) (h' : Followed s' r) : Followed s r where
  anchored := h'.anchored
  replay := by
    obtain ⟨cs, hc, hfit, hlead⟩ := h.replay
    obtain ⟨ds, hd, hfit', hlead'⟩ := h'.replay
    refine ⟨cs ++ ds, ?_, ?_, ?_⟩
    · rw [hd, hc, List.map_append, List.append_assoc]
    · rw [Replica.acceptsAll_append, hlead rfl]
      exact ⟨hfit, hfit'⟩
    · intro hok
      rw [Replica.afterAll_append, hlead rfl, hlead' hok]

end Followed

/-- A pass takes a listener along. -/
theorem followed_diff {s : Engine σ} (h : s.registry.Anchored) (host : Host σ) (p : Path) :
    Followed s (s.diff host p) := by
  have hs : Valid (HostLaws.any host s.registry.root s.registry.filter False) s :=
    valid_of_anchored h rfl rfl trivial False.elim
  by_cases hp : ∃ y, Path.At s.registry.root p y
  · obtain ⟨y, hy⟩ := hp
    obtain ⟨es, hes⟩ := passed_diff (p := p) ⟨hy, trivial⟩ hs
    refine ⟨hes.valid.anchored, ?_⟩
    obtain ⟨cs, hc, hv⟩ := hes.reports
    obtain ⟨M, hplays, hM⟩ := hes.plays
    obtain ⟨hfit, hlead⟩ := hplays.accepts hv
    rw [Registry.tracked_eq h]
    refine ⟨cs, hc, hfit, ?_⟩
    intro hok
    rw [Registry.tracked_eq hes.valid.anchored]
    exact hlead.trans (congrArg Mirror.replica (hM hok))
  · rw [diff_outside hs fun y hy => hp ⟨y, hy⟩]
    exact .quiet h rfl rfl ((Registry.notifications_record _ _).trans (List.append_nil _))

theorem followed_perform {s : Engine σ} (h : s.registry.Anchored) (t : Task σ) :
    Followed s (perform t s) := by
  cases t with
  | diff host p => exact followed_diff h host p
  | markStale p =>
      have hr := registry_markStale s p
      exact .quiet h (by rw [hr]) (by rw [hr]) (by rw [hr])
  | change machine => exact .quiet h rfl rfl rfl

theorem followed_inTurn {s : Engine σ} (h : s.registry.Anchored) (tasks : List (Task σ)) :
    Followed s (inTurn perform tasks s) := by
  induction tasks generalizing s with
  | nil => exact .quiet h rfl rfl rfl
  | cons t tasks ih =>
      have ht := followed_perform h t
      rw [inTurn]
      rcases hs : perform t s with ⟨e | _, s'⟩
      · rw [hs] at ht
        exact ht
      · rw [hs] at ht
        exact ht.trans (ih ht.anchored)

/-- The notifications of a run that ends with its first failure fit a listener that starts with the
tracked entries, each at its time. If no pass fails, the listener ends with the tracked entries. -/
theorem stream_replays {s : Engine σ} (h : s.registry.Anchored) (tasks : List (Task σ)) :
    ∃ cs, (inTurn perform tasks s).2.registry.notifications =
        s.registry.notifications ++ cs.map .changed ∧
      s.registry.tracked.AcceptsAll cs ∧
      ((inTurn perform tasks s).1 = .ok () →
        s.registry.tracked.afterAll cs = (inTurn perform tasks s).2.registry.tracked) :=
  (followed_inTurn h tasks).replay

theorem tracked_emptyRoot : emptyRoot.registry.tracked = ∅ := by
  ext e
  rw [Set.mem_empty_iff_false, iff_false]
  rintro ⟨p, d, n, i, q, hd, hi, -⟩
  rw [Registry.get?, emptyRoot, OrderedMap.get?_insert] at hd
  split at hd
  · obtain rfl := Option.some.inj hd
    simp [TrackedDirectory.get?_items_ofListing] at hi
  · simp at hd

/-- Two passes over the root with a mark in between. -/
theorem stream_replays_shelf :
    let tasks := [.diff (shelf true) (.ofString "/r"), .markStale (.ofString "/r/a"),
      .diff (shelf true) (.ofString "/r")]
    (inTurn perform tasks emptyRoot).1 = .ok () ∧ emptyRoot.registry.Anchored ∧
      ∃ cs, (inTurn perform tasks emptyRoot).2.registry.notifications = cs.map .changed ∧
        emptyRoot.registry.tracked.AcceptsAll cs ∧
        emptyRoot.registry.tracked.afterAll cs =
          (inTurn perform tasks emptyRoot).2.registry.tracked := by
  intro tasks
  have hok : (inTurn perform tasks emptyRoot).1 = .ok () := by decide +kernel
  obtain ⟨cs, hc, hfit, hlead⟩ := stream_replays anchored_emptyRoot tasks
  exact ⟨hok, anchored_emptyRoot, cs, hc, hfit, hlead hok⟩

/-- A pass that fails has taken over a listing that it has not reported to the end, and no later
pass reports the rest: the file `b` is tracked in the end, and was never created for the listener. -/
theorem stream_loses_after_failure :
    let r₁ := emptyRoot.diff (shelf false) (.ofString "/r")
    let r₂ := r₁.2.diff (shelf true) (.ofString "/r")
    emptyRoot.registry.Anchored ∧ r₁.1 = .error (.watchService "no watch left") ∧ r₂.1 = .ok () ∧
      ∃ cs, r₂.2.registry.notifications = cs.map .changed ∧
        emptyRoot.registry.tracked.afterAll cs ≠ r₂.2.registry.tracked := by
  intro r₁ r₂
  refine ⟨anchored_emptyRoot, by decide +kernel, by decide +kernel,
    [⟨.created, .ofString "a", true⟩], by decide +kernel, ?_⟩
  rw [tracked_emptyRoot]
  set b : Name := ⟨[0x62], by decide⟩
  have hitem : (r₂.2.registry.get? (.ofString "/r")).bind
      (fun d => (d.items.get? b).map (·.isDirectory)) = some false := by decide +kernel
  have hrel : (r₂.2.registry.relative? ((Path.ofString "/r").child b)).map (·.components) =
      some [.name b] := by decide +kernel
  have hin : ([.name b], false) ∈ r₂.2.registry.tracked := by
    obtain ⟨d, hd, hi⟩ := Option.bind_eq_some_iff.1 hitem
    obtain ⟨i, hi, hf⟩ := Option.map_eq_some_iff.1 hi
    obtain ⟨q, hq, hqc⟩ := Option.map_eq_some_iff.1 hrel
    exact ⟨_, d, b, i, q, hd, hi, hq, by rw [hqc, hf]⟩
  intro he
  rw [← he] at hin
  simp [Replica.afterAll, Replica.after] at hin

end Engine

end DirWatch
