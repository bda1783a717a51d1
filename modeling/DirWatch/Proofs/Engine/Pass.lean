import DirWatch.Proofs.Engine.Absorb

/-! # What a pass does

A pass keeps the forest sound and the marks on registered directories. It changes one directory to
what a listing shows, retires and adopts below it, and leaves every other directory as it is. What
it reports takes a listener from what was tracked before to what is tracked afterwards. -/

namespace DirWatch.Engine

variable {σ : Type} {host : Host σ} {root : Path} {filter : Filter} {L : HostLaws host root filter}

/-- What a pass over the directory at `y` does to a valid state. -/
structure Passed (L : HostLaws host root filter) (y : List Name) (s : Engine σ)
    (r : Except Error Unit × Engine σ) (es : List Event) : Prop where
  valid : Valid L r.2
  drift : Drift L y s r
  absent : s.forest y = none → r.2.forest y = none
  visited : s.forest y ≠ none → L.MayFail y ∨ Renewed L y s r
  failure : ∀ e, r.1 = .error e → e.isFatal = true ∧ ∃ z, L.watches z (.error e)
  reports : s.registry.Reports r.2.registry es
  grounded : ∀ e ∈ es, L.Grounded e
  plays : ∃ M, Mirror.Plays s.forest.known es M ∧ (r.1 = .ok () → M = r.2.forest.known)

/-- A listener that followed every stage knows what is registered. -/
theorem Stage.passed {y : List Name} {d : TrackedDirectory Name} {ls : Listing Name}
    {s : Engine σ} {r : Except Error Unit × Engine σ} {es : List Event}
    {row : Name → Option Known} (h : Stage L y (d.reconcile ls).2 s r es row)
    (hd : s.forest y = some d) (hl : L.lists y (.ok ls))
    (hm : ∀ q, Path.At root q y → s.stale.contains q = false)
    (hrow : r.1 = .ok () → ∀ n, row n = ((d.reconcile ls).2.items.get? n).map (·.known))
    (hw : Whole L r y) : Passed L y s r es where
  valid := h.valid
  drift := h.drift
  absent hn := by
    rw [hn] at hd
    cases hd
  visited _ := .inr ⟨⟨d, ls, hd, hl, h.here⟩, fun q hq => h.drift.unmarked (hm q hq), hw⟩
  failure := h.failure
  reports := h.reports
  grounded := h.grounded
  plays := by
    obtain ⟨M, hplays, hM⟩ := h.plays
    refine ⟨M, hplays, fun hok => ?_⟩
    obtain ⟨hf, hy⟩ := hM hok
    funext z n
    by_cases hz : z = y
    · rw [hz, hy, hrow hok n, Forest.known, h.here, Option.bind_some]
    · rw [hf z hz]

/-- Taking a listing over. -/
theorem passed_absorb {p : Path} {y : List Name} (hp : L.Names p y) {s : Engine σ}
    (hs : Valid L s) {d : TrackedDirectory Name} (hd : s.forest y = some d) {ls : Listing Name}
    (hl : L.lists y (.ok ls)) (hm : ∀ q, Path.At root q y → s.stale.contains q = false) :
    ∃ es, Passed L y s (s.absorb host p ls) es := by
  have hget : s.registry.get? p = some d := (hs.fits.get?_eq hp.1).trans hd
  have hrow : ∀ n, (ls.entries.get? n).map (·.known) =
      ((d.reconcile ls).2.items.get? n).map (·.known) := by
    intro n
    rw [TrackedDirectory.get?_items_reconcile (hs.sound.current y d hd), Option.map_map]
    rfl
  rw [absorb, hget]
  dsimp only
  obtain ⟨es₁, h₁, hnew⟩ := stage_deleted hs hp hd hl
  obtain ⟨es₂, h₂⟩ := stage_created hp hs hd hl h₁ hnew
  split
  · next e s₂ hc =>
      have hc : reportCreated host p (d.reconcile ls).1.created (reportDeleted host p
        (d.reconcile ls).1.deleted (s.put p (d.reconcile ls).2)) = (.error e, s₂) := hc
      rw [hc] at h₂
      exact ⟨es₂, h₂.passed hd hl hm (by simp) (by simp [Whole])⟩
  · next s₂ hc =>
      have hc : reportCreated host p (d.reconcile ls).1.created (reportDeleted host p
        (d.reconcile ls).1.deleted (s.put p (d.reconcile ls).2)) = (.ok (), s₂) := hc
      rw [hc] at h₂
      obtain ⟨es₃, h₃⟩ := stage_updated hp hs hd hl h₂
      obtain ⟨es₄, h₄, hw⟩ := stage_retried hp h₃ hrow
      exact ⟨es₄, h₄.passed hd hl hm (fun _ => hrow) hw⟩

/-- Requests and counting, and marks that go. -/
structure Quiet (L : HostLaws host root filter) (s s' : Engine σ) : Prop where
  fits : L.Fits s'.registry
  forest : s'.forest = s.forest
  changes : s'.registry.notifications = s.registry.notifications
  marks : ∀ q, s'.stale.contains q = true → s.stale.contains q = true

namespace Quiet

variable {y : List Name} {s s' s'' : Engine σ} {r : Except Error Unit × Engine σ} {es : List Event}

theorem trans (h : Quiet L s s') (h' : Quiet L s' s'') : Quiet L s s'' where
  fits := h'.fits
  forest := h'.forest.trans h.forest
  changes := h'.changes.trans h.changes
  marks q hq := h.marks q (h'.marks q hq)

theorem valid (h : Quiet L s s') (hs : Valid L s) : Valid L s' where
  fits := h.fits
  sound := h.forest ▸ hs.sound
  marked ht q hq := by
    obtain ⟨y, hy, hne⟩ := hs.at_marked ht (h.marks q hq)
    rwa [contains_iff h.fits hy, h.forest]

theorem passed (h : Quiet L s s') (hp : Passed L y s' r es) : Passed L y s r es where
  valid := hp.valid
  drift := by
    refine Drift.trans (.of_eq h.marks (fun z _ => congrFun h.forest z) ?_) hp.drift
    intro hy
    rwa [← h.forest] at hy
  absent hn := hp.absent ((congrFun h.forest y).trans hn)
  visited := by
    intro hy
    rw [← h.forest] at hy
    rcases hp.visited hy with hm | ⟨⟨d, l, hd, hl⟩, hr⟩
    · exact .inl hm
    · rw [h.forest] at hd
      exact .inr ⟨⟨d, l, hd, hl⟩, hr⟩
  failure := hp.failure
  reports := (Registry.Reports.nil h.changes).append hp.reports
  grounded := hp.grounded
  plays := by
    rw [← h.forest]
    exact hp.plays

end Quiet

namespace Passed

variable {y : List Name} {s s' : Engine σ} {es : List Event}

/-- A pass that has nothing to do or fails. -/
theorem idle (hs : Valid L s) (hy : s.forest y ≠ none → L.MayFail y)
    {result : Except Error Unit}
    (hf : ∀ e, result = .error e → e.isFatal = true ∧ ∃ z, L.watches z (.error e)) :
    Passed L y s (result, s) [] where
  valid := hs
  drift := .of_eq (fun _ hq => hq) (fun _ _ => rfl) id
  absent := id
  visited hne := .inl (hy hne)
  failure := hf
  reports := .nil rfl
  grounded := by simp
  plays := ⟨_, .nil _, fun _ => rfl⟩

/-- A directory that fails is retired. -/
theorem retired (hs : Valid L s) (hy : L.MayFail y) (h : Retired L [y] s s' es) :
    Passed L y s (.ok (), s') es where
  valid := by
    refine h.valid (fun z n _ hne => hs.sound.hangs z n hne) hs.sound.current ?_
    exact fun ht q hq => hs.at_marked ht hq
  drift := by
    refine .of_shrunk h.toShrunk ?_ ?_
    · intro t ht
      rw [List.mem_singleton.1 ht]
    · intro t ht z n _
      exact .inr (List.mem_singleton.1 ht ▸ hy)
  absent _ := h.gone y (Covers.singleton.2 List.prefix_rfl)
  visited _ := .inl hy
  failure := by simp
  reports := h.reports
  grounded e he := by
    obtain ⟨z, n, f, rfl, hc⟩ := h.deletes e he
    exact .inr ⟨y, Covers.singleton.1 hc, .inl hy⟩
  plays := by
    obtain ⟨M, hplays, hin, hout⟩ := h.plays s.forest.known fun _ _ => rfl
    refine ⟨M, hplays, fun _ => ?_⟩
    funext z
    by_cases hc : Covers [y] z
    · rw [hin z hc, Forest.known_none (h.gone z hc)]
    · rw [hout z hc]
      exact (Forest.known_congr (h.kept z hc)).symm

end Passed

/-- Dropping the mark of a directory, whatever was counted. -/
theorem quiet_unmark {p : Path} {s : Engine σ} (h : L.Fits s.registry) (c : Counters) :
    Quiet L s { s.unmark p with counters := c } where
  fits := h
  forest := rfl
  changes := rfl
  marks q hq := by
    change (s.stale.erase p).contains q = true at hq
    rw [OrderedMap.contains_erase, Bool.and_eq_true] at hq
    exact hq.2

/-- Requests for a new watch. -/
theorem quiet_rearm {p : Path} {y : List Name} (hp : L.Names p y) {s : Engine σ}
    (h : L.Fits s.registry) :
    Quiet L s { s with registry := (s.registry.rearm host p).2 } ∧
      L.watches y (s.registry.rearm host p).1 := by
  obtain ⟨hf, hw⟩ := (h.unwatch hp).watch hp
  exact ⟨⟨hf, rfl, (Registry.watch_notifications _ _ _).trans (Registry.unwatch_notifications _ _ _),
    fun _ hq => hq⟩, hw⟩

/-- The second half of a pass, when a directory has been listed. -/
def renew (host : Host σ) (p : Path) (ls : Listing Name) (replaced : Bool) (s : Engine σ) :
    Except Error Unit × Engine σ :=
  if replaced then
    let (result, registry) := s.registry.rearm host p
    let s := { s with registry }
    match result with
    | .error e => if e.isFatal then (.error e, s) else (.ok (), s.retire host p)
    | .ok () => s.absorb host p ls
  else s.absorb host p ls

theorem passed_renew {p : Path} {y : List Name} (hp : L.Names p y) {s : Engine σ}
    (hs : Valid L s) {d : TrackedDirectory Name} (hd : s.forest y = some d) {ls : Listing Name}
    (hl : L.lists y (.ok ls)) (hm : ∀ q, Path.At root q y → s.stale.contains q = false)
    (replaced : Bool) : ∃ es, Passed L y s (s.renew host p ls replaced) es := by
  cases replaced with
  | false => exact passed_absorb hp hs hd hl hm
  | true =>
      obtain ⟨hq, hw⟩ := quiet_rearm hp hs.fits
      have hs' := hq.valid hs
      simp only [renew, if_true]
      rcases hr : s.registry.rearm host p with ⟨e | _, r⟩
      · rw [hr] at hq hw hs'
        dsimp only at hq hw hs' ⊢
        by_cases he : e.isFatal = true
        · rw [if_pos he]
          refine ⟨[], hq.passed (.idle hs' (fun _ => .inl ⟨e, hw⟩) ?_)⟩
          rintro e' ⟨⟩
          exact ⟨he, y, hw⟩
        · rw [if_neg he]
          obtain ⟨es, hes⟩ := retired_retire hs'.fits hp fun z n _ => hs'.sound.hangs z n
          exact ⟨es, hq.passed (.retired hs' (.inl ⟨e, hw⟩) hes)⟩
      · rw [hr] at hq hs'
        dsimp only at hq hs' ⊢
        obtain ⟨es, hes⟩ := passed_absorb hp hs' ((congrFun hq.forest y).trans hd) hl hm
        exact ⟨es, hq.passed hes⟩

/-- What a pass makes of an answer to its request for a listing. -/
def resume (host : Host σ) (p : Path) (d : TrackedDirectory Name) (s : Engine σ) :
    Except Error (Listing Name) → Except Error Unit × Engine σ
  | .error (.pathVanished _) => (.ok (), s.retire host p)
  | .error _ => (.ok (), s)
  | .ok ls => renew host p ls (s.wasReplaced p d ls)
      { s.unmark p with counters := { s.counters with diffed := s.counters.diffed + 1 } }

/-- A pass over a directory that is not registered only begins. -/
theorem diff_none {p : Path} {s : Engine σ} (hd : s.registry.get? p = none) :
    s.diff host p = (.ok (), { s with registry := s.registry.record (.began p) }) := by
  have hd' : (s.registry.record (.began p)).get? p = none := hd
  simp only [diff, hd']

theorem diff_eq {p : Path} {s : Engine σ} {d : TrackedDirectory Name}
    (hd : s.registry.get? p = some d) :
    s.diff host p =
      resume host p d { s with registry := ((s.registry.record (.began p)).list host p).2 }
        ((s.registry.record (.began p)).list host p).1 := by
  have hd' : (s.registry.record (.began p)).get? p = some d := hd
  simp only [diff, hd']
  unfold resume
  split
  · simp only [*]
  · simp only [*]
  · simp only [*]
    rfl

theorem passed_resume {p : Path} {y : List Name} (hp : L.Names p y) {s : Engine σ}
    (hs : Valid L s) {d : TrackedDirectory Name} (hd : s.forest y = some d)
    {result : Except Error (Listing Name)} (hl : L.lists y result) :
    ∃ es, Passed L y s (resume host p d s result) es := by
  unfold resume
  split
  · obtain ⟨es, hes⟩ := retired_retire hs.fits hp fun z n _ => hs.sound.hangs z n
    exact ⟨es, .retired hs (.inr ⟨_, hl⟩) hes⟩
  · exact ⟨[], .idle hs (fun _ => .inr ⟨_, hl⟩) (by simp)⟩
  · have hq := quiet_unmark (p := p) hs.fits
      { s.counters with diffed := s.counters.diffed + 1 }
    obtain ⟨es, hes⟩ := passed_renew hp (hq.valid hs) hd hl (by
      intro q hq
      change (s.stale.erase p).contains q = false
      rw [OrderedMap.contains_erase, hq.compare_eq hp.1]
      rfl) (s.wasReplaced p d _)
    exact ⟨es, hq.passed hes⟩

/-- The beginning of a pass. -/
theorem quiet_began {s : Engine σ} (h : L.Fits s.registry) (p : Path) :
    Quiet L s { s with registry := s.registry.record (.began p) } where
  fits := h.of_eq rfl rfl rfl h.machine
  forest := rfl
  changes := (Registry.notifications_record _ _).trans (List.append_nil _)
  marks _ hq := hq

/-- The beginning of a pass and its request for a listing. -/
theorem quiet_listed {p : Path} {y : List Name} (hp : L.Names p y) {s : Engine σ}
    (h : L.Fits s.registry) :
    Quiet L s { s with registry := ((s.registry.record (.began p)).list host p).2 } ∧
      L.lists y ((s.registry.record (.began p)).list host p).1 := by
  have hbegan := quiet_began h p
  obtain ⟨hf, hl⟩ := hbegan.fits.list hp
  exact ⟨hbegan.trans ⟨hf, rfl, Registry.list_notifications _ _ _, fun _ hq => hq⟩, hl⟩

/-- A pass over a directory below the root. -/
theorem passed_diff {p : Path} {y : List Name} (hp : L.Names p y) {s : Engine σ}
    (hs : Valid L s) : ∃ es, Passed L y s (s.diff host p) es := by
  have hget : s.registry.get? p = s.forest y := hs.fits.get?_eq hp.1
  cases hd : s.forest y with
  | none =>
      have hbegan := quiet_began hs.fits p
      rw [diff_none (hget.trans hd)]
      exact ⟨[], hbegan.passed (.idle (hbegan.valid hs) (fun hne => absurd hd hne) (by simp))⟩
  | some d =>
      obtain ⟨hlisted, hl⟩ := quiet_listed hp hs.fits
      rw [diff_eq (hget.trans hd)]
      obtain ⟨es, hes⟩ := passed_resume hp (hlisted.valid hs) hd hl
      exact ⟨es, hlisted.passed hes⟩

/-- A pass over a directory elsewhere. -/
theorem diff_outside {p : Path} {s : Engine σ} (hs : Valid L s) (hp : ∀ y, ¬ Path.At root p y) :
    s.diff host p = (.ok (), { s with registry := s.registry.record (.began p) }) := by
  refine diff_none ?_
  by_contra hne
  obtain ⟨y, hy⟩ := hs.fits.inside p (Option.isSome_iff_ne_none.2 hne)
  exact hp y hy

end DirWatch.Engine
