import DirWatch.Proofs.PendingSet
import DirWatch.Proofs.Worker.Delivery

/-! # Deadlines over a run

The clock of a worker stands still while the worker has something to do, and does not pass the time
at which the pending set is due. So a set that is due is flushed at that very time, however many
events wait, and no event is handled then. -/

namespace DirWatch

variable {σ : Type}

/-- The registered directories that activity at a path concerns: the one that lists it, and the path
itself. -/
def Registry.concerned (r : Registry σ) (p : Path) : List Path :=
  (p.parent?.filter r.contains).toList ++ [p].filter r.contains

/-- A path that is neither a registered directory nor listed in one concerns none. -/
theorem Registry.concerned_eq_nil {r : Registry σ} {p : Path} (hp : r.contains p = false)
    (hparent : ∀ q, p.parent? = some q → r.contains q = false) : r.concerned p = [] := by
  have hnone : p.parent?.filter r.contains = none := by
    rw [Option.filter_eq_none_iff]
    intro q hq
    simp [hparent q hq]
  simp [concerned, hnone, hp]

theorem EngineConfig.toNat_longestDelay (c : EngineConfig) :
    c.longestDelay.toNat = max c.maxCoalesceDelay.toNat c.coalesceTimeout.toNat := by
  unfold longestDelay
  generalize c.maxCoalesceDelay = delay
  generalize c.coalesceTimeout = quiet
  change (if delay ≤ quiet then quiet else delay).toNat = _
  rw [Nat.max_def]
  simp only [UInt64.le_iff_toNat_le]
  split <;> rfl

namespace Worker

/-! ## Marks -/

/-- The directories that an event marks, one after the other. -/
def marked (w : Worker σ) : NativeEvent → List Path
  | .changed paths | .removed paths => paths.flatMap w.registry.concerned
  | .overflow => w.registry.paths
  | .failed _ => []

/-- A worker with the same clock and the same delays. -/
def SameTimes (w v : Worker σ) : Prop :=
  v.now = w.now ∧ v.idle = w.idle ∧ v.longest = w.longest

namespace SameTimes

theorem refl (w : Worker σ) : SameTimes w w := ⟨rfl, rfl, rfl⟩

theorem trans {u v w : Worker σ} (h : SameTimes u v) (h' : SameTimes v w) : SameTimes u w :=
  ⟨h'.1.trans h.1, h'.2.1.trans h.2.1, h'.2.2.trans h.2.2⟩

theorem foldl {f : Worker σ → Path → Worker σ} (h : ∀ w p, SameTimes w (f w p)) (paths : List Path)
    (w : Worker σ) : SameTimes w (paths.foldl f w) := by
  induction paths generalizing w with
  | nil => exact refl w
  | cons p paths ih => exact (h w p).trans (ih _)

theorem mark (w : Worker σ) (dir : Path) : SameTimes w (w.mark dir) := ⟨rfl, rfl, rfl⟩

theorem markChanged (w : Worker σ) (p : Path) : SameTimes w (w.markChanged p) := by
  rw [markChanged_eq]
  dsimp only
  split <;> cases p.parent?.filter w.registry.contains <;> exact ⟨rfl, rfl, rfl⟩

theorem markRemoved (w : Worker σ) (p : Path) : SameTimes w (w.markRemoved p) :=
  trans ⟨rfl, rfl, rfl⟩ (markChanged _ p)

theorem markAll (w : Worker σ) : SameTimes w w.markAll := foldl mark _ w

theorem handle (w : Worker σ) (e : NativeEvent) : SameTimes w (w.handle e).2 := by
  cases e with
  | changed paths => exact trans ⟨rfl, rfl, rfl⟩ (foldl markChanged paths _)
  | removed paths => exact trans ⟨rfl, rfl, rfl⟩ (foldl markRemoved paths _)
  | overflow => exact trans ⟨rfl, rfl, rfl⟩ (markAll _)
  | failed => exact refl w

theorem flush (host : Host σ) (w : Worker σ) : SameTimes w (w.flush host).2 := by
  unfold Worker.flush
  dsimp only
  split <;> exact ⟨rfl, rfl, rfl⟩

theorem answer (host : Host σ) (w : Worker σ) (c : Command) :
    SameTimes w (w.answer host c).2.2 := by
  cases c with
  | stats | snapshot => exact refl w
  | rescan => exact (markAll w).trans (flush host _)

theorem conclude (result : Except Error Unit) (w : Worker σ) :
    SameTimes w (w.conclude result) := by
  cases result <;> exact ⟨rfl, rfl, rfl⟩

theorem step (host : Host σ) (w : Worker σ) : SameTimes w (w.step host).2 := by
  have hs := steps_step host w
  generalize w.step host = r at hs
  cases hs with
  | ended | cancelled | blocked => exact ⟨rfl, rfl, rfl⟩
  | @answered c rest reply result v running commands answer =>
      have ha := SameTimes.answer host { w.awake with commands := rest } c
      rw [answer] at ha
      exact trans ha (conclude result v)
  | @flushed result v running flush =>
      have hf := SameTimes.flush host w.awake
      rw [flush] at hf
      exact trans hf (conclude result v)
  | closed => exact conclude _ { w.awake with queue := _ }
  | @received e queue result v running reception handle =>
      have hh := SameTimes.handle { w.awake with queue := queue } e
      rw [handle] at hh
      exact trans hh (conclude result v)

end SameTimes

theorem pending_markChanged_eq (w : Worker σ) (p : Path) :
    (w.markChanged p).pending = w.pending.insertAll w.now (w.registry.concerned p) := by
  rw [markChanged_eq, Registry.concerned]
  dsimp only
  by_cases hp : w.registry.contains p = true
  · rw [if_pos hp, List.filter_singleton, hp]
    cases p.parent?.filter w.registry.contains <;> rfl
  · rw [if_neg hp, List.filter_singleton, (Bool.not_eq_true _).mp hp]
    cases p.parent?.filter w.registry.contains <;> rfl

/-- Marking what some paths concern. -/
theorem pending_foldl_eq {f : Worker σ → Path → Worker σ}
    (hr : ∀ w p, (f w p).registry = w.registry) (ht : ∀ w p, SameTimes w (f w p))
    (hp : ∀ w p, (f w p).pending = w.pending.insertAll w.now (w.registry.concerned p))
    (paths : List Path) (w : Worker σ) :
    (paths.foldl f w).pending =
      w.pending.insertAll w.now (paths.flatMap w.registry.concerned) := by
  induction paths generalizing w with
  | nil => rfl
  | cons p paths ih =>
      rw [List.foldl_cons, ih, hr, (ht w p).1, hp, List.flatMap_cons, PendingSet.insertAll,
        PendingSet.insertAll, PendingSet.insertAll, List.foldl_append]

theorem pending_markAll_eq (w : Worker σ) :
    w.markAll.pending = w.pending.insertAll w.now w.registry.paths := by
  unfold markAll
  generalize w.registry.paths = dirs
  induction dirs generalizing w with
  | nil => rfl
  | cons dir dirs ih => exact ih (w.mark dir)

/-- An event marks what it concerns, at the time at which it is handled. -/
theorem pending_handle_eq (w : Worker σ) (e : NativeEvent) :
    (w.handle e).2.pending = w.pending.insertAll w.now (w.marked e) := by
  cases e with
  | changed paths =>
      exact pending_foldl_eq registry_markChanged SameTimes.markChanged pending_markChanged_eq
        paths _
  | removed paths =>
      refine pending_foldl_eq registry_markRemoved SameTimes.markRemoved (fun w p => ?_) paths _
      have hr : ({ w with engine := w.engine.markStale p } : Worker σ).registry = w.registry :=
        Engine.registry_markStale w.engine p
      rw [markRemoved, pending_markChanged_eq, hr]
  | overflow => exact pending_markAll_eq _
  | failed => rfl

/-! ## Runs with a clock -/

/-- What happens around a worker: its queue takes signals, producers come and go, it is asked and
cancelled, and the machine changes. -/
inductive Outside (w : Worker σ) : Worker σ → Prop
  | deliver (s : Signal) : Outside w { w with queue := w.queue.accept s }
  | addSink : Outside w { w with queue := w.queue.addSink }
  | dropSink : Outside w { w with queue := w.queue.dropSink }
  | ask (c : Command) : Outside w { w with commands := w.commands ++ [c] }
  | cancel : Outside w { w with isCancelled := true }
  | change (machine : σ) : Outside w { w with
      engine := { w.engine with registry := { w.engine.registry with machine } } }

/-- The marks since the last flush, after a step. -/
def marksAfter (w : Worker σ) (marks : List (Instant × Path)) :
    Option Activity → List (Instant × Path)
  | some (.received (.event e)) => marks ++ (w.marked e).map (w.now, ·)
  | some .flushed | some (.answered .rescan _) => []
  | _ => marks

/-- The runs of a worker, each with the marks since its last flush. Time passes instant by instant,
and only while the worker has nothing to do. -/
inductive Timeline (config : EngineConfig) : Worker σ → List (Instant × Path) → Prop
  | start (registry : Registry σ) (capacity : Nat) (backend : Backend) :
      Timeline config (start registry (.new capacity) backend config) []
  | outside {w v : Worker σ} {marks : List (Instant × Path)} (h : Timeline config w marks)
      (change : w.Outside v) : Timeline config v marks
  | work {w : Worker σ} {marks : List (Instant × Path)} (h : Timeline config w marks)
      (host : Host σ) : Timeline config (w.step host).2 (w.marksAfter marks (w.step host).1)
  | tick {w : Worker σ} {marks : List (Instant × Path)} (h : Timeline config w marks)
      (host : Host σ) (nothing : (w.step host).1 = none) :
      Timeline config { w with now := w.now + 1 } marks

/-- The pending set is made of the marks, whose times are in order, and a running worker is not past
its deadline. -/
structure Prompt (config : EngineConfig) (w : Worker σ) (marks : List (Instant × Path)) : Prop where
  idle : w.idle = config.coalesceTimeout.toNat
  longest : w.longest = max config.maxCoalesceDelay.toNat config.coalesceTimeout.toNat
  pending : w.pending = .ofMarks marks
  ordered : marks.Pairwise fun a b => a.1 ≤ b.1
  past : ∀ m ∈ marks, m.1 ≤ w.now
  onTime : w.isRunning = true → ∀ due, w.deadline = some due → w.now ≤ due

/-- A set that is not due yet will be due later. -/
theorem lt_of_not_isDue {w : Worker σ} (h : w.isDue = false) {due : Instant}
    (hd : w.deadline = some due) : w.now < due := by
  simpa [isDue, hd] using h

namespace Prompt

variable {config : EngineConfig} {w v : Worker σ} {marks : List (Instant × Path)} {host : Host σ}

/-- What concerns neither the clock nor the marks. -/
theorem of_eq (h : Prompt config w marks) (ht : SameTimes w v) (hp : v.pending = w.pending)
    (hr : v.isRunning = true → w.isRunning = true) : Prompt config v marks where
  idle := ht.2.1.trans h.idle
  longest := ht.2.2.trans h.longest
  pending := hp.trans h.pending
  ordered := h.ordered
  past m hm := ht.1 ▸ h.past m hm
  onTime hrun due hdue := by
    rw [deadline, ht.2.1, ht.2.2, hp] at hdue
    exact ht.1 ▸ h.onTime (hr hrun) due hdue

/-- After a flush nothing is due. -/
theorem of_flushed (h : Prompt config w marks) (ht : SameTimes w v) (hp : v.pending = {}) :
    Prompt config v [] where
  idle := ht.2.1.trans h.idle
  longest := ht.2.2.trans h.longest
  pending := hp
  ordered := .nil
  past _ hm := absurd hm List.not_mem_nil
  onTime _ due hdue := by
    rw [deadline, hp] at hdue
    cases hdue

/-- Marks that are made before the pending set is due do not make it due in the past. -/
theorem of_marked (h : Prompt config w marks) (hdue : w.isDue = false) (ht : SameTimes w v)
    {dirs : List Path} (hp : v.pending = w.pending.insertAll w.now dirs) :
    Prompt config v (marks ++ dirs.map (w.now, ·)) where
  idle := ht.2.1.trans h.idle
  longest := ht.2.2.trans h.longest
  pending := by rw [hp, h.pending, PendingSet.insertAll_ofMarks]
  ordered := by
    refine List.pairwise_append.2 ⟨h.ordered, ?_, ?_⟩
    · exact List.pairwise_map.2 (List.pairwise_of_forall fun _ _ => Nat.le_refl _)
    · intro a ha b hb
      obtain ⟨_, -, rfl⟩ := List.mem_map.1 hb
      exact h.past a ha
  past m hm := by
    rw [ht.1]
    rcases List.mem_append.1 hm with hm | hm
    · exact h.past m hm
    · obtain ⟨_, -, rfl⟩ := List.mem_map.1 hm
      exact Nat.le_refl _
  onTime _ due hd := by
    rw [deadline, hp, h.pending, PendingSet.insertAll_ofMarks, ht.2.1, ht.2.2] at hd
    obtain ⟨first, last, hfirst, hlast, rfl⟩ := PendingSet.exists_of_deadline_ofMarks hd
    rw [ht.1]
    cases marks with
    | nil =>
        have hnow : ∀ m ∈ dirs.map (w.now, ·), m.1 = w.now := by
          intro m hm
          obtain ⟨_, -, rfl⟩ := List.mem_map.1 hm
          rfl
        have hf := hnow first (List.mem_of_mem_head? hfirst)
        have hl := hnow last (List.mem_of_getLast? hlast)
        exact le_min (hl ▸ Nat.le_add_right _ _) (hf ▸ Nat.le_add_right _ _)
    | cons m marks =>
        obtain rfl : m = first := Option.some.inj hfirst
        obtain ⟨before, hbefore⟩ : ∃ before, (m :: marks).getLast? = some before :=
          ⟨_, List.getLast?_eq_getLast_of_ne_nil (List.cons_ne_nil m marks)⟩
        have hlt := lt_of_not_isDue hdue (by
          rw [deadline, h.pending, PendingSet.deadline_ofMarks rfl hbefore])
        rcases List.eq_nil_or_concat' dirs with rfl | ⟨dirs, dir, rfl⟩
        · rw [List.map_nil, List.append_nil, hbefore] at hlast
          obtain rfl := Option.some.inj hlast
          exact Nat.le_of_lt hlt
        · rw [List.map_append, List.map_singleton, ← List.append_assoc, List.getLast?_concat]
            at hlast
          obtain rfl := Option.some.inj hlast
          exact le_min (Nat.le_add_right _ _) (Nat.le_of_lt (lt_min_iff.1 hlt).2)

end Prompt

/-! ## Steps -/

/-- A worker flushes by itself when its pending set is due, and receives while it is not. -/
theorem isDue_of_step {host : Host σ} {w : Worker σ} {a : Activity}
    (h : (w.step host).1 = some a) :
    (a = .flushed → w.isDue = true) ∧ ∀ r, a = .received r → w.isDue = false := by
  unfold step at h
  split at h
  · cases h
  split at h
  · obtain rfl := Option.some.inj h
    exact ⟨nofun, nofun⟩
  split at h
  · obtain rfl := Option.some.inj h
    exact ⟨nofun, nofun⟩
  split at h
  · next hd =>
      obtain rfl := Option.some.inj h
      exact ⟨fun _ => hd, nofun⟩
  · next hd =>
      refine ⟨?_, fun _ _ => (Bool.not_eq_true _).mp hd⟩
      rintro rfl
      dsimp only at h
      split at h <;> cases h

/-- While the pending set is due, a worker that is not cancelled answers or flushes. -/
theorem step_of_isDue (host : Host σ) {w : Worker σ} (hr : w.isRunning = true)
    (hd : w.isDue = true) : ∃ a, (w.step host).1 = some a ∧ ∀ r, a ≠ .received r := by
  unfold step
  rw [if_neg (by simp [hr])]
  split
  · exact ⟨_, rfl, nofun⟩
  split
  · exact ⟨_, rfl, nofun⟩
  · exact ⟨_, rfl, nofun⟩

section Flushes

theorem flushes_foldl {f : Worker σ → Path → Worker σ} (hf : ∀ w p, (f w p).flushes = w.flushes)
    (paths : List Path) (w : Worker σ) : (paths.foldl f w).flushes = w.flushes := by
  induction paths generalizing w with
  | nil => rfl
  | cons p paths ih => exact (ih _).trans (hf w p)

theorem flushes_markChanged (w : Worker σ) (p : Path) :
    (w.markChanged p).flushes = w.flushes := by
  rw [markChanged_eq]
  dsimp only
  split <;> cases p.parent?.filter w.registry.contains <;> rfl

theorem flushes_handle (w : Worker σ) (e : NativeEvent) : (w.handle e).2.flushes = w.flushes := by
  cases e with
  | changed paths => exact flushes_foldl flushes_markChanged paths _
  | removed paths =>
      exact flushes_foldl (f := markRemoved) (fun w p => flushes_markChanged _ p) paths _
  | overflow => exact flushes_foldl (f := mark) (fun _ _ => rfl) _ _
  | failed => rfl

theorem flushes_conclude (result : Except Error Unit) (w : Worker σ) :
    (w.conclude result).flushes = w.flushes := by
  cases result <;> rfl

/-- A worker flushes by itself or for a rescan. -/
theorem flushes_step {host : Host σ} {w : Worker σ} (h : (w.step host).2.flushes ≠ w.flushes) :
    (w.step host).1 = some .flushed ∨
      ∃ reply, (w.step host).1 = some (.answered .rescan reply) := by
  have hs := steps_step host w
  generalize w.step host = r at h hs
  cases hs with
  | ended | cancelled | blocked => exact absurd rfl h
  | @answered c rest reply result v running commands answer =>
      cases c with
      | rescan => exact .inr ⟨reply, rfl⟩
      | stats | snapshot =>
          obtain ⟨-, rfl, rfl⟩ := Prod.mk.inj answer
          exact absurd rfl h
  | flushed => exact .inl rfl
  | closed => exact absurd rfl h
  | @received e queue result v running reception handle =>
      have hh := flushes_handle { w.awake with queue } e
      rw [handle] at hh
      exact absurd ((flushes_conclude result v).trans hh) h

end Flushes

namespace Prompt

variable {config : EngineConfig} {w : Worker σ} {marks : List (Instant × Path)}

/-- A step keeps a worker prompt. -/
theorem step (h : Prompt config w marks) (host : Host σ) :
    Prompt config (w.step host).2 (w.marksAfter marks (w.step host).1) := by
  have ht := SameTimes.step host w
  have hdue := @isDue_of_step σ host w
  have hs := steps_step host w
  generalize w.step host = r at ht hdue hs
  cases hs with
  | ended stopped => exact h
  | cancelled => exact h.of_eq ht rfl nofun
  | @answered c rest reply result v running commands answer =>
      cases c with
      | stats | snapshot =>
          obtain ⟨-, rfl, rfl⟩ := Prod.mk.inj answer
          exact h.of_eq ht rfl fun _ => running
      | rescan =>
          have hv : v.pending = {} := by
            obtain ⟨-, hv⟩ := Prod.mk.inj answer
            rw [← pending_flush host (markAll { w.awake with commands := rest }), hv]
          exact h.of_flushed ht ((pending_conclude result v).trans hv)
  | @flushed result v running flush =>
      have hv : v.pending = {} := by rw [← pending_flush host w.awake, flush]
      exact h.of_flushed ht ((pending_conclude result v).trans hv)
  | blocked running => exact h.of_eq ht rfl fun _ => running
  | closed => exact h.of_eq ht rfl nofun
  | @received e queue result v running reception handle =>
      refine h.of_marked ((hdue rfl).2 _ rfl) ht ?_
      have hp := pending_handle_eq { w.awake with queue } e
      rw [handle] at hp
      exact (pending_conclude result v).trans hp

/-- A clock that waits for the worker does not pass the deadline. -/
theorem tick (h : Prompt config w marks) {host : Host σ} (nothing : (w.step host).1 = none) :
    Prompt config { w with now := w.now + 1 } marks where
  idle := h.idle
  longest := h.longest
  pending := h.pending
  ordered := h.ordered
  past m hm := Nat.le_succ_of_le (h.past m hm)
  onTime hrun due hdue := by
    change w.isRunning = true at hrun
    have hnow : w.isDue = false := by
      rw [← Bool.not_eq_true]
      intro hnow
      obtain ⟨a, ha, -⟩ := step_of_isDue host hrun hnow
      rw [nothing] at ha
      cases ha
    exact lt_of_not_isDue hnow hdue

end Prompt

/-- Every run with a clock is prompt. -/
theorem Timeline.prompt {config : EngineConfig} {w : Worker σ} {marks : List (Instant × Path)}
    (h : Timeline config w marks) : Prompt config w marks := by
  induction h with
  | start registry capacity backend =>
      exact ⟨rfl, config.toNat_longestDelay, rfl, .nil, fun _ hm => absurd hm List.not_mem_nil,
        fun _ _ hd => by cases hd⟩
  | outside h change ih => cases change <;> exact ih.of_eq ⟨rfl, rfl, rfl⟩ rfl id
  | work h host ih => exact ih.step host
  | tick h host nothing ih => exact ih.tick nothing

/-! ## Coalescing -/

section Coalescing

variable {config : EngineConfig} {w : Worker σ} {marks : List (Instant × Path)}

theorem pending_foldl_mark (dirs : List Path) (w : Worker σ) :
    (dirs.foldl mark w).pending = w.pending.insertAll w.now dirs := by
  induction dirs generalizing w with
  | nil => rfl
  | cons dir dirs ih => exact ih (w.mark dir)

/-- The deadline that marks make, spelled out. -/
theorem Prompt.exists_deadline (h : Prompt config w marks) (hne : marks ≠ []) :
    ∃ first last, marks.head? = some first ∧ marks.getLast? = some last ∧
      w.deadline = some (min (last.1 + w.idle) (first.1 + w.longest)) := by
  cases marks with
  | nil => exact absurd rfl hne
  | cons first marks =>
      have hlast := List.getLast?_eq_getLast_of_ne_nil hne
      refine ⟨first, _, rfl, hlast, ?_⟩
      rw [deadline, h.pending, PendingSet.deadline_ofMarks rfl hlast]

theorem Prompt.deadline_of_nil (h : Prompt config w []) : w.deadline = none := by
  rw [deadline, h.pending, PendingSet.deadline_ofMarks_nil]

/-- More marks keep the first one, and do not make the last one earlier. -/
theorem Prompt.deadline_mono (h : Prompt config w marks) (dirs : List Path) {due : Instant}
    (hdue : w.deadline = some due) :
    ∃ later, (dirs.foldl mark w).deadline = some later ∧ due ≤ later := by
  have ht := SameTimes.foldl SameTimes.mark dirs w
  have hp : (dirs.foldl mark w).pending = .ofMarks (marks ++ dirs.map (w.now, ·)) := by
    rw [pending_foldl_mark, h.pending, PendingSet.insertAll_ofMarks]
  rw [deadline, h.pending] at hdue
  obtain ⟨first, last, hfirst, hlast, rfl⟩ := PendingSet.exists_of_deadline_ofMarks hdue
  have hhead : (marks ++ dirs.map (w.now, ·)).head? = some first := by
    rw [List.head?_append, hfirst, Option.some_or]
  rcases List.eq_nil_or_concat' dirs with rfl | ⟨dirs, dir, rfl⟩
  · exact ⟨_, by rw [List.foldl_nil, deadline, h.pending, hdue], Nat.le_refl _⟩
  · have htail : (marks ++ (dirs ++ [dir]).map (w.now, ·)).getLast? = some (w.now, dir) := by
      rw [List.map_append, List.map_singleton, ← List.append_assoc, List.getLast?_concat]
    refine ⟨_, by rw [deadline, hp, ht.2.1, ht.2.2, PendingSet.deadline_ofMarks hhead htail], ?_⟩
    have hpast := h.past last (List.mem_of_getLast? hlast)
    exact min_le_min_right _ (Nat.add_le_add_right hpast _)

/-- What is due now or before is due now. -/
theorem Prompt.eq_now (h : Prompt config w marks) (hr : w.isRunning = true)
    (hd : w.isDue = true) : w.deadline = some w.now := by
  cases hdue : w.deadline with
  | none => simp [isDue, hdue] at hd
  | some due =>
      have hle : due ≤ w.now := by simpa [isDue, hdue] using hd
      rw [Nat.le_antisymm hle (h.onTime hr due hdue)]

/-- Activity that concerns no registered directory marks nothing. -/
theorem marked_eq_nil {w : Worker σ} {paths : List Path} {e : NativeEvent}
    (he : e = .changed paths ∨ e = .removed paths)
    (hpaths : ∀ p ∈ paths, w.registry.contains p = false ∧
      ∀ q, p.parent? = some q → w.registry.contains q = false) : w.marked e = [] := by
  have hnil : paths.flatMap w.registry.concerned = [] :=
    List.flatMap_eq_nil_iff.2 fun p hp =>
      Registry.concerned_eq_nil (hpaths p hp).1 (hpaths p hp).2
  rcases he with rfl | rfl <;> exact hnil

/-- How activity is coalesced, at one moment of a run with the marks since the last flush. -/
structure Coalesces (config : EngineConfig) (w : Worker σ) (marks : List (Instant × Path)) : Prop where
  /-- Nothing is due while nothing is pending. -/
  empty : w.pending.isEmpty = true → marks = [] ∧ w.deadline = none
  /-- A pending set is due a quiet time after its last mark, or a longest delay after its first. -/
  due : w.pending.isEmpty = false →
    ∃ first last, marks.head? = some first ∧ marks.getLast? = some last ∧
      let idle := config.coalesceTimeout.toNat
      let longest := max idle config.maxCoalesceDelay.toNat
      let due := min (last.1 + idle) (first.1 + longest)
      w.deadline = some due ∧ first.1 + idle ≤ due ∧ due ≤ first.1 + longest
  /-- More marks, of whichever directories, never make a set due earlier. -/
  later : ∀ (dirs : List Path) due, w.deadline = some due →
    ∃ later, (dirs.foldl mark w).deadline = some later ∧ due ≤ later
  /-- The clock of a running worker does not pass the deadline. -/
  onTime : w.isRunning = true → ∀ due, w.deadline = some due → w.now ≤ due
  /-- What is received is received before the deadline. -/
  early : ∀ (host : Host σ) r, (w.step host).1 = some (.received r) →
    ∀ due, w.deadline = some due → w.now < due
  /-- At the deadline a worker that is not cancelled and has nothing to answer flushes. -/
  prompt : w.isRunning = true → w.isCancelled = false → w.commands = [] →
    w.deadline = some w.now → ∀ host : Host σ, (w.step host).1 = some .flushed
  /-- What is flushed for no rescan is flushed at the deadline. -/
  exact : ∀ host : Host σ,
    ((w.step host).1 = some .flushed → w.deadline = some w.now) ∧
      ((w.step host).2.flushes ≠ w.flushes →
        (w.step host).1 = some .flushed ∨
          ∃ reply, (w.step host).1 = some (.answered .rescan reply))
  /-- Activity outside what is registered leaves the pending set and its deadline alone. -/
  unrelated : ∀ (host : Host σ) paths e, e = .changed paths ∨ e = .removed paths →
    (∀ p ∈ paths, w.registry.contains p = false ∧
      ∀ q, p.parent? = some q → w.registry.contains q = false) →
    (w.step host).1 = some (.received (.event e)) →
      (w.step host).2.pending = w.pending ∧ (w.step host).2.deadline = w.deadline

/-- A worker that is not cancelled and has nothing to answer flushes what is due. -/
theorem step_of_due {w : Worker σ} (hr : w.isRunning = true) (hc : w.isCancelled = false)
    (hq : w.commands = []) (hd : w.isDue = true) (host : Host σ) :
    w.step host = (some .flushed, (w.awake.flush host).2.conclude (w.awake.flush host).1) := by
  unfold step
  rw [if_neg (by simp [hr]), if_neg (by simp [hc])]
  split
  · next hcons => rw [hq] at hcons; cases hcons
  · rw [if_pos hd]
    rfl

/-- What the marks of an event leave behind. -/
theorem pending_step_of_received {host : Host σ} {w : Worker σ} {e : NativeEvent}
    (h : (w.step host).1 = some (.received (.event e))) :
    (w.step host).2.pending = w.pending.insertAll w.now (w.marked e) := by
  have hs := steps_step host w
  generalize w.step host = r at h hs
  cases hs with
  | @received e' queue result v running reception handle =>
      obtain rfl : e' = e := by simpa using h
      have hp := pending_handle_eq { w.awake with queue } e'
      rw [handle] at hp
      exact (pending_conclude result v).trans hp
  | _ => simp at h

/-- Activity is coalesced over every run with a clock, whatever the configuration, the events, their
times and the questions in between. -/
theorem coalesces_of_timeline (h : Timeline config w marks) : w.Coalesces config marks := by
  have hp := h.prompt
  refine ⟨?_, ?_, fun dirs _ => hp.deadline_mono dirs, hp.onTime, ?_, ?_, ?_, ?_⟩
  · intro hempty
    rw [hp.pending, PendingSet.isEmpty_ofMarks, List.isEmpty_iff] at hempty
    subst hempty
    exact ⟨rfl, hp.deadline_of_nil⟩
  · intro hne
    rw [hp.pending, PendingSet.isEmpty_ofMarks, List.isEmpty_eq_false_iff] at hne
    obtain ⟨first, last, hfirst, hlast, hdue⟩ := hp.exists_deadline hne
    have hle := PendingSet.first_le_last hp.ordered hfirst hlast
    refine ⟨first, last, hfirst, hlast, ?_⟩
    rw [hp.idle, hp.longest, max_comm] at hdue
    exact ⟨hdue, le_min (Nat.add_le_add_right hle _) (Nat.add_le_add_left (le_max_left _ _) _),
      min_le_right _ _⟩
  · intro host r hr due hdue
    exact lt_of_not_isDue ((isDue_of_step hr).2 r rfl) hdue
  · intro hr hc hq hdue host
    rw [step_of_due hr hc hq (by simp [isDue, hdue])]
  · refine fun host => ⟨fun hf => ?_, flushes_step⟩
    have hr : w.isRunning = true := by
      by_contra hn
      rw [step, if_pos (by simpa using hn)] at hf
      cases hf
    exact hp.eq_now hr ((isDue_of_step hf).1 rfl)
  · intro host paths e he hpaths hr
    have hpending : (w.step host).2.pending = w.pending := by
      rw [pending_step_of_received hr, marked_eq_nil he hpaths, PendingSet.insertAll,
        List.foldl_nil]
    have ht := SameTimes.step host w
    exact ⟨hpending, by rw [deadline, deadline, hpending, ht.2.1, ht.2.2]⟩

end Coalescing

/-! ## A steady stream -/

/-- Takes one more event over, and lets an instant pass. -/
def beat (host : Host σ) (p : Path) (w : Worker σ) : Worker σ :=
  let v := { w with queue := w.queue.accept (.event [p] false) }
  { (v.step host).2 with now := (v.step host).2.now + 1 }

theorem Timeline.beat {config : EngineConfig} {w : Worker σ} {marks after : List (Instant × Path)}
    (h : Timeline config w marks) (host : Host σ) (p : Path)
    (hafter : let v := { w with queue := w.queue.accept (.event [p] false) }
      v.marksAfter marks (v.step host).1 = after ∧ ((v.step host).2.step host).1 = none) :
    Timeline config (w.beat host p) after := by
  have hv := h.outside (.deliver (.event [p] false))
  exact hafter.1 ▸ (hv.work host).tick host hafter.2

/-- Events that come faster than the quiet time put the flush off, up to the longest delay. -/
theorem coalesces_of_timeline_stream :
    let config : EngineConfig := { coalesceTimeout := 2, maxCoalesceDelay := 3 }
    let r := Path.ofString "/r"
    let beat := beat (Engine.shelf true) (.ofString "/r/a")
    let w := beat (beat (beat (start Engine.emptyRoot.registry (.new 1) .native config)))
    let marks := [(0, r), (1, r), (2, r)]
    Timeline config w marks ∧ w.deadline = some 3 ∧ w.now = 3 ∧ w.Coalesces config marks := by
  intro config r beat w marks
  have h₀ : Timeline config _ [] := .start Engine.emptyRoot.registry 1 .native
  have h₁ : Timeline config _ [(0, r)] :=
    h₀.beat (Engine.shelf true) (.ofString "/r/a") (by decide +kernel)
  have h₂ : Timeline config _ [(0, r), (1, r)] :=
    h₁.beat (Engine.shelf true) (.ofString "/r/a") (by decide +kernel)
  have h₃ : Timeline config w marks :=
    h₂.beat (Engine.shelf true) (.ofString "/r/a") (by decide +kernel)
  exact ⟨h₃, by decide +kernel, by decide +kernel, coalesces_of_timeline h₃⟩

end Worker

end DirWatch
