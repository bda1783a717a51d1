import DirWatch.Proofs.Worker.Deadline

/-! # Time that passes in one go

A worker that runs until nothing is left to do, and one that sleeps over a stretch of time, go
through runs with a clock. A sleeping worker wakes at one deadline at most: after the flush it finds
an empty queue, and nothing is due before something is delivered. -/

namespace DirWatch

variable {σ : Type} {host : Host σ}

namespace EventQueue

variable {q : EventQueue}

/-- An empty queue that has producers: a receive blocks on it. -/
def Drained (q : EventQueue) : Prop := q.entries = [] ∧ q.sinks ≠ 0

theorem drained_of_takeNext (h : q.takeNext.1 = .blocked) : q.takeNext.2.Drained := by
  unfold takeNext at h ⊢
  split at h
  · cases h
  · refine ⟨rfl, fun hs => ?_⟩
    rw [if_pos hs] at h
    cases h

theorem drained_of_receive (h : q.receive.1 = .blocked) : q.receive.2.Drained := by
  unfold receive at h ⊢
  split at h
  · cases h
  split at h
  · cases h
  · next ho =>
      rw [if_neg ho]
      exact drained_of_takeNext h

theorem drained_of_resume (h : q.resume.1 = .blocked) : q.resume.2.Drained := by
  rcases resume_cases q with ⟨rest, -, hr⟩ | ⟨-, hr⟩ <;> rw [hr] at h ⊢
  · exact drained_of_receive h
  · exact drained_of_takeNext h

end EventQueue

namespace Worker

variable {config : EngineConfig} {w v : Worker σ} {marks : List (Instant × Path)}

/-! ## Workers at rest -/

/-- A worker that has nothing to do before its pending set is due. -/
structure AtRest (w : Worker σ) : Prop where
  notCancelled : w.isCancelled = false
  answered : w.commands = []
  blocked : w.isBlocked = true
  drained : w.queue.Drained

theorem AtRest.later (h : w.AtRest) (now : Instant) : { w with now }.AtRest :=
  ⟨h.notCancelled, h.answered, h.blocked, h.drained⟩

theorem step_of_ended (h : w.isRunning = false) : w.step host = (none, w) := by
  unfold step
  rw [if_pos (by simp [h])]

/-- A worker at rest does nothing until its pending set is due, and one that has ended nothing at
all. -/
theorem step_of_rest (h : w.isRunning = true → w.AtRest ∧ w.isDue = false) :
    (w.step host).1 = none := by
  unfold Worker.step
  split
  · rfl
  next hr =>
  obtain ⟨hw, hd⟩ := h (by simpa using hr)
  rw [if_neg (by simp [hw.notCancelled])]
  split
  · next hc => rw [hw.answered] at hc; cases hc
  rw [if_neg (by simp [hd])]
  have hnext : w.nextReception.1 = .blocked := by
    unfold nextReception EventQueue.resume EventQueue.takeNext
    rw [hw.blocked, hw.drained.1]
    exact if_neg hw.drained.2
  simp only [hnext]

/-- A worker comes to rest when it finds nothing to do. -/
theorem atRest_of_step (h : w.step host = (none, v)) :
    v.isRunning = true → v.AtRest ∧ v.isDue = false := by
  intro hr
  unfold Worker.step at h
  split at h
  · next hn =>
      obtain ⟨-, rfl⟩ := Prod.mk.inj h
      simp [hr] at hn
  split at h
  · cases (Prod.mk.inj h).1
  next hc =>
  split at h
  · cases (Prod.mk.inj h).1
  next hq =>
  split at h
  · cases (Prod.mk.inj h).1
  next hd =>
  dsimp only at h
  split at h
  · next hb =>
      obtain ⟨-, rfl⟩ := Prod.mk.inj h
      have hdrained : w.nextReception.2.Drained := by
        unfold nextReception at hb ⊢
        split at hb
        · rw [if_pos ‹_›]
          exact EventQueue.drained_of_resume hb
        · rw [if_neg ‹_›]
          exact EventQueue.drained_of_receive hb
      exact ⟨⟨(Bool.not_eq_true _).mp hc, hq, rfl, hdrained⟩, (Bool.not_eq_true _).mp hd⟩
  · cases (Prod.mk.inj h).1
  · cases (Prod.mk.inj h).1

/-- Time passes for a worker at rest as long as nothing is due. -/
theorem Timeline.wait (h : Timeline config w marks)
    (rest : w.isRunning = true → w.AtRest) (duration : Nat)
    (before : w.isRunning = true → ∀ due, w.deadline = some due → w.now + duration ≤ due)
    (host : Host σ) : Timeline config { w with now := w.now + duration } marks := by
  induction duration with
  | zero => exact h
  | succ duration ih =>
      have hw := ih fun hr due hdue => (Nat.le_succ _).trans (before hr due hdue)
      refine hw.tick host (step_of_rest fun hr => ⟨(rest hr).later _, ?_⟩)
      change w.deadline.any (· ≤ w.now + duration) = false
      cases hdue : w.deadline with
      | none => rfl
      | some due =>
          have hlt : w.now + duration < due := before hr due hdue
          simpa using hlt

/-! ## Runs in one go -/

theorem run_of_none (h : w.step host = (none, v)) : w.run host = ([], v) := by
  rw [run]
  split
  · next h' =>
      rw [h] at h'
      rw [(Prod.mk.inj h').2]
  · next h' =>
      rw [h] at h'
      cases (Prod.mk.inj h').1

theorem run_eq_cons {a : Activity} (h : w.step host = (some a, v)) :
    w.run host = (a :: (v.run host).1, (v.run host).2) := by
  rw [run]
  split
  · next h' =>
      rw [h] at h'
      cases (Prod.mk.inj h').1
  · next h' =>
      rw [h] at h'
      obtain ⟨ha, rfl⟩ := Prod.mk.inj h'
      rw [Option.some.inj ha]

theorem run_of_some {a : Activity} (h : w.step host = (some a, v)) :
    (w.run host).2 = (v.run host).2 := by
  rw [run_eq_cons h]

/-- A run in one go is made of steps, and ends with a worker at rest. -/
theorem Timeline.run (h : Timeline config w marks) (host : Host σ) :
    ∃ after, Timeline config (w.run host).2 after ∧ (w.run host).2.now = w.now ∧
      ((w.run host).2.isRunning = true →
        (w.run host).2.AtRest ∧ (w.run host).2.isDue = false) := by
  fun_induction Worker.run host w generalizing marks with
  | case1 w v hv =>
      have hstep := h.work host
      have ht := SameTimes.step host w
      rw [hv] at hstep ht
      exact ⟨_, hstep, ht.1, atRest_of_step hv⟩
  | case2 w a v hv rest u hu ih =>
      have hstep := h.work host
      have ht := SameTimes.step host w
      rw [hv] at hstep ht
      obtain ⟨after, hafter, hnow, hrest⟩ := ih hstep
      rw [hu] at hafter hnow hrest
      exact ⟨after, hafter, hnow.trans ht.1, hrest⟩

/-- The queue of a worker stays alert over every run with a clock. -/
theorem Timeline.alert (h : Timeline config w marks) : w.queue.Alert w.isBlocked := by
  induction h with
  | start registry capacity backend => exact alert_start registry capacity backend config
  | outside h change ih =>
      cases change with
      | deliver s => exact ih.accept s
      | addSink | dropSink => exact ⟨ih.hasSource, ih.room, ih.woken⟩
      | ask | cancel | change => exact ih
  | work h host ih => exact alert_perform ih (.work host)
  | tick h host nothing ih => exact ih

theorem isRunning_run (h : (w.run host).2.isRunning = true) : w.isRunning = true := by
  by_contra hn
  rw [run_of_none (step_of_ended ((Bool.not_eq_true _).mp hn))] at h
  exact hn h

/-- With an empty queue and no loss noted a receive tells of nothing but a failure. -/
theorem failed_of_receive {q q' : EventQueue} {e : NativeEvent} (hd : q.Drained)
    (ho : q.overflowed = false) (h : q.receive = (.event e, q')) : ∃ m, e = .failed m := by
  unfold EventQueue.receive at h
  split at h
  · next m _ => exact ⟨m, by simpa using (congrArg Prod.fst h).symm⟩
  · rw [if_neg (by simp [ho]), EventQueue.takeNext, hd.1] at h
    have hblocked := congrArg Prod.fst h
    simp only [EventQueue.next, if_neg hd.2] at hblocked
    cases hblocked

/-- A worker that finds its queue empty after a flush marks nothing. -/
theorem pending_run_of_drained (hp : w.pending = {}) (hq : w.commands = [])
    (hd : w.queue.Drained) (ho : w.queue.overflowed = false) (hb : w.isBlocked = false)
    (hr : (w.run host).2.isRunning = true) : (w.run host).2.pending = {} := by
  have hs := steps_step host w
  have hdue := @isDue_of_step σ host w
  rcases hstep : w.step host with ⟨_ | a, v⟩ <;> rw [hstep] at hs hdue
  · rw [run_of_none hstep]
    cases hs <;> exact hp
  · rw [run_of_some hstep] at hr ⊢
    have hv := isRunning_run hr
    cases hs with
    | cancelled | closed => cases hv
    | answered running commands => rw [hq] at commands; cases commands
    | flushed =>
        have hnow := (hdue rfl).1 rfl
        rw [isDue, deadline, hp] at hnow
        cases hnow
    | received running reception handle =>
        rw [nextReception, if_neg (by simp [hb])] at reception
        obtain ⟨m, rfl⟩ := failed_of_receive hd ho reception
        obtain ⟨rfl, -⟩ := Prod.mk.inj handle
        cases hv

/-- A worker at rest that wakes at its deadline rests after the flush, and nothing is due then. -/
theorem deadline_run_of_due (ha : w.queue.Alert w.isBlocked) (h : w.AtRest)
    (hd : w.isDue = true) (hr : (w.run host).2.isRunning = true) :
    (w.run host).2.deadline = none := by
  have hstep := step_of_due (isRunning_run hr) h.notCancelled h.answered hd host
  rw [run_of_some hstep] at hr ⊢
  obtain ⟨-, hv⟩ := ok_of_conclude (isRunning_run hr)
  rw [hv] at hr ⊢
  obtain ⟨hqueue, hcommands, -⟩ := SameInput.flush host w.awake
  have hoverflowed : w.queue.overflowed = false :=
    (Bool.not_eq_true _).mp fun ho => ha.woken h.blocked ho h.drained.1
  have hp : ((w.awake.flush host).2.run host).2.pending = {} := pending_run_of_drained
    (pending_flush host w.awake)
    (hcommands.trans h.answered) (hqueue ▸ h.drained) (hqueue ▸ hoverflowed)
    (isBlocked_flush host w.awake) hr
  rw [deadline, hp]
  rfl

/-- A worker at rest that sleeps until a given time flushes at its deadline, if that comes first. -/
theorem Timeline.flush_at_deadline (h : Timeline config w marks) (host : Host σ)
    (rest : w.isRunning = true → w.AtRest ∧ w.isDue = false) {stop : Instant} (hstop : w.now ≤ stop)
    {due : Instant} (hdue : w.deadline = some due) (hle : due ≤ stop) :
    let v := ({ w with now := max w.now due }.run host).2
    ∃ after, Timeline config v after ∧ v.now ≤ stop ∧
      (v.isRunning = true → v.AtRest ∧ v.deadline = none) := by
  intro v
  have hmax : w.now + (max w.now due - w.now) = max w.now due :=
    Nat.add_sub_cancel' (le_max_left _ _)
  have hwait := h.wait (fun hr => (rest hr).1) (max w.now due - w.now) (fun hr due' hdue' => by
    obtain rfl : due = due' := Option.some.inj (hdue.symm.trans hdue')
    rw [hmax]
    exact max_le (Nat.le_of_lt (lt_of_not_isDue (rest hr).2 hdue)) (Nat.le_refl _)) host
  rw [hmax] at hwait
  obtain ⟨after, hafter, hnow, hrest⟩ := hwait.run host
  refine ⟨after, hafter, hnow.trans_le (max_le hstop hle), fun hr => ⟨(hrest hr).1, ?_⟩⟩
  have hrun : w.isRunning = true :=
    isRunning_run (w := { w with now := max w.now due }) hr
  refine deadline_run_of_due hwait.alert ((rest hrun).1.later _) ?_ hr
  change w.deadline.any (· ≤ max w.now due) = true
  rw [hdue]
  simp

/-- Time that passes in one go passes instant by instant. -/
theorem Timeline.sleep (h : Timeline config w marks) (host : Host σ) (duration : Nat) :
    ∃ after, Timeline config (w.sleep host duration).2 after := by
  obtain ⟨before, hbefore, hnow, hrest⟩ := h.run host
  -- after a flush at the deadline, or without one, nothing is due until the end
  have hend : ∀ (v : Worker σ) marks, Timeline config v marks → v.now ≤ w.now + duration →
      (v.isRunning = true → v.AtRest ∧
        ∀ due, v.deadline = some due → w.now + duration ≤ due) →
      ∃ after, Timeline config ({ v with now := w.now + duration }.run host).2 after := by
    intro v marks hv hle hquiet
    have hwait := hv.wait (fun hr => (hquiet hr).1) (w.now + duration - v.now)
      (fun hr due hdue => by rw [Nat.add_sub_cancel' hle]; exact (hquiet hr).2 due hdue) host
    rw [Nat.add_sub_cancel' hle] at hwait
    obtain ⟨after, hafter, -⟩ := hwait.run host
    exact ⟨after, hafter⟩
  have hstop : (w.run host).2.now ≤ w.now + duration := by rw [hnow]; exact Nat.le_add_right _ _
  unfold Worker.sleep
  dsimp only
  split
  · next due hdue =>
    split
    · next hle =>
        obtain ⟨after, hafter, hle', hquiet⟩ :=
          hbefore.flush_at_deadline host hrest hstop hdue hle
        exact hend _ after hafter hle' fun hr =>
          ⟨(hquiet hr).1, fun due hd => by rw [(hquiet hr).2] at hd; cases hd⟩
    · next hlt =>
        refine hend _ before hbefore hstop fun hr => ⟨(hrest hr).1, fun due' hd => ?_⟩
        obtain rfl := Option.some.inj (hdue.symm.trans hd)
        exact Nat.le_of_not_le hlt
  · next hdue =>
      exact hend _ before hbefore hstop fun hr =>
        ⟨(hrest hr).1, fun due hd => by rw [hdue] at hd; cases hd⟩

/-- A question is put to a worker in the course of a run with a clock. -/
theorem Timeline.ask (h : Timeline config w marks) (host : Host σ) (c : Command) :
    ∃ after, Timeline config (w.ask host c).2 after :=
  let ⟨after, hafter, _⟩ := (h.outside (.ask c)).run host
  ⟨after, hafter⟩

end Worker

end DirWatch
