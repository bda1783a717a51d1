import DirWatch.Worker.Basic

/-! # Running a worker

One step does the most urgent thing there is: a cancellation comes before a question, that before a
pending set that is due, and that before an event, so that a stream of events cannot hold a flush
up. -/

namespace DirWatch

/-- What a worker did in one step. -/
inductive Activity where
  | cancelled
  | answered (command : Command) (reply : Reply)
  | flushed
  | received (reception : EventQueue.Reception)
  deriving DecidableEq

namespace EventQueue

/-- How many receptions a queue holds at most. -/
def weight (q : EventQueue) : Nat := q.entries.length + if q.overflowed then 1 else 0

theorem next_length {l rest : List QueueEntry} {e : NativeEvent} (h : next l = some (e, rest)) :
    rest.length < l.length := by
  fun_induction next l with
  | case1 => simp at h
  | case2 l ih => exact Nat.lt_succ_of_lt (ih h)
  | case3 | case4 =>
    simp only [Option.some.injEq, Prod.mk.injEq] at h
    simp [h.2]

theorem weight_takeNext_lt {q q' : EventQueue} {e : NativeEvent}
    (h : q.takeNext = (.event e, q')) : q'.weight < q.weight := by
  unfold takeNext at h
  split at h
  · next hn =>
    simp only [Prod.mk.injEq] at h
    simpa [← h.2, weight] using next_length hn
  · simp only [Prod.mk.injEq] at h
    split at h <;> simp at h

/-- Every event but a failure is received once. -/
theorem weight_receive_lt {q q' : EventQueue} {e : NativeEvent}
    (h : q.receive = (.event e, q')) : (∃ m, e = .failed m) ∨ q'.weight < q.weight := by
  unfold receive at h
  split at h
  · simp only [Prod.mk.injEq, Reception.event.injEq] at h
    exact .inl ⟨_, h.1.symm⟩
  · split at h
    · next ho =>
      simp only [Prod.mk.injEq] at h
      right
      simp [← h.2, weight, ho]
    · exact .inr (weight_takeNext_lt h)

theorem weight_resume_lt {q q' : EventQueue} {e : NativeEvent}
    (h : q.resume = (.event e, q')) : (∃ m, e = .failed m) ∨ q'.weight < q.weight := by
  unfold resume at h
  split at h
  · next rest hq =>
    refine (weight_receive_lt h).imp id fun hlt => Nat.lt_trans hlt ?_
    simp only [weight, hq, List.length_cons]
    omega
  · exact .inr (weight_takeNext_lt h)

end EventQueue

namespace Worker

variable {σ : Type}

/-- What the worker receives next. -/
def nextReception (w : Worker σ) : EventQueue.Reception × EventQueue :=
  if w.isBlocked then w.queue.resume else w.queue.receive

theorem weight_nextReception_lt {w : Worker σ} {e : NativeEvent}
    (h : w.nextReception.1 = .event e) :
    (∃ m, e = .failed m) ∨ w.nextReception.2.weight < w.queue.weight := by
  unfold nextReception at *
  split at h
  · rw [if_pos ‹_›]
    exact EventQueue.weight_resume_lt (Prod.ext h rfl)
  · rw [if_neg ‹_›]
    exact EventQueue.weight_receive_lt (Prod.ext h rfl)

/-- The most urgent step, or nothing if the worker has ended or has to wait. -/
def step (host : Host σ) (w : Worker σ) : Option Activity × Worker σ :=
  if !w.isRunning then (none, w)
  else if w.isCancelled then (some .cancelled, { w with isRunning := false })
  else match w.commands with
    | c :: rest =>
      let (reply, result, w) := { w with commands := rest, isBlocked := false }.answer host c
      (some (.answered c reply), w.conclude result)
    | [] =>
      if w.isDue then
        let (result, w) := { w with isBlocked := false }.flush host
        (some .flushed, w.conclude result)
      else
        let (reception, queue) := w.nextReception
        let w := { w with queue, isBlocked := false }
        match reception with
        | .blocked => (none, { w with isBlocked := true })
        | .closed =>
          (some (.received .closed),
            w.conclude (.error (.watchService "Native event queue closed")))
        | .event e =>
          let (result, w) := w.handle e
          (some (.received (.event e)), w.conclude result)

/-- What is left to do: to run at all, to answer and receive, to flush. -/
def workload (w : Worker σ) : Nat × Nat × Nat :=
  (if w.isRunning then 1 else 0, w.commands.length + w.queue.weight,
    if w.pending.firstMarked.isSome then 1 else 0)

/-- The order in which workloads shrink. -/
abbrev Lighter : Nat × Nat × Nat → Nat × Nat × Nat → Prop :=
  Prod.Lex (· < ·) (Prod.Lex (· < ·) (· < ·))

theorem workload_conclude {w v : Worker σ} (result : Except Error Unit) (hw : w.isRunning = true)
    (hv : v.isRunning = true)
    (h : Prod.Lex (· < ·) (· < ·) v.workload.2 w.workload.2 ∨ ∃ e, result = .error e) :
    Lighter (v.conclude result).workload w.workload := by
  cases result with
  | error e =>
    refine Prod.Lex.left _ _ ?_
    simp [conclude, hw]
  | ok =>
    obtain h | ⟨e, he⟩ := h
    · unfold Lighter workload conclude at *
      simp only [hw, hv]
      exact Prod.Lex.right _ h
    · cases he

/-- Every step makes the workload lighter. -/
theorem workload_step {host : Host σ} {w w' : Worker σ} {a : Activity}
    (h : w.step host = (some a, w')) : Lighter w'.workload w.workload := by
  unfold step at h
  split at h
  · simp at h
  next hr =>
  have hr : w.isRunning = true := by simpa using hr
  split at h
  · simp only [Prod.mk.injEq] at h
    rw [← h.2]
    refine Prod.Lex.left _ _ ?_
    simp [hr]
  split at h
  · next c rest hc =>
    have hs := SameInput.answer host { w with commands := rest, isBlocked := false } c
    simp only [Prod.mk.injEq] at h
    rw [← h.2]
    refine workload_conclude _ hr (hs.2.2.trans hr) (.inl (Prod.Lex.left _ _ ?_))
    rw [hs.1, hs.2.1]
    simp [hc]
  · next hc =>
    split at h
    · next hd =>
      have hs := SameInput.flush host { w with isBlocked := false }
      simp only [Prod.mk.injEq] at h
      rw [← h.2]
      refine workload_conclude _ hr (hs.2.2.trans hr) (.inl ?_)
      have hm : w.pending.firstMarked.isSome = true := by
        simp only [isDue, deadline, PendingSet.deadline] at hd
        cases hp : w.pending.firstMarked with
        | none => simp [hp] at hd
        | some => rfl
      have hp := pending_flush host { w with isBlocked := false }
      unfold workload
      rw [hs.1, hs.2.1, hp]
      refine Prod.Lex.right _ ?_
      simp [hm]
    · dsimp only at h
      split at h
      · simp at h
      · simp only [Prod.mk.injEq] at h
        rw [← h.2]
        exact workload_conclude _ hr hr (.inr ⟨_, rfl⟩)
      · next e he =>
        have hs := SameInput.handle { w with queue := w.nextReception.2, isBlocked := false } e
        simp only [Prod.mk.injEq] at h
        rw [← h.2]
        refine workload_conclude _ hr (hs.2.2.trans hr) ?_
        obtain ⟨m, rfl⟩ | hlt := weight_nextReception_lt he
        · exact .inr ⟨_, rfl⟩
        · refine .inl (Prod.Lex.left _ _ ?_)
          rw [hs.1, hs.2.1]
          exact Nat.add_lt_add_left hlt _

/-- Runs until there is nothing left to do, and tells what was done. -/
def run (host : Host σ) (w : Worker σ) : List Activity × Worker σ :=
  match _h : w.step host with
  | (none, w) => ([], w)
  | (some a, w) =>
    let (rest, w) := w.run host
    (a :: rest, w)
termination_by w.workload
decreasing_by exact workload_step _h

/-- Lets time pass. A pending set that becomes due in it, its end included, is flushed at the
moment at which it is due. -/
def sleep (host : Host σ) (w : Worker σ) (duration : Nat) : List Activity × Worker σ :=
  let stop := w.now + duration
  let (done, w) := w.run host
  let (atDeadline, w) := match w.deadline with
    | some due => if due ≤ stop then { w with now := max w.now due }.run host else ([], w)
    | none => ([], w)
  let (after, w) := { w with now := stop }.run host
  (done ++ atDeadline ++ after, w)

/-- Puts a question to a worker and runs it; a worker that has ended does not answer. -/
def ask (host : Host σ) (w : Worker σ) (c : Command) : Option Reply × Worker σ :=
  let (done, w) := { w with commands := w.commands ++ [c] }.run host
  let replies := done.filterMap fun
    | .answered _ reply => some reply
    | _ => none
  (replies.getLast?, w)

end Worker

end DirWatch
