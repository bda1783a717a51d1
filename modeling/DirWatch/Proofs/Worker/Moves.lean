import DirWatch.Proofs.EventQueue
import DirWatch.Proofs.Worker.Rescan
import DirWatch.Worker.Run

/-! # Runs of a worker

A worker takes its steps while events are delivered, questions are put, time passes and the machine
changes. What a step can do is told once, case by case. -/

namespace DirWatch

variable {σ : Type}

/-- What can happen to a worker and around it. -/
inductive Move (σ : Type) where
  | deliver (d : Delivery)
  | work (host : Host σ)
  | ask (c : Command)
  | tick (duration : Nat)
  | change (machine : σ)

namespace Worker

def perform (w : Worker σ) : Move σ → Worker σ
  | .deliver d => { w with queue := w.queue.accept d.signal }
  | .work host => (w.step host).2
  | .ask c => { w with commands := w.commands ++ [c] }
  | .tick duration => { w with now := w.now + duration }
  | .change machine =>
    { w with engine := { w.engine with registry := { w.engine.registry with machine } } }

/-- Moves in turn. -/
def performAll (moves : List (Move σ)) (w : Worker σ) : Worker σ := moves.foldl perform w

theorem performAll_append (moves more : List (Move σ)) (w : Worker σ) :
    w.performAll (moves ++ more) = (w.performAll moves).performAll more := List.foldl_append

/-- The worker as it turns to what it does next. -/
def awake (w : Worker σ) : Worker σ := { w with isBlocked := false }

/-- What a step does: nothing once the worker has ended, and else the most urgent thing. -/
inductive Steps (host : Host σ) (w : Worker σ) : Option Activity × Worker σ → Prop
  | ended (stopped : w.isRunning = false) : Steps host w (none, w)
  | cancelled : Steps host w (some .cancelled, { w with isRunning := false })
  | answered {c : Command} {rest : List Command} {reply : Reply} {result : Except Error Unit}
      {v : Worker σ} (running : w.isRunning = true) (commands : w.commands = c :: rest)
      (answer : { w.awake with commands := rest }.answer host c = (reply, result, v)) :
      Steps host w (some (.answered c reply), v.conclude result)
  | flushed {result : Except Error Unit} {v : Worker σ} (running : w.isRunning = true)
      (flush : w.awake.flush host = (result, v)) : Steps host w (some .flushed, v.conclude result)
  | blocked {queue : EventQueue} (running : w.isRunning = true)
      (reception : w.nextReception = (.blocked, queue)) :
      Steps host w (none, { w with queue, isBlocked := true })
  | closed {queue : EventQueue} (reception : w.nextReception = (.closed, queue)) :
      Steps host w (some (.received .closed),
        { w.awake with queue }.conclude (.error (.watchService "Native event queue closed")))
  | received {e : NativeEvent} {queue : EventQueue} {result : Except Error Unit} {v : Worker σ}
      (running : w.isRunning = true) (reception : w.nextReception = (.event e, queue))
      (handle : { w.awake with queue }.handle e = (result, v)) :
      Steps host w (some (.received (.event e)), v.conclude result)

theorem steps_step (host : Host σ) (w : Worker σ) : Steps host w (w.step host) := by
  unfold step
  split
  · next hr => exact .ended (by simpa using hr)
  next hr =>
  have hr : w.isRunning = true := by simpa using hr
  split
  · exact .cancelled
  split
  · next c rest hc => exact .answered hr hc rfl
  · split
    · exact .flushed hr rfl
    · dsimp only
      split
      · next hb => exact .blocked hr (Prod.ext hb rfl)
      · next hb => exact .closed (Prod.ext hb rfl)
      · next e hb => exact .received hr (Prod.ext hb rfl) rfl

section Conclude

variable (result : Except Error Unit) (w : Worker σ)

@[simp] theorem queue_conclude : (w.conclude result).queue = w.queue := by
  cases result <;> rfl

@[simp] theorem pending_conclude : (w.conclude result).pending = w.pending := by
  cases result <;> rfl

@[simp] theorem isBlocked_conclude : (w.conclude result).isBlocked = w.isBlocked := by
  cases result <;> rfl

end Conclude

/-- A worker that has ended stays so. -/
theorem isRunning_perform {w : Worker σ} {m : Move σ} (h : (w.perform m).isRunning = true) :
    w.isRunning = true := by
  cases m with
  | deliver | ask | tick | change => exact h
  | work host =>
      by_contra hn
      have hs : w.step host = (none, w) := by
        unfold step
        rw [if_pos (by simpa using hn)]
      rw [perform, hs] at h
      exact hn h

theorem isRunning_performAll {moves : List (Move σ)} {w : Worker σ}
    (h : (w.performAll moves).isRunning = true) : w.isRunning = true := by
  induction moves generalizing w with
  | nil => exact h
  | cons m moves ih => exact isRunning_perform (ih h)

/-- A worker goes on only after a success. -/
theorem ok_of_conclude {result : Except Error Unit} {v : Worker σ}
    (h : (v.conclude result).isRunning = true) : result = .ok () ∧ v.conclude result = v := by
  cases result with
  | ok => exact ⟨rfl, rfl⟩
  | error e => cases h

end Worker

end DirWatch
