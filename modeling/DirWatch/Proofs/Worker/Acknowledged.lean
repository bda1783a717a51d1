import DirWatch.Proofs.Engine.Explained
import DirWatch.Proofs.Watcher
import DirWatch.Proofs.Worker.PendingOrder

/-! # What the answer to a rescan says

A worker answers a rescan whatever came of its passes. If it goes on afterwards, all of them were
completed and what they changed was told. If not, a fatal failure ended one of them and the worker
with it: the listener was told, and no later question is answered. -/

namespace DirWatch

variable {σ : Type}

namespace Worker

variable {host : Host σ} {w u v : Worker σ}

/-! ## The steps of a run -/

/-- The states that a run goes through. -/
inductive Visits (host : Host σ) : Worker σ → Worker σ → Prop
  | here (w : Worker σ) : Visits host w w
  | later {w u v : Worker σ} {a : Activity} (step : w.step host = (some a, u))
      (rest : Visits host u v) : Visits host w v

/-- What was done in a run was done in one of its steps, after which the run went on. -/
theorem exists_step_of_mem_run {a : Activity} (h : a ∈ (w.run host).1) :
    ∃ u v, Visits host w u ∧ u.step host = (some a, v) ∧ (w.run host).2 = (v.run host).2 := by
  fun_induction Worker.run host w with
  | case1 w v hv => cases h
  | case2 w b t ht rest u hu ih =>
      rcases List.mem_cons.1 h with rfl | h
      · exact ⟨w, t, .here w, ht, by rw [hu]⟩
      · rw [hu] at ih
        obtain ⟨x, y, hx, hy, hrun⟩ := ih h
        exact ⟨x, y, .later ht hx, hy, hrun⟩

/-- The worker that has been asked a question. -/
def asked (w : Worker σ) (c : Command) : Worker σ := { w with commands := w.commands ++ [c] }

/-- An answer is given in a step. -/
theorem exists_step_of_ask {c : Command} {reply : Reply} (h : (w.ask host c).1 = some reply) :
    ∃ c' u v, Visits host (w.asked c) u ∧ u.step host = (some (.answered c' reply), v) ∧
      (w.ask host c).2 = (v.run host).2 := by
  have hmem := List.mem_of_getLast? h
  obtain ⟨a, ha, hreply⟩ := List.mem_filterMap.1 hmem
  cases a with
  | answered c' reply' =>
      obtain rfl := Option.some.inj hreply
      obtain ⟨u, v, hu, hv, hrun⟩ := exists_step_of_mem_run ha
      exact ⟨c', u, v, hu, hv, hrun⟩
  | cancelled | flushed | received => cases hreply

@[simp] theorem commands_conclude (result : Except Error Unit) (w : Worker σ) :
    (w.conclude result).commands = w.commands := by
  cases result <;> rfl

/-- Without a question nothing is answered. -/
theorem commands_step (h : w.commands = []) (host : Host σ) :
    (w.step host).2.commands = [] ∧ ∀ c reply, (w.step host).1 ≠ some (.answered c reply) := by
  have hs := steps_step host w
  generalize w.step host = r at hs
  cases hs with
  | ended | cancelled | blocked => exact ⟨h, by simp⟩
  | answered running commands =>
      rw [h] at commands
      cases commands
  | @flushed result v running flush =>
      have hsame := SameInput.flush host w.awake
      rw [flush] at hsame
      exact ⟨(commands_conclude result v).trans (hsame.2.1.trans h), by simp⟩
  | closed => exact ⟨h, by simp⟩
  | @received e queue result v running reception handle =>
      have hsame := SameInput.handle { w.awake with queue } e
      rw [handle] at hsame
      exact ⟨(commands_conclude result v).trans (hsame.2.1.trans h), by simp⟩

theorem not_answered_run (h : w.commands = []) (c : Command) (reply : Reply) :
    .answered c reply ∉ (w.run host).1 := by
  fun_induction Worker.run host w with
  | case1 w v hv => simp
  | case2 w a t ht rest u hu ih =>
      obtain ⟨hcommands, hnone⟩ := commands_step h host
      rw [ht] at hcommands hnone
      rw [hu] at ih
      rw [List.mem_cons, not_or]
      exact ⟨fun he => hnone c reply (congrArg some he.symm), ih hcommands⟩

/-! ## Rescans -/

/-- A rescan is carried out, or a fatal failure ends it and the worker. -/
inductive Rescans (host : Host σ) (w v : Worker σ) : Prop
  | carried {news : List Notification} (carried : Engine.Carried host w.batch w.engine v.engine news)
      (running : v.isRunning = true)
  | aborted {before after : List Path} {p : Path} {s t : Engine σ} {e : Error}
      {news : List Notification} (split : w.batch = before ++ p :: after)
      (carried : Engine.Carried host before w.engine s news)
      (failure : s.diff host p = (.error e, t)) (fatal : e.isFatal = true)
      (told : v.registry = t.registry.record (.notified (.failed t.registry.root e)))
      (ended : v.isRunning = false)

/-- A rescan is answered in the same way in both cases. -/
theorem rescans_of_answered {reply : Reply} (h : u.step host = (some (.answered .rescan reply), v)) :
    reply = .rescanned ∧ u.Rescans host v := by
  have ha := congrArg Prod.fst h
  have hflushes := flushes_of_rescan ha
  rw [h] at hflushes
  refine ⟨(step_of_rescan ha).2.1, ?_⟩
  cases hflushes with
  | completed passes running =>
      obtain ⟨news, hnews⟩ := passes.carried
      exact .carried hnews running
  | stopped split passes failure fatal told ended =>
      obtain ⟨news, hnews⟩ := passes.carried
      exact .aborted split hnews failure fatal told ended

theorem command_of_rescanned {c : Command} (h : (u.step host).1 = some (.answered c .rescanned)) :
    c = .rescan := by
  have hs := steps_step host u
  generalize u.step host = r at h hs
  cases hs with
  | @answered c' rest reply result v running commands answer =>
      obtain ⟨rfl, rfl⟩ : c' = c ∧ reply = .rescanned := by simpa using h
      cases c' with
      | stats | snapshot => cases (Prod.mk.inj answer).1
      | rescan => rfl
  | _ => simp at h

theorem step_asked (running : w.isRunning = true) (notCancelled : w.isCancelled = false)
    (commands : w.commands = []) (host : Host σ) :
    ∃ v, (w.asked .rescan).step host = (some (.answered .rescan .rescanned), v) ∧
      v.commands = [] := by
  have hcommands : (w.asked .rescan).commands = [.rescan] := by rw [asked, commands]; rfl
  unfold step
  rw [if_neg (by simp [asked, running]), if_neg (by simp [asked, notCancelled])]
  split
  · next c rest hc =>
      obtain ⟨rfl, rfl⟩ := List.cons.inj (hcommands.symm.trans hc)
      have hsame := SameInput.answer host
        { w.asked .rescan with commands := [], isBlocked := false } .rescan
      refine ⟨_, rfl, ?_⟩
      exact (commands_conclude _ _).trans hsame.2.1
  · next hc => rw [hcommands] at hc; cases hc

/-- A worker that runs and has no other question answers a rescan. -/
theorem ask_rescan (running : w.isRunning = true) (notCancelled : w.isCancelled = false)
    (commands : w.commands = []) (host : Host σ) : (w.ask host .rescan).1 = some .rescanned := by
  obtain ⟨v, hv, hcommands⟩ := step_asked running notCancelled commands host
  unfold ask
  dsimp only
  rw [← asked, run_eq_cons hv, List.filterMap_cons, List.filterMap_eq_nil_iff.2]
  · rfl
  · intro a ha
    cases a with
    | answered c reply => exact absurd ha (not_answered_run hcommands c reply)
    | cancelled | flushed | received => rfl

end Worker

namespace Watcher

variable {w : Watcher σ} {platform : Platform σ}

/-- A rescan of a watcher was answered with success: the worker `u` took the question and went on
as `v`. -/
structure Acknowledged (platform : Platform σ) (w : Watcher σ) (u v : Worker σ) : Prop where
  taken : ∃ worker, w.state = .running worker ∧
    Worker.Visits platform.toHost (worker.asked .rescan) u
  answered : u.step platform.toHost = (some (.answered .rescan .rescanned), v)
  rescans : u.Rescans platform.toHost v
  /-- If the watcher still runs, then the rescan was carried out. -/
  carried : (w.ask platform .rescan).2.isRunning = true →
    ∃ news, Engine.Carried platform.toHost u.batch u.engine v.engine news
  /-- If the rescan ended the worker, then no later question is answered. -/
  refused : v.isRunning = false → ∀ (platform' : Platform σ) c,
    ((w.ask platform .rescan).2.ask platform' c).1 =
      .error (.watcher "Watcher worker has stopped")

theorem ask_of_answer {worker : Worker σ} {c : Command} {reply : Reply}
    (hs : w.state = .running worker) (h : (worker.ask platform.toHost c).1 = some reply) :
    (w.ask platform c).1 = .ok reply := by
  unfold ask
  rw [hs]
  dsimp only
  rw [h]

theorem ask_eq_ok {worker : Worker σ} {c : Command} {reply : Reply}
    (hs : w.state = .running worker) (h : (w.ask platform c).1 = .ok reply) :
    (worker.ask platform.toHost c).1 = some reply ∧
      (w.ask platform c).2 = { w with state := .running (worker.ask platform.toHost c).2 } := by
  unfold ask at h ⊢
  rw [hs] at h ⊢
  dsimp only at h ⊢
  cases ha : (worker.ask platform.toHost c).1 with
  | none =>
      rw [ha] at h
      cases h
  | some reply' =>
      rw [ha] at h
      exact ⟨congrArg some (Except.ok.inj h), rfl⟩

theorem exists_acknowledged (h : (w.ask platform .rescan).1 = .ok .rescanned) :
    ∃ u v, w.Acknowledged platform u v := by
  cases hs : w.state with
  | idle | stopped =>
      rw [ask_of_not_running (by simp [hs])] at h
      cases h
  | running worker =>
      obtain ⟨hanswer, hafter⟩ := ask_eq_ok hs h
      obtain ⟨c, u, v, hu, hv, hrun⟩ := Worker.exists_step_of_ask hanswer
      obtain rfl := Worker.command_of_rescanned (congrArg Prod.fst hv)
      have hrescans := (Worker.rescans_of_answered hv).2
      rw [hrun] at hafter
      refine ⟨u, v, ⟨worker, hs, hu⟩, hv, hrescans, ?_, ?_⟩
      · intro hr
        rw [hafter] at hr
        have hrunning : v.isRunning = true := Worker.isRunning_run hr
        cases hrescans with
        | carried carried => exact ⟨_, carried⟩
        | aborted split carried failure fatal told ended =>
            rw [hrunning] at ended
            cases ended
      · intro hended platform' c
        rw [hafter, Worker.run_of_none (Worker.step_of_ended hended)]
        exact congrArg Prod.fst (ask_of_ended rfl hended platform' c)

/-- A rescan that is answered with success was carried out as long as the watcher still runs
afterwards: every pass was completed, and what it changed was told. The answer alone does not tell:
a rescan that a fatal failure has ended is answered in the same way. -/
theorem rescan_acknowledged (platform : Platform σ) :
    (∀ (u v : Worker σ) reply, u.step platform.toHost = (some (.answered .rescan reply), v) →
      reply = .rescanned ∧ u.Rescans platform.toHost v) ∧
    ∀ w : Watcher σ,
      ((w.ask platform .rescan).1 = .ok .rescanned → ∃ u v, w.Acknowledged platform u v) ∧
      ∀ worker, w.state = .running worker → worker.isRunning = true →
        worker.isCancelled = false → worker.commands = [] →
        (w.ask platform .rescan).1 = .ok .rescanned := by
  refine ⟨fun u v reply h => Worker.rescans_of_answered h, fun w => ⟨exists_acknowledged, ?_⟩⟩
  intro worker hs running notCancelled commands
  exact ask_of_answer hs (Worker.ask_rescan running notCancelled commands platform.toHost)

/-- The small tree, with or without a watch to spare. -/
def shelfPlatform (spare : Bool) : Platform Unit where
  toHost := Engine.shelf spare
  openService _ s := (.ok .native, s)

/-- A worker that registered its root while it was empty. -/
def emptyWorker : Worker Unit := .start Engine.emptyRoot.registry (.new 1) .native {}

def emptyWatcher : Watcher Unit where
  root := .ofString "/r"
  config := {}
  filter := {}
  state := .running emptyWorker

theorem isRunning_rescan_shelf :
    ((emptyWorker.asked .rescan).run (Engine.shelf true)).2.isRunning = true := by
  have hstep : (emptyWorker.asked .rescan).step (Engine.shelf true) =
      (some (.answered .rescan .rescanned),
        ((emptyWorker.asked .rescan).step (Engine.shelf true)).2) :=
    Prod.ext (by decide +kernel) rfl
  rw [Worker.run_of_some hstep, Worker.run_of_none (Prod.ext (by decide +kernel) rfl)]
  decide +kernel

/-- With a watch to spare the rescan is carried out, and the watcher runs on. -/
theorem rescan_acknowledged_shelf :
    let asked := emptyWatcher.ask (shelfPlatform true) .rescan
    asked.1 = .ok .rescanned ∧ asked.2.isRunning = true ∧
      ∃ u v news, emptyWatcher.Acknowledged (shelfPlatform true) u v ∧
        Engine.Carried (Engine.shelf true) u.batch u.engine v.engine news := by
  intro asked
  have hw := (rescan_acknowledged (shelfPlatform true)).2 emptyWatcher
  have hok : asked.1 = .ok .rescanned := hw.2 emptyWorker rfl rfl rfl rfl
  have hrunning : asked.2.isRunning = true := by
    rw [(ask_eq_ok rfl hok).2]
    exact isRunning_rescan_shelf
  obtain ⟨u, v, h⟩ := hw.1 hok
  obtain ⟨news, hnews⟩ := h.carried hrunning
  exact ⟨hok, hrunning, u, v, news, h, hnews⟩

/-- Without a watch to spare, the pass over the root fails, but the rescan is answered in the same
way. -/
theorem acknowledged_though_aborted :
    let root := Path.ofString "/r"
    emptyWatcher.state = .running emptyWorker ∧
      (emptyWatcher.ask (shelfPlatform false) .rescan).1 = .ok .rescanned ∧
      emptyWorker.batch = [root] ∧ emptyWorker.registry.contains root = true ∧
      (emptyWorker.engine.diff (Engine.shelf false) root).1 =
        .error (.watchService "no watch left") := by
  intro root
  have hanswer : (emptyWorker.ask (Engine.shelf false) .rescan).1 = some .rescanned :=
    Worker.ask_rescan rfl rfl rfl _
  exact ⟨rfl, ask_of_answer rfl hanswer, by decide +kernel, by decide +kernel, by decide +kernel⟩

end Watcher

end DirWatch
