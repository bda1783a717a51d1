import DirWatch.Proofs.Worker.Observed
import DirWatch.Proofs.Worker.Telling
import DirWatch.Watcher

/-! # The life of a watcher

A watcher is idle, then it runs, and then it is stopped. What it tells in its life is that it has
started, changes, and at most one failure, however it is called, whatever its worker receives and
whatever the machine answers. -/

namespace DirWatch

variable {σ : Type}

/-! ## The first walk -/

namespace Registry

variable {host : Host σ}

namespace Quiet

variable {r r' : Registry σ}

theorem cancelAll (h : r.Quiet r') : r.Quiet (r'.cancelAll host).2 :=
  cancelAll_keeps (fun _ h => h) (fun _ p h => h.unwatch p) h

/-- The first walk tells nothing, also when it fails. -/
theorem registerTree (r : Registry σ) (t : Traversal σ) : r.Quiet (r.registerTree host t).2 :=
  registerTree_keeps_of_yields t.yields_true (fun _ _ h => h) (fun v _ h _ => h.register v.path)
    (fun _ h => h.cancelAll) ⟨rfl, rfl⟩

end Quiet

end Registry

/-- A worker that was just started has nothing to do. -/
theorem Worker.run_start (host : Host σ) (r : Registry σ) (capacity : Nat) (backend : Backend)
    (config : EngineConfig) :
    let w := Worker.start r (.new capacity) backend config
    w.run host = ([], { w with isBlocked := true }) :=
  run_of_none rfl

namespace Watcher

/-! ## Calls -/

/-- What the listener of a watcher was told, in order. -/
def told (w : Watcher σ) : List Notification := w.journal.filterMap Action.notification?

variable {w v : Watcher σ}

theorem told_idle {machine : σ} {journal : List Action} (h : w.state = .idle machine journal) :
    w.told = journal.filterMap Action.notification? := by
  rw [told, Watcher.journal, h]

theorem told_running {worker : Worker σ} (h : w.state = .running worker) :
    w.told = worker.registry.notifications := by
  rw [told, Watcher.journal, h]
  rfl

/-- What a watcher with another worker was told is what that worker has written down. -/
theorem told_with (w : Watcher σ) (worker : Worker σ) :
    ({ w with state := .running worker } : Watcher σ).told = worker.registry.notifications := rfl

theorem told_stopped {machine : σ} {journal : List Action}
    (h : w.state = .stopped machine journal) :
    w.told = journal.filterMap Action.notification? := by
  rw [told, Watcher.journal, h]

/-- What a start of an idle watcher does: it leaves the watcher idle, or its worker runs; only then
something is told. -/
inductive Starts (w : Watcher σ) (journal : List Action) : Except Error Unit × Watcher σ → Prop
  | failed (e : Error) (machine : σ) {journal' : List Action}
      (quiet : journal'.filterMap Action.notification? = journal.filterMap Action.notification?) :
      Starts w journal (.error e, { w with state := .idle machine journal' })
  | accepted {worker : Worker σ} (root_eq : worker.registry.root = w.root)
      (told : worker.registry.notifications =
        journal.filterMap Action.notification? ++ [.started w.root]) :
      Starts w journal (.ok (), { w with state := .running worker })

theorem starts_start {machine : σ} {journal : List Action} (h : w.state = .idle machine journal)
    (platform : Platform σ) : w.Starts journal (w.start platform) := by
  unfold start
  rw [h]
  dsimp only
  split
  · exact .failed _ _ rfl
  · next backend machine' ho =>
      let r : Registry σ := { root := w.root, filter := w.filter, machine := machine', journal }
      obtain ⟨hroot, hquiet⟩ : r.Quiet (r.registerTree platform.toHost
          (w.initialWalk.traverse platform.toHost machine')).2 := .registerTree r _
      split
      · next e r' he =>
          rw [he] at hquiet
          exact .failed e _ hquiet
      · next r' he =>
          rw [he] at hroot hquiet
          rw [Worker.run_start]
          refine .accepted hroot ?_
          exact (Registry.notifications_record r' _).trans (congrArg (· ++ _) hquiet)

/-- A watcher that is not idle refuses to start, and stays as it is. -/
theorem start_of_not_idle (h : ∀ machine journal, w.state ≠ .idle machine journal)
    (platform : Platform σ) :
    ∃ message, w.start platform = (.error (.invalidInput message), w) := by
  unfold start
  split
  · exact ⟨_, rfl⟩
  · exact ⟨_, rfl⟩
  · next hs => exact absurd hs (h _ _)

theorem ask_of_not_running (h : ∀ worker, w.state ≠ .running worker) (platform : Platform σ)
    (c : Command) : w.ask platform c = (.error (.watcher "Watcher is not running"), w) := by
  unfold ask
  split
  · next hs => exact absurd hs (h _)
  · rfl

/-- A worker that has ended does not answer. -/
theorem ask_of_ended {worker : Worker σ} (hs : w.state = .running worker)
    (h : worker.isRunning = false) (platform : Platform σ) (c : Command) :
    w.ask platform c = (.error (.watcher "Watcher worker has stopped"),
      { w with state := .running { worker with commands := worker.commands ++ [c] } }) := by
  have hask : worker.ask platform.toHost c =
      (none, { worker with commands := worker.commands ++ [c] }) := by
    let asked := { worker with commands := worker.commands ++ [c] }
    have hended : asked.isRunning = false := h
    rw [Worker.ask, Worker.run_of_none (Worker.step_of_ended hended)]
    rfl
  unfold ask
  rw [hs]
  dsimp only
  rw [hask]

/-! ## Lives -/

/-- The lives of a watcher, each with the number of the starts that were accepted and whether it was
shut down: it is called, and in between things happen around its worker, its worker takes steps or
breaks off in the middle of one, time passes, and the machine changes. -/
inductive Life (first : Watcher σ) : Watcher σ → Nat → Bool → Prop
  | new : Life first first 0 false
  | start {w : Watcher σ} {n : Nat} {down : Bool} (h : Life first w n down)
      (platform : Platform σ) :
      Life first (w.start platform).2 (n + (w.start platform).1.isOk.toNat) down
  | shutdown {w : Watcher σ} {n : Nat} {down : Bool} (h : Life first w n down)
      (platform : Platform σ) (duration : Nat) :
      Life first (w.shutdownAfter platform duration) n true
  | ask {w : Watcher σ} {n : Nat} {down : Bool} (h : Life first w n down) (platform : Platform σ)
      (c : Command) : Life first (w.ask platform c).2 n down
  | around {w : Watcher σ} {n : Nat} {down : Bool} (h : Life first w n down)
      {worker worker' : Worker σ} (running : w.state = .running worker)
      (change : worker.Outside worker') : Life first { w with state := .running worker' } n down
  | work {w : Watcher σ} {n : Nat} {down : Bool} (h : Life first w n down) {worker : Worker σ}
      (running : w.state = .running worker) (host : Host σ) :
      Life first { w with state := .running (worker.step host).2 } n down
  | breakOff {w : Watcher σ} {n : Nat} {down : Bool} (h : Life first w n down) {worker : Worker σ}
      (running : w.state = .running worker) (host : Host σ) (machine : σ) {journal : List Action}
      (before : worker.registry.journal <+: journal)
      (after : journal <+: (worker.step host).2.registry.journal) :
      Life first { w with state := .running (worker.breakOff machine journal) } n down
  | tick {w : Watcher σ} {n : Nat} {down : Bool} (h : Life first w n down) {worker : Worker σ}
      (running : w.state = .running worker) (duration : Nat) :
      Life first { w with state := .running { worker with now := worker.now + duration } } n down
  | change {w : Watcher σ} {n : Nat} {down : Bool} (h : Life first w n down) (f : σ → σ) :
      Life first (w.mapMachine f) n down

/-- What a watcher of a root may have told when some starts were accepted: nothing without one, and
after one that it has started, then changes, and then perhaps a failure. -/
inductive Stream (root : Path) : Nat → List Notification → Prop
  | silent : Stream root 0 []
  | changes (cs : List Change) : Stream root 1 (.started root :: cs.map .changed)
  | failed (cs : List Change) (e : Error) :
      Stream root 1 (.started root :: cs.map .changed ++ [.failed root e])

/-- Where a watcher of a root stands in its life. -/
inductive Stage (root : Path) : WatcherState σ → Nat → Bool → Prop
  | idle (machine : σ) {journal : List Action}
      (silent : journal.filterMap Action.notification? = []) :
      Stage root (.idle machine journal) 0 false
  | running {worker : Worker σ} (tells : worker.Tells root [.started root]) :
      Stage root (.running worker) 1 false
  | stopped (machine : σ) {journal : List Action} {n : Nat}
      (stream : Stream root n (journal.filterMap Action.notification?)) :
      Stage root (.stopped machine journal) n true

theorem Stream.of_tells {root : Path} {worker : Worker σ}
    (h : worker.Tells root [.started root]) : Stream root 1 worker.registry.notifications := by
  rcases h with ⟨-, cs, hcs⟩ | ⟨-, -, cs, e, hcs⟩ <;> rw [hcs]
  · exact .changes cs
  · exact .failed cs e

theorem Stage.stream {root : Path} {n : Nat} {down : Bool} (h : Stage root w.state n down) :
    Stream root n w.told := by
  generalize hs : w.state = state at h
  cases h with
  | idle machine silent =>
      rw [told_idle hs, silent]
      exact .silent
  | running tells =>
      rw [told_running hs]
      exact .of_tells tells
  | stopped machine stream => rwa [told_stopped hs]

/-- After an accepted start or a shutdown a watcher is not idle. -/
theorem Stage.not_idle {root : Path} {n : Nat} {down : Bool} (h : Stage root w.state n down)
    (hn : 0 < n ∨ down = true) (machine : σ) (journal : List Action) :
    w.state ≠ .idle machine journal := by
  intro hs
  rw [hs] at h
  cases h
  simp at hn

/-- A shutdown of a running watcher leaves what its worker leaves, which ends in time or takes its
last step. -/
theorem shutdownAfter_running {worker : Worker σ} (h : w.state = .running worker)
    (platform : Platform σ) (duration : Nat) :
    ∃ last machine journal,
      (last = ({ worker with isCancelled := true }.run platform.toHost).2 ∨
        last = (worker.step platform.toHost).2) ∧
      (w.shutdownAfter platform duration).state = .stopped machine journal ∧
      journal.filterMap Action.notification? = last.registry.notifications := by
  unfold shutdownAfter
  rw [h]
  dsimp only
  split
  · exact ⟨_, _, _, .inr rfl, rfl, rfl⟩
  split
  · exact ⟨_, _, _, .inl rfl, rfl, rfl⟩
  · exact ⟨_, _, _, .inl rfl, rfl, (Registry.Quiet.cancelAll ⟨rfl, rfl⟩).2⟩

namespace Stage

variable {root : Path} {n : Nat} {down : Bool}

theorem start (h : Stage root w.state n down) (hroot : w.root = root) (platform : Platform σ) :
    (w.start platform).2.root = root ∧
      Stage root (w.start platform).2.state (n + (w.start platform).1.isOk.toNat) down := by
  generalize hs : w.state = state at h
  cases h with
  | @idle machine journal silent =>
      have hstart := starts_start hs platform
      generalize w.start platform = started at hstart
      cases hstart with
      | failed e machine quiet => exact ⟨hroot, .idle machine (quiet.trans silent)⟩
      | accepted root_eq told =>
          refine ⟨hroot, .running (.inl ⟨root_eq.trans hroot, [], ?_⟩)⟩
          rw [told, silent, hroot]
          rfl
  | running tells =>
      obtain ⟨message, hm⟩ := start_of_not_idle (w := w) (by simp [hs]) platform
      rw [hm, hs]
      exact ⟨hroot, .running tells⟩
  | stopped machine stream =>
      obtain ⟨message, hm⟩ := start_of_not_idle (w := w) (by simp [hs]) platform
      rw [hm, hs]
      exact ⟨hroot, .stopped machine stream⟩

theorem shutdownAfter (h : Stage root w.state n down) (platform : Platform σ) (duration : Nat) :
    Stage root (w.shutdownAfter platform duration).state n true := by
  generalize hs : w.state = state at h
  cases h with
  | idle machine silent =>
      unfold shutdownAfter
      rw [hs]
      exact .stopped machine (silent ▸ .silent)
  | running tells =>
      obtain ⟨last, machine, journal, hlast, hstate, htold⟩ :=
        shutdownAfter_running hs platform duration
      rw [hstate]
      refine .stopped machine ?_
      rw [htold]
      rcases hlast with rfl | rfl
      · exact .of_tells ((tells.outside .cancel).run platform.toHost)
      · exact .of_tells (tells.step platform.toHost)
  | stopped machine stream =>
      unfold shutdownAfter
      rw [hs]
      exact .stopped machine stream

theorem ask (h : Stage root w.state n down) (hroot : w.root = root) (platform : Platform σ)
    (c : Command) :
    (w.ask platform c).2.root = root ∧ Stage root (w.ask platform c).2.state n down := by
  generalize hs : w.state = state at h
  cases h with
  | idle machine silent =>
      rw [ask_of_not_running (by simp [hs]), hs]
      exact ⟨hroot, .idle machine silent⟩
  | @running worker tells =>
      have ht := tells.ask platform.toHost c
      unfold Watcher.ask
      rw [hs]
      dsimp only
      split <;> exact ⟨hroot, .running ht⟩
  | stopped machine stream =>
      rw [ask_of_not_running (by simp [hs]), hs]
      exact ⟨hroot, .stopped machine stream⟩

theorem running_of (h : Stage root w.state n down) {worker worker' : Worker σ}
    (hs : w.state = .running worker)
    (htells : worker.Tells root [.started root] → worker'.Tells root [.started root]) :
    Stage root (.running worker') n down := by
  rw [hs] at h
  cases h with
  | running tells => exact .running (htells tells)

theorem mapMachine (h : Stage root w.state n down) (f : σ → σ) :
    Stage root (w.mapMachine f).state n down := by
  unfold Watcher.mapMachine
  generalize w.state = state at h
  cases h with
  | idle machine silent => exact .idle _ silent
  | running tells => exact .running (tells.outside (.change _))
  | stopped machine stream => exact .stopped _ stream

/-- Every event of a life leads from one stage to another. -/
theorem life {m : Nat} {later : Bool} (h : Stage root w.state n down) (hroot : w.root = root)
    (hl : w.Life v m later) : v.root = root ∧ Stage root v.state (n + m) (down || later) := by
  induction hl with
  | new =>
      rw [Bool.or_false]
      exact ⟨hroot, h⟩
  | start hl platform ih =>
      rw [← Nat.add_assoc]
      exact ih.2.start ih.1 platform
  | shutdown hl platform duration ih =>
      rw [Bool.or_true]
      exact ⟨ih.1, ih.2.shutdownAfter platform duration⟩
  | ask hl platform c ih => exact ih.2.ask ih.1 platform c
  | around hl running change ih => exact ⟨ih.1, ih.2.running_of running (·.outside change)⟩
  | work hl running host ih => exact ⟨ih.1, ih.2.running_of running (·.step host)⟩
  | breakOff hl running host machine before after ih =>
      exact ⟨ih.1, ih.2.running_of running (·.breakOff host machine before after)⟩
  | tick hl running duration ih => exact ⟨ih.1, ih.2.running_of running id⟩
  | change hl f ih => exact ⟨ih.1, ih.2.mapMachine f⟩

end Stage

/-! ## What was told stays told -/

theorem prefix_start (w : Watcher σ) (platform : Platform σ) :
    w.told <+: (w.start platform).2.told := by
  by_cases hidle : ∃ machine journal, w.state = .idle machine journal
  · obtain ⟨machine, journal, hs⟩ := hidle
    have hstart := starts_start hs platform
    rw [told_idle hs]
    generalize w.start platform = started at hstart
    cases hstart with
    | failed e machine quiet =>
        rw [told_idle rfl, quiet]
    | accepted root_eq told =>
        rw [told_with, told]
        exact List.prefix_append _ _
  · obtain ⟨message, hm⟩ := start_of_not_idle (fun m j hs => hidle ⟨m, j, hs⟩) platform
    rw [hm]

theorem prefix_shutdownAfter (w : Watcher σ) (platform : Platform σ) (duration : Nat) :
    w.told <+: (w.shutdownAfter platform duration).told := by
  cases hs : w.state with
  | idle machine journal =>
      have hstate : (w.shutdownAfter platform duration).state = .stopped machine journal := by
        unfold shutdownAfter
        rw [hs]
      rw [told_idle hs, told_stopped hstate]
  | running worker =>
      obtain ⟨last, machine, journal, hlast, hstate, htold⟩ :=
        shutdownAfter_running hs platform duration
      rw [told_running hs, told_stopped hstate, htold]
      rcases hlast with rfl | rfl
      · exact (((Worker.Tells.refl worker).outside .cancel).run platform.toHost).isPrefix
      · exact ((Worker.Tells.refl worker).step platform.toHost).isPrefix
  | stopped machine journal =>
      have hstate : (w.shutdownAfter platform duration).state = .stopped machine journal := by
        unfold shutdownAfter
        rw [hs]
      rw [told_stopped hs, told_stopped hstate]

theorem prefix_ask (w : Watcher σ) (platform : Platform σ) (c : Command) :
    w.told <+: (w.ask platform c).2.told := by
  cases hs : w.state with
  | idle | stopped => rw [ask_of_not_running (by simp [hs])]
  | running worker =>
      have hstate : (w.ask platform c).2.state = .running (worker.ask platform.toHost c).2 := by
        unfold ask
        rw [hs]
        dsimp only
        split <;> rfl
      rw [told_running hs, told_running hstate]
      exact ((Worker.Tells.refl worker).ask platform.toHost c).isPrefix

theorem told_mapMachine (w : Watcher σ) (f : σ → σ) : (w.mapMachine f).told = w.told := by
  unfold told Watcher.journal mapMachine
  cases w.state <;> rfl

theorem prefix_life {n : Nat} {down : Bool} (h : w.Life v n down) : w.told <+: v.told := by
  induction h with
  | new => exact List.prefix_rfl
  | start h platform ih => exact ih.trans (prefix_start _ platform)
  | shutdown h platform duration ih => exact ih.trans (prefix_shutdownAfter _ platform duration)
  | ask h platform c ih => exact ih.trans (prefix_ask _ platform c)
  | @around u n down h worker worker' running change ih =>
      rw [told_running running] at ih
      rw [told_with]
      exact ih.trans ((Worker.Tells.refl worker).outside change).isPrefix
  | @work u n down h worker running host ih =>
      rw [told_running running] at ih
      rw [told_with]
      exact ih.trans ((Worker.Tells.refl worker).step host).isPrefix
  | breakOff h running host machine before after ih =>
      rw [told_running running] at ih
      rw [told_with]
      exact ih.trans (before.filterMap Action.notification?)
  | tick h running duration ih =>
      rw [told_running running] at ih
      exact ih
  | change h f ih =>
      rw [told_mapMachine]
      exact ih

/-- Nothing follows a failure. -/
theorem Stream.eq_of_prefix {root : Path} {m : Nat} {ns ms : List Notification}
    (h : Stream root m ms) (hp : ns <+: ms) (hf : ∃ e, .failed root e ∈ ns) : ms = ns := by
  obtain ⟨e, he⟩ := hf
  have hnone : ∀ cs : List Change,
      .failed root e ∉ Notification.started root :: cs.map .changed := by simp
  cases h with
  | silent => exact (List.prefix_nil.1 hp).symm
  | changes cs => exact absurd (hp.subset he) (hnone cs)
  | failed cs e' =>
      rcases List.prefix_concat_iff.1 hp with heq | hshort
      · exact heq.symm
      · exact absurd (hshort.subset he) (hnone cs)

/-! ## The stream of a watcher -/

theorem state_of_withFilter {platform : Platform σ} {root : Path} {config : EngineConfig}
    {filter : Filter} {machine : σ} (h : withFilter platform root config filter machine = .ok w) :
    ∃ machine', w.state = .idle machine' [] := by
  unfold withFilter at h
  split at h
  · cases h
  split at h
  · cases h
  split at h
  · split at h
    · obtain rfl := Except.ok.inj h
      exact ⟨_, rfl⟩
    · cases h
  · cases h

/-- Whatever happens in the life of a watcher, it tells nothing, or that it has started, then
changes and at most one failure, after which nothing follows. It tells that it has started when a
start is accepted, and a start that is not accepted tells nothing; what is there at first is not
told. After an accepted start or a shutdown no start is accepted. Questions to a watcher that is not
running, or whose worker has ended, are refused and change nothing. -/
theorem stream_of_life {platform₀ : Platform σ} {root : Path} {config : EngineConfig}
    {filter : Filter} {machine : σ} {first : Watcher σ}
    (hfirst : withFilter platform₀ root config filter machine = .ok first) {n : Nat} {down : Bool}
    (h : first.Life w n down) :
    Stream first.root n w.told ∧
      (∀ platform,
        ((w.start platform).1 = .ok () →
          w.told = [] ∧ (w.start platform).2.told = [.started first.root]) ∧
        ∀ e, (w.start platform).1 = .error e → (w.start platform).2.told = w.told) ∧
      (∀ v m later, w.Life v m later → Stream first.root (n + m) v.told ∧ w.told <+: v.told ∧
        ((∃ e, .failed first.root e ∈ w.told) → v.told = w.told)) ∧
      (0 < n ∨ down = true →
        ∀ platform, ∃ message, w.start platform = (.error (.invalidInput message), w)) ∧
      (∀ platform c, (∀ worker, w.state ≠ .running worker) →
        w.ask platform c = (.error (.watcher "Watcher is not running"), w)) ∧
      ∀ platform c, w.isRunning = false →
        ∃ message, (w.ask platform c).1 = .error (.watcher message) ∧
          (w.ask platform c).2.journal = w.journal ∧ (w.ask platform c).2.machine = w.machine := by
  obtain ⟨machine', hidle⟩ := state_of_withFilter hfirst
  have hbegin : Stage first.root first.state 0 false := by
    rw [hidle]
    exact .idle machine' rfl
  have hw := hbegin.life rfl h
  rw [Nat.zero_add, Bool.false_or] at hw
  obtain ⟨hroot, hstage⟩ := hw
  refine ⟨hstage.stream, ?_, ?_, ?_, fun platform c hs => ask_of_not_running hs platform c, ?_⟩
  · intro platform
    by_cases hs : ∃ machine journal, w.state = .idle machine journal
    · obtain ⟨machine, journal, hs⟩ := hs
      have hsilent : journal.filterMap Action.notification? = [] := by
        rw [hs] at hstage
        cases hstage with
        | idle machine silent => exact silent
      have hstart := starts_start hs platform
      rw [told_idle hs, hsilent]
      generalize w.start platform = started at hstart
      cases hstart with
      | failed e machine quiet =>
          rw [told_idle rfl, quiet]
          exact ⟨nofun, fun _ _ => hsilent⟩
      | accepted root_eq told =>
          rw [told_with, told, hsilent, hroot]
          exact ⟨fun _ => ⟨rfl, rfl⟩, nofun⟩
    · obtain ⟨message, hm⟩ := start_of_not_idle (fun m j hj => hs ⟨m, j, hj⟩) platform
      rw [hm]
      exact ⟨nofun, fun _ _ => rfl⟩
  · intro v m later hl
    have hv := (hstage.life hroot hl).2.stream
    exact ⟨hv, prefix_life hl, hv.eq_of_prefix (prefix_life hl)⟩
  · exact fun hn platform => start_of_not_idle (hstage.not_idle hn) platform
  · intro platform c hr
    cases hs : w.state with
    | idle | stopped =>
        rw [ask_of_not_running (by simp [hs])]
        exact ⟨_, rfl, rfl, rfl⟩
    | running worker =>
        rw [isRunning, hs] at hr
        rw [ask_of_ended hs hr, Watcher.journal, Watcher.journal, Watcher.machine, Watcher.machine,
          hs]
        exact ⟨_, rfl, rfl, rfl⟩

/-- The tree with one file, and a native service. -/
def cabinetPlatform : Platform Unit where
  toHost := Worker.cabinet
  openService _ s := (.ok .native, s)

/-- A watcher that is started tells so, and once it was shut down it cannot be started again. -/
theorem stream_of_life_cabinet :
    let root := Path.ofString "/r"
    let first : Watcher Unit := { root, config := {}, filter := {}, state := .idle () [] }
    let running := (first.start cabinetPlatform).2
    let stopped := running.shutdown cabinetPlatform
    withFilter cabinetPlatform root {} {} () = .ok first ∧ running.told = [.started root] ∧
      ∃ message, stopped.start cabinetPlatform = (.error (.invalidInput message), stopped) := by
  intro root first running stopped
  have hfirst : withFilter cabinetPlatform root {} {} () = .ok first := by rfl
  have hok : (first.start cabinetPlatform).1 = .ok () := by
    have hstarts : (first.start cabinetPlatform).1.isOk = true := by decide +kernel
    cases hs : (first.start cabinetPlatform).1 with
    | ok => rfl
    | error e =>
        rw [hs] at hstarts
        cases hstarts
  have hnew := stream_of_life hfirst .new
  have hdown := stream_of_life hfirst ((Life.new.start cabinetPlatform).shutdown cabinetPlatform 0)
  exact ⟨hfirst, ((hnew.2.1 cabinetPlatform).1 hok).2, hdown.2.2.2.1 (.inr rfl) cabinetPlatform⟩

end Watcher

end DirWatch
