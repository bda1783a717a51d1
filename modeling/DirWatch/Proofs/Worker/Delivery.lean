import DirWatch.Proofs.Engine.Journal
import DirWatch.Proofs.Worker.Moves

/-! # No delivery is lost

A delivery that concerns a registered directory makes the directory pending once it is received, be
it as an event or, when the queue was full, as a loss. A pending directory stays so until a flush
passes over it. -/

namespace DirWatch

variable {σ : Type} {host : Host σ}

/-! ## What a pass writes down -/

namespace Engine

/-- Passes in turn that do not fail are all written down. -/
theorem began_inTurn {batch : List Path} {s : Engine σ} (hok : (inTurn (diff host) batch s).1 = .ok ())
    {p : Path} (hp : p ∈ batch) :
    ∃ new, (inTurn (diff host) batch s).2.registry.journal = s.registry.journal ++ new ∧
      .began p ∈ new := by
  induction batch generalizing s with
  | nil => cases hp
  | cons q batch ih =>
      have hq := journal_diff host q s
      rw [inTurn] at hok ⊢
      rcases hr : s.diff host q with ⟨_ | _, s'⟩ <;> rw [hr] at hok hq
      · cases hok
      dsimp only at hok hq ⊢
      rcases List.mem_cons.1 hp with rfl | hp
      · obtain ⟨new, hnew⟩ := hq.trans (journal_inTurn host batch s')
        exact ⟨[.began p] ++ new, by rw [← hnew, List.append_assoc], by simp⟩
      · obtain ⟨new, hnew, hmem⟩ := ih hok hp
        obtain ⟨more, hmore⟩ := hq
        refine ⟨[.began q] ++ more ++ new, ?_, List.mem_append_right _ hmem⟩
        rw [hnew, ← hmore]
        simp only [List.append_assoc]

end Engine

namespace Worker

variable {w : Worker σ} {dir : Path}

/-! ## Pending directories -/

theorem pending_mark_self (w : Worker σ) {p : Path} (h : p.same dir = true) :
    (w.mark p).pending.contains dir = true := by
  have hs : dir.same p = true := Path.same_iff.2 (Path.same_iff.1 h).symm
  rw [PendingSet.contains_iff, order_mark]
  split
  · next hc =>
      obtain ⟨q, hq, hpq⟩ := PendingSet.contains_iff.1 hc
      refine ⟨q, hq, Path.same_iff.2 ?_⟩
      rw [← Path.same_iff.1 hpq, Path.same_iff.1 hs]
  · exact ⟨p, List.mem_append_right _ List.mem_cons_self, hs⟩

theorem pending_mark (h : w.pending.contains dir = true) (p : Path) :
    (w.mark p).pending.contains dir = true := by
  obtain ⟨q, hq, hs⟩ := PendingSet.contains_iff.1 h
  rw [PendingSet.contains_iff, order_mark]
  split
  · exact ⟨q, hq, hs⟩
  · exact ⟨q, List.mem_append_left _ hq, hs⟩

/-- Marking a path marks its directory first, if that is registered. -/
theorem markChanged_eq (w : Worker σ) (p : Path) :
    w.markChanged p =
      let v := (p.parent?.filter w.registry.contains).elim w w.mark
      if w.registry.contains p then v.mark p else v := by
  unfold markChanged
  cases p.parent?.filter w.registry.contains <;> rfl

theorem pending_markChanged (h : w.pending.contains dir = true) (p : Path) :
    (w.markChanged p).pending.contains dir = true := by
  have hp : ((p.parent?.filter w.registry.contains).elim w w.mark).pending.contains dir = true := by
    cases p.parent?.filter w.registry.contains with
    | none => exact h
    | some q => exact pending_mark h q
  rw [markChanged_eq]
  dsimp only
  split
  · exact pending_mark hp p
  · exact hp

/-- Activity at a path that touches a registered directory makes it pending. -/
theorem pending_of_touches (hr : w.registry.contains dir = true) {p : Path} (h : p.Touches dir) :
    (w.markChanged p).pending.contains dir = true := by
  have hcongr : ∀ {q : Path}, q.same dir = true → w.registry.contains q = true := by
    intro q hq
    exact (w.registry.directories.contains_congr
      (Path.compare_eq_iff.2 (Path.same_iff.1 hq))).trans hr
  rw [markChanged_eq]
  dsimp only
  rcases h with hp | ⟨q, hq, hs⟩
  · rw [if_pos (hcongr hp)]
    exact pending_mark_self _ hp
  · rw [hq, Option.filter_some, if_pos (hcongr hs)]
    have hm := pending_mark_self w hs
    split
    · exact pending_mark hm p
    · exact hm

theorem registry_markChanged (w : Worker σ) (p : Path) :
    (w.markChanged p).registry = w.registry := by
  rw [markChanged_eq]
  dsimp only
  split <;> cases p.parent?.filter w.registry.contains <;> rfl

theorem registry_markRemoved (w : Worker σ) (p : Path) :
    (w.markRemoved p).registry = w.registry :=
  (registry_markChanged _ p).trans (Engine.registry_markStale w.engine p)

/-- Marking in turn marks what it should on the way, and keeps what is pending. -/
theorem pending_foldl {f : Worker σ → Path → Worker σ}
    (hf : ∀ w p, (f w p).registry = w.registry)
    (hkeep : ∀ (w : Worker σ) p, w.pending.contains dir = true →
      (f w p).pending.contains dir = true)
    (htouch : ∀ (w : Worker σ) p, w.registry.contains dir = true → p.Touches dir →
      (f w p).pending.contains dir = true)
    {paths : List Path} (hr : w.registry.contains dir = true)
    (h : w.pending.contains dir = true ∨ ∃ p ∈ paths, p.Touches dir) :
    (paths.foldl f w).pending.contains dir = true := by
  induction paths generalizing w with
  | nil => exact h.resolve_right (by simp)
  | cons p paths ih =>
      refine ih (by rwa [hf]) ?_
      rcases h with h | ⟨q, hq, ht⟩
      · exact .inl (hkeep w p h)
      · rcases List.mem_cons.1 hq with rfl | hq
        · exact .inl (htouch w q hr ht)
        · exact .inr ⟨q, hq, ht⟩

/-- After a loss every registered directory is pending. -/
theorem pending_markAll (hr : w.registry.contains dir = true) :
    w.markAll.pending.contains dir = true := by
  obtain ⟨k, hk, hc⟩ := OrderedMap.contains_iff.1 hr
  obtain ⟨q, hq, hs⟩ := exists_order_foldl (w := w) hk
  refine PendingSet.contains_iff.2 ⟨q, hq, Path.same_iff.2 ?_⟩
  rw [← Path.same_iff.1 hs, Path.compare_eq_iff.1 hc]

/-- An event that concerns a registered directory makes it pending, and keeps what is pending. -/
theorem pending_handle (hr : w.registry.contains dir = true) {e : NativeEvent}
    (h : w.pending.contains dir = true ∨ e.Concerns dir) :
    (w.handle e).2.pending.contains dir = true := by
  cases e with
  | changed paths =>
      exact pending_foldl (w := { w with notifications := w.notifications + 1 })
        registry_markChanged (fun w p hp => pending_markChanged hp p)
        (fun w p hw ht => pending_of_touches hw ht) hr h
  | removed paths =>
      refine pending_foldl (w := { w with notifications := w.notifications + 1 })
        registry_markRemoved ?_ ?_ hr h
      · exact fun w p hp => pending_markChanged (w := { w with engine := w.engine.markStale p }) hp p
      intro w p hw ht
      refine pending_of_touches ?_ ht
      exact (congrArg (fun r => r.contains dir) (Engine.registry_markStale w.engine p)).trans hw
  | overflow => exact pending_markAll (w := { w with overflows := w.overflows + 1 }) hr
  | failed message => exact h.resolve_right nofun

/-! ## The queue of a worker -/

theorem isBlocked_foldl {f : Worker σ → Path → Worker σ}
    (hf : ∀ w p, (f w p).isBlocked = w.isBlocked) (paths : List Path) (w : Worker σ) :
    (paths.foldl f w).isBlocked = w.isBlocked := by
  induction paths generalizing w with
  | nil => rfl
  | cons p paths ih => exact (ih _).trans (hf w p)

theorem isBlocked_markChanged (w : Worker σ) (p : Path) :
    (w.markChanged p).isBlocked = w.isBlocked := by
  rw [markChanged_eq]
  dsimp only
  split <;> cases p.parent?.filter w.registry.contains <;> rfl

theorem isBlocked_handle (w : Worker σ) (e : NativeEvent) :
    (w.handle e).2.isBlocked = w.isBlocked := by
  cases e with
  | changed paths => exact isBlocked_foldl isBlocked_markChanged paths _
  | removed paths =>
      exact isBlocked_foldl (f := markRemoved) (fun w p => isBlocked_markChanged _ p) paths _
  | overflow => exact isBlocked_foldl (f := mark) (fun _ _ => rfl) _ _
  | failed message => rfl

theorem isBlocked_flush (host : Host σ) (w : Worker σ) :
    (w.flush host).2.isBlocked = w.isBlocked := by
  unfold flush
  dsimp only
  split <;> rfl

theorem isBlocked_answer (host : Host σ) (w : Worker σ) (c : Command) :
    (w.answer host c).2.2.isBlocked = w.isBlocked := by
  cases c with
  | stats | snapshot => rfl
  | rescan => exact (isBlocked_flush host _).trans (isBlocked_foldl (f := mark) (fun _ _ => rfl) _ w)

/-- What a reception leaves behind, and what it finds while something waits. -/
theorem alert_nextReception (h : w.queue.Alert w.isBlocked) :
    w.nextReception.2.Alert false ∧
      (w.nextReception.1 = .blocked → w.nextReception.2.overflowed = false) ∧
      ∀ dir, w.queue.Awaits dir → EventQueue.Serves dir w.nextReception := by
  unfold nextReception
  cases hb : w.isBlocked <;> rw [hb] at h
  · exact ⟨h.receive, EventQueue.overflowed_of_receive, fun _ => EventQueue.serves_receive⟩
  · exact ⟨h.resume, EventQueue.overflowed_of_resume h, fun _ => EventQueue.serves_resume h⟩

/-- The queue of a worker stays alert. -/
theorem alert_perform (h : w.queue.Alert w.isBlocked) (m : Move σ) :
    (w.perform m).queue.Alert (w.perform m).isBlocked := by
  cases m with
  | deliver d => exact h.accept d.signal
  | ask | tick | change => exact h
  | work host =>
      obtain ⟨hrun, hfree, -⟩ := alert_nextReception h
      have hs := steps_step host w
      change (w.step host).2.queue.Alert (w.step host).2.isBlocked
      generalize w.step host = r at hs
      cases hs with
      | ended | cancelled => exact h
      | @answered c rest reply result v running commands answer =>
          have hq := (SameInput.answer host { w.awake with commands := rest } c).1
          have hb := isBlocked_answer host { w.awake with commands := rest } c
          rw [answer] at hq hb
          rw [queue_conclude, isBlocked_conclude, hq, hb]
          exact h.of_running
      | @flushed result v running flush =>
          have hq := (SameInput.flush host w.awake).1
          have hb := isBlocked_flush host w.awake
          rw [flush] at hq hb
          rw [queue_conclude, isBlocked_conclude, hq, hb]
          exact h.of_running
      | @blocked queue running reception =>
          rw [reception] at hrun hfree
          refine ⟨hrun.hasSource, hrun.room, fun _ ho => ?_⟩
          rw [hfree rfl] at ho
          cases ho
      | @closed queue reception =>
          rw [reception] at hrun
          exact hrun
      | @received e queue result v running reception handle =>
          rw [reception] at hrun
          have hq := (SameInput.handle { w.awake with queue } e).1
          have hb := isBlocked_handle { w.awake with queue } e
          rw [handle] at hq hb
          rw [queue_conclude, isBlocked_conclude, hq, hb]
          exact hrun

theorem alert_performAll (h : w.queue.Alert w.isBlocked) (moves : List (Move σ)) :
    (w.performAll moves).queue.Alert (w.performAll moves).isBlocked := by
  induction moves generalizing w with
  | nil => exact h
  | cons m moves ih => exact ih (alert_perform h m)

/-! ## From the delivery to the pending set -/

/-- A step receives an event that concerns a directory, and the directory is pending then. -/
def Receives (dir : Path) (host : Host σ) (w : Worker σ) : Prop :=
  ∃ e, (w.step host).1 = some (.received (.event e)) ∧ e.Concerns dir ∧
    (w.step host).2.pending.contains dir = true

/-- What waits goes on waiting, unless it is received. -/
theorem awaits_perform (ha : w.queue.Alert w.isBlocked) (h : w.queue.Awaits dir)
    (hr : w.registry.contains dir = true) (m : Move σ) :
    (w.perform m).queue.Awaits dir ∨ ∃ host, m = .work host ∧ w.Receives dir host := by
  cases m with
  | deliver d => exact .inl (h.accept ha d.signal)
  | ask | tick | change => exact .inl h
  | work host =>
      obtain ⟨-, -, hserves⟩ := alert_nextReception ha
      obtain ⟨e', he', hc'⟩ := hserves dir h
      have hs := steps_step host w
      have hgoal : (w.step host).2.queue.Awaits dir ∨ w.Receives dir host := by
        unfold Receives
        generalize w.step host = r at hs
        cases hs with
        | ended | cancelled => exact .inl h
        | @answered c rest reply result v running commands answer =>
            have hq := (SameInput.answer host { w.awake with commands := rest } c).1
            rw [answer] at hq
            left
            rw [queue_conclude, hq]
            exact h
        | @flushed result v running flush =>
            have hq := (SameInput.flush host w.awake).1
            rw [flush] at hq
            left
            rw [queue_conclude, hq]
            exact h
        | @blocked queue running reception =>
            rw [reception] at he'
            cases he'
        | @closed queue reception =>
            rw [reception] at he'
            cases he'
        | @received e queue result v running reception handle =>
            rw [reception] at he' hc'
            obtain rfl := EventQueue.Reception.event.inj he'
            rcases hc' with hc | hq'
            · have hp := pending_handle (w := { w.awake with queue }) hr (.inr hc)
              rw [handle] at hp
              exact .inr ⟨e, rfl, hc, by rwa [pending_conclude]⟩
            · have hq := (SameInput.handle { w.awake with queue } e).1
              rw [handle] at hq
              left
              rw [queue_conclude, hq]
              exact hq'
      exact hgoal.imp id fun hrec => ⟨host, rfl, hrec⟩

/-- Something that waits for a directory that stays registered waits to the end of a run, or is
received on the way. -/
theorem awaits_performAll (ha : w.queue.Alert w.isBlocked) (h : w.queue.Awaits dir)
    {moves : List (Move σ)}
    (hr : ∀ first rest, moves = first ++ rest →
      (w.performAll first).registry.contains dir = true) :
    (w.performAll moves).queue.Awaits dir ∨
      ∃ first host rest, moves = first ++ .work host :: rest ∧
        (w.performAll first).Receives dir host := by
  induction moves generalizing w with
  | nil => exact .inl h
  | cons m moves ih =>
      rcases awaits_perform ha h (hr [] _ rfl) m with h' | ⟨host, rfl, hrec⟩
      · have hr' : ∀ first rest, moves = first ++ rest →
            ((w.perform m).performAll first).registry.contains dir = true :=
          fun first rest he => hr (m :: first) rest (by rw [he]; rfl)
        rcases ih (alert_perform ha m) h' hr' with h'' | ⟨first, host, rest, rfl, hrec⟩
        · exact .inl h''
        · exact .inr ⟨m :: first, host, rest, rfl, hrec⟩
      · exact .inr ⟨[], host, moves, rfl, hrec⟩

/-! ## From the pending set to a pass -/

/-- A step passes over a directory: it writes down that a pass over the directory begins. -/
def PassesOver (dir : Path) (host : Host σ) (w : Worker σ) : Prop :=
  ∃ new, (w.step host).2.registry.journal = w.registry.journal ++ new ∧
    ∃ p, p.same dir = true ∧ .began p ∈ new

theorem passesOver_flush {host : Host σ} (h : w.pending.contains dir = true)
    (hok : (w.flush host).1 = .ok ()) :
    ∃ new, (w.flush host).2.registry.journal = w.registry.journal ++ new ∧
      ∃ p, p.same dir = true ∧ .began p ∈ new := by
  obtain ⟨hres, hengine⟩ := flush_eq w host
  obtain ⟨p, hp, hs⟩ := PendingSet.contains_iff.1 h
  rw [hres] at hok
  obtain ⟨new, hnew, hmem⟩ := Engine.began_inTurn hok hp
  rw [registry, hengine]
  exact ⟨new, hnew, p, Path.same_iff.2 (Path.same_iff.1 hs).symm, hmem⟩

/-- A pending directory stays pending as long as the worker runs, unless a step passes over it. -/
theorem pending_perform (h : w.pending.contains dir = true) (hr : w.registry.contains dir = true)
    {m : Move σ} (hrun : (w.perform m).isRunning = true) :
    (w.perform m).pending.contains dir = true ∨ ∃ host, m = .work host ∧ w.PassesOver dir host := by
  cases m with
  | deliver | ask | tick | change => exact .inl h
  | work host =>
      have hs := steps_step host w
      have hgoal : (w.step host).2.pending.contains dir = true ∨ w.PassesOver dir host := by
        unfold PassesOver
        change (w.step host).2.isRunning = true at hrun
        generalize w.step host = r at hs hrun
        cases hs with
        | ended | cancelled | blocked => exact .inl h
        | closed => cases hrun
        | @answered c rest reply result v running commands answer =>
            obtain ⟨hok, hv⟩ := ok_of_conclude hrun
            dsimp only
            rw [hv]
            cases c with
            | stats | snapshot =>
                obtain ⟨-, -, rfl⟩ := answer
                exact .inl h
            | rescan =>
                have hall := pending_markAll (w := { w.awake with commands := rest }) hr
                have he : { w.awake with commands := rest }.markAll.flush host = (result, v) :=
                  congrArg Prod.snd answer
                have hf := passesOver_flush hall ((congrArg Prod.fst he).trans hok)
                rw [he, registry, registry, engine_markAll] at hf
                exact .inr hf
        | @flushed result v running flush =>
            obtain ⟨hok, hv⟩ := ok_of_conclude hrun
            dsimp only
            rw [hv]
            have hf := passesOver_flush (w := w.awake) h ((congrArg Prod.fst flush).trans hok)
            rw [flush] at hf
            exact .inr hf
        | @received e queue result v running reception handle =>
            have hp := pending_handle (w := { w.awake with queue }) hr (e := e) (.inl h)
            rw [handle] at hp
            exact .inl (by rwa [pending_conclude])
      exact hgoal.imp id fun hpass => ⟨host, rfl, hpass⟩

theorem pending_performAll (h : w.pending.contains dir = true) {moves : List (Move σ)}
    (hr : ∀ first rest, moves = first ++ rest →
      (w.performAll first).registry.contains dir = true)
    (hrun : (w.performAll moves).isRunning = true) :
    (w.performAll moves).pending.contains dir = true ∨
      ∃ first host rest, moves = first ++ .work host :: rest ∧
        (w.performAll first).PassesOver dir host := by
  induction moves generalizing w with
  | nil => exact .inl h
  | cons m moves ih =>
      rcases pending_perform h (hr [] _ rfl) (isRunning_performAll hrun) with
        h' | ⟨host, rfl, hpass⟩
      · have hr' : ∀ first rest, moves = first ++ rest →
            ((w.perform m).performAll first).registry.contains dir = true :=
          fun first rest he => hr (m :: first) rest (by rw [he]; rfl)
        rcases ih h' hr' hrun with h'' | ⟨first, host, rest, rfl, hpass⟩
        · exact .inl h''
        · exact .inr ⟨m :: first, host, rest, rfl, hpass⟩
      · exact .inr ⟨[], host, moves, rfl, hpass⟩

/-! ## The whole way -/

/-- A worker at its start, with an empty queue of a given capacity. -/
theorem alert_start (registry : Registry σ) (capacity : Nat) (backend : Backend)
    (config : EngineConfig) :
    (Worker.start registry (.new capacity) backend config).queue.Alert
      (Worker.start registry (.new capacity) backend config).isBlocked where
  hasSource := rfl
  room := Nat.lt_of_lt_of_le Nat.zero_lt_one (Nat.le_max_right capacity 1)
  woken := nofun

/-- No delivery is lost, whatever the capacity of the queue. When a delivery concerns a directory
that stays registered from then on, and a later receive would block, then a step in between has
received an event that concerns the directory and made it pending. If the worker still runs, the
directory is pending in the end, or a later step has passed over it. -/
theorem delivery_arrives {registry : Registry σ} {capacity : Nat} {backend : Backend}
    {config : EngineConfig} {before after : List (Move σ)} {d : Delivery} {dir : Path}
    (concerns : d.Concerns dir) (not_failure : ∀ m, d.signal ≠ .failure m)
    (registered : ∀ first rest, after = first ++ rest →
      ((Worker.start registry (.new capacity) backend config).performAll
        (before ++ .deliver d :: first)).registry.contains dir = true)
    (drained : ((Worker.start registry (.new capacity) backend config).performAll
      (before ++ .deliver d :: after)).nextReception.1 = .blocked) :
    ∃ first host rest, after = first ++ .work host :: rest ∧
      let w := (Worker.start registry (.new capacity) backend config).performAll
        (before ++ .deliver d :: first)
      w.Receives dir host ∧
        let v := (w.step host).2
        ((v.performAll rest).isRunning = true →
          (v.performAll rest).pending.contains dir = true ∨
            ∃ next host' rest', rest = next ++ .work host' :: rest' ∧
              (v.performAll next).PassesOver dir host') := by
  set w := ((Worker.start registry (.new capacity) backend config).performAll before).perform
    (.deliver d) with hw
  have hsplit : ∀ moves, (Worker.start registry (.new capacity) backend config).performAll
      (before ++ .deliver d :: moves) = w.performAll moves := fun moves => performAll_append _ _ _
  simp only [hsplit] at registered drained ⊢
  have halert := alert_performAll (alert_start registry capacity backend config) before
  have hwait : w.queue.Awaits dir :=
    EventQueue.awaits_accept halert (concerns.signal not_failure)
  have hw := alert_perform halert (.deliver d)
  rcases awaits_performAll hw hwait registered with hend | ⟨first, host, rest, rfl, hrec⟩
  · obtain ⟨-, -, hserves⟩ := alert_nextReception (alert_performAll hw after)
    obtain ⟨e, he, -⟩ := hserves dir hend
    rw [drained] at he
    cases he
  · refine ⟨first, host, rest, rfl, hrec, fun hrun => ?_⟩
    obtain ⟨e, -, -, hpending⟩ := hrec
    refine pending_performAll hpending ?_ hrun
    rintro next more rfl
    have hreg := registered (first ++ .work host :: next) more (by simp)
    rwa [performAll_append] at hreg

/-- The smallest queue is full when a file is created, and the directory is pending all the same. -/
theorem delivery_arrives_full :
    let start := Worker.start Engine.emptyRoot.registry (.new 0) .native {}
    let before := [.deliver (.notice { kind := .modified, paths := [.ofString "/r/a"] })]
    let d := .notice { kind := .created, paths := [.ofString "/r/b"] }
    let work := .work (Engine.shelf true)
    (start.performAll before).queue.isFull = true ∧
      ∃ first host rest, [work, work] = first ++ .work host :: rest ∧
        let w := start.performAll (before ++ .deliver d :: first)
        w.Receives (.ofString "/r") host ∧
          let v := (w.step host).2
          ((v.performAll rest).isRunning = true →
            (v.performAll rest).pending.contains (.ofString "/r") = true ∨
              ∃ next host' rest', rest = next ++ .work host' :: rest' ∧
                (v.performAll next).PassesOver (.ofString "/r") host') := by
  intro start before d work
  refine ⟨by decide +kernel, delivery_arrives (.inr ⟨rfl, _, List.mem_cons_self, .inr ?_⟩)
    (by rintro m ⟨⟩) ?_ (by decide +kernel)⟩
  · exact ⟨.ofString "/r", by decide +kernel, by decide +kernel⟩
  · intro first rest he
    match first with
    | [] => decide +kernel
    | [m] =>
        obtain ⟨rfl, -⟩ := List.cons.inj he
        decide +kernel
    | [m, m'] =>
        obtain ⟨rfl, he'⟩ := List.cons.inj he
        obtain ⟨rfl, -⟩ := List.cons.inj he'
        decide +kernel
    | m :: m' :: m'' :: more => simp at he

end Worker

end DirWatch
