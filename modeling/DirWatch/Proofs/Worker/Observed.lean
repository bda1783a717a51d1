import DirWatch.Proofs.Engine.Upkeep
import DirWatch.Proofs.Registry.Observed
import DirWatch.Proofs.Worker.Moves

/-! # Nothing else is observed

From the first walk on a worker neither watches nor tracks nor tells anything that its filter
hides, whatever the machine answers, as long as the watch service writes its paths plainly. -/

namespace DirWatch

variable {σ : Type} {host : Host σ} {root : Path} {f : Filter}

namespace Engine

/-- The steps of a pass over what is observed keep a registry discreet. -/
theorem upkeep_discreet (host : Host σ) (root : Path) (f : Filter) :
    PassUpkeep host (fun s => s.registry.Discreet root f) (fun s => s.registry.Discreet root f)
      (f.Shows root) := by
  have hsteps : Upkeep host (fun s : Engine σ => s.registry.Discreet root f) (f.Shows root)
      (f.Shows root) (fun _ p _ => f.Shows root p) :=
    { emit := fun s kind p isDirectory hs hp => by
        obtain ⟨y, rfl, hf⟩ := hp
        have hrel : s.registry.relative? (root.below y) = some (.ofNames y) := by
          rw [Registry.relative?, hs.root_eq, Path.stripPrefix?_below]
        unfold emit
        rw [hrel]
        exact hs.record (Filter.admits_ofNames hf)
      unmark := fun s p hs _ _ => hs
      cancel := fun s p d hs _ _ => hs.cancel host p
      left := fun s p d n i hs hp hd hi => ⟨hs.shows_child hp hd hi, fun _ => hs.shows_child hp hd hi⟩
      register := fun s p hs hp => hs.register host hp
      entered := fun s p s' d n i hs hp hr hd hi => by
        have hs' : s'.registry.Discreet root f := by
          have h := hs.register host hp
          rwa [show (s.registry.register host p).2 = (s.register host p).2.registry from rfl, hr] at h
        exact ⟨hs'.shows_child hp hd hi, fun _ => hs'.shows_child hp hd hi⟩ }
  exact
    { toUpkeep := hsteps
      weaken := fun s hs => hs
      began := fun s p hs => hs.record trivial
      listed := fun s p hs _ => hs.list host p
      counted := fun s p c hs _ => hs
      observed := fun s p l n e hs hp hl he => by
        obtain ⟨y, rfl, -⟩ := hp
        exact ⟨y ++ [n], (Path.below_concat root y n).symm, hs.listed host hl he⟩
      put := fun s p d l hs hp hd hl => by
        obtain ⟨y, rfl, hf⟩ := hp
        refine hs.insert hf ?_
        intro n i hi
        rcases TrackedDirectory.known_of_mem_reconcile hi with ⟨e, he⟩ | hi
        · obtain ⟨z, hz, hfz⟩ := hl n e he
          rw [← Path.below_concat] at hz
          rwa [(Path.at_below root z).unique (hz ▸ Path.at_below root (y ++ [n]))] at hfz
        · exact hs.items _ y d n i (Path.at_below root y) hd hi
      rearmed := by
        intro s p d hs hp hd
        have hr : (s.registry.rearm host p).2.Discreet root f := (hs.unwatch host p).watch host hp
        exact ⟨fun _ => hr, fun e _ => ⟨hr, fun _ => hsteps.retire hp hr⟩⟩ }

end Engine

/-! ## The first walk -/

/-- A walk comes only to what is observed. -/
theorem Walk.shows_traverse (host : Host σ) (w : Walk) (s : σ) :
    (w.traverse host s).Yields fun v => w.filter.Shows w.root v.path :=
  Keeping.traverse (D := fun _ => w.filter.Shows w.root)
    { metadata := fun _ _ _ _ => trivial
      target := fun _ _ _ _ => trivial
      readDirectory := fun _ _ _ _ => trivial
      mono := fun _ _ _ => ⟨fun _ h => h, fun _ h => h⟩
      root := fun _ => w.filter.shows_root w.root
      first := fun _ _ => w.filter.shows_root w.root
      entry := by
        rintro _ _ _ _ _ e ⟨y, rfl, -⟩ - - - hf _
        have hchild : w.filter.Shows w.root ((w.root.below y).child e.name) := by
          rw [← Path.below_concat, relativeTo_below] at hf
          exact ⟨_, (Path.below_concat w.root y e.name).symm, hf⟩
        exact ⟨hchild, fun _ => hchild⟩ } trivial

/-! ## What a watch service names -/

/-- The paths that a delivery names. -/
def Delivery.paths : Delivery → List Path
  | notice n => n.paths
  | complaint c => c.paths

theorem Delivery.paths_of_signal {d : Delivery} {paths : List Path} {removal : Bool}
    (h : d.signal = .event paths removal) : d.paths = paths := by
  cases d with
  | notice n =>
      change n.signal = _ at h
      unfold Notice.signal at h
      split at h
      · cases h
      split at h
      · cases h
      · exact (Signal.event.inj h).1
  | complaint c =>
      change c.signal = _ at h
      unfold Complaint.signal at h
      split at h
      · cases h
      split at h
      · exact (Signal.event.inj h).1
      split at h <;> cases h

/-- The paths that an event names. -/
def NativeEvent.paths : NativeEvent → List Path
  | .changed paths | .removed paths => paths
  | .overflow | .failed _ => []

namespace EventQueue

variable {q : EventQueue} {P : Path → Prop}

/-- The events in a queue name only paths of `P`. -/
def Names (P : Path → Prop) (q : EventQueue) : Prop :=
  ∀ paths removal, .event paths removal ∈ q.entries → ∀ p ∈ paths, P p

theorem Names.wake (h : q.Names P) : q.wake.Names P := by
  unfold EventQueue.wake
  split
  · exact h
  · intro paths removal he
    exact h paths removal ((List.mem_append.1 he).resolve_right (by simp))

theorem Names.lose (h : q.Names P) : q.lose.Names P := by
  unfold EventQueue.lose
  split
  · exact h
  · exact Names.wake (q := { q with overflowed := true }) h

theorem Names.accept (h : q.Names P) {d : Delivery} (hd : ∀ p ∈ d.paths, P p) :
    (q.accept d.signal).Names P := by
  cases hs : d.signal with
  | ignore => exact h
  | loss => exact h.lose
  | failure message =>
      change (q.fail message).Names P
      unfold fail
      split
      · exact h
      · exact Names.wake (q := { q with failure := some message }) h
  | event paths removal =>
      rw [Delivery.paths_of_signal hs] at hd
      unfold EventQueue.accept
      dsimp only
      split
      · exact h
      split
      · exact h.lose
      · intro paths' removal' he
        rcases List.mem_append.1 he with he | he
        · exact h paths' removal' he
        · obtain ⟨rfl, -⟩ := QueueEntry.event.inj (List.mem_singleton.1 he)
          exact hd

/-- A reception leaves a queue of `P`, and what is received names only paths of `P`. -/
def Hands (P : Path → Prop) (r : Reception × EventQueue) : Prop :=
  r.2.Names P ∧ ∀ e, r.1 = .event e → ∀ p ∈ e.paths, P p

theorem names_of_next {l : List QueueEntry} (h : Names P { q with entries := l }) {e : NativeEvent}
    {rest : List QueueEntry} (hn : next l = some (e, rest)) :
    Names P { q with entries := rest } ∧ ∀ p ∈ e.paths, P p := by
  induction l with
  | nil => cases hn
  | cons a l ih =>
      have hl : Names P { q with entries := l } := fun paths removal he =>
        h paths removal (List.mem_cons_of_mem a he)
      match a with
      | .marker => exact ih hl hn
      | .event paths false =>
          obtain ⟨rfl, rfl⟩ := Prod.mk.inj (Option.some.inj hn)
          exact ⟨hl, h paths false List.mem_cons_self⟩
      | .event paths true =>
          obtain ⟨rfl, rfl⟩ := Prod.mk.inj (Option.some.inj hn)
          exact ⟨hl, h paths true List.mem_cons_self⟩

theorem Names.takeNext (h : q.Names P) : Hands P q.takeNext := by
  unfold EventQueue.takeNext
  split
  · next e rest hn =>
      obtain ⟨hrest, he⟩ := names_of_next h hn
      refine ⟨hrest, ?_⟩
      rintro e' ⟨⟩
      exact he
  · refine ⟨fun _ _ he => absurd he List.not_mem_nil, fun e he => ?_⟩
    dsimp only at he
    split at he <;> cases he

theorem Names.receive (h : q.Names P) : Hands P q.receive := by
  unfold EventQueue.receive
  split
  · refine ⟨h, ?_⟩
    rintro e ⟨⟩ p hp
    cases hp
  · split
    · refine ⟨h, ?_⟩
      rintro e ⟨⟩ p hp
      cases hp
    · exact h.takeNext

theorem Names.resume (h : q.Names P) : Hands P q.resume := by
  rcases resume_cases q with ⟨rest, hq, hr⟩ | ⟨-, hr⟩ <;> rw [hr]
  · refine Names.receive (q := { q with entries := rest }) ?_
    intro paths removal he
    exact h paths removal (hq ▸ List.mem_cons_of_mem _ he)
  · exact h.takeNext

end EventQueue

namespace Worker

variable {w : Worker σ}

theorem hands_nextReception {P : Path → Prop} (h : w.queue.Names P) :
    EventQueue.Hands P w.nextReception := by
  unfold nextReception
  split
  · exact h.resume
  · exact h.receive

/-! ## A discreet worker -/

/-- A worker that concerns itself only with what is observed, and whose paths are written plainly. -/
structure Discreet (root : Path) (f : Filter) (w : Worker σ) : Prop where
  registry : w.registry.Discreet root f
  pending : ∀ p ∈ w.pending.order, Path.Plain root p
  queue : w.queue.Names fun p => ∀ q ∈ p.vicinity, Path.Plain root q

namespace Discreet

theorem mark (h : w.Discreet root f) {p : Path} (hp : Path.Plain root p) :
    (w.mark p).Discreet root f where
  registry := h.registry
  pending q hq := by
    rw [order_mark] at hq
    split at hq
    · exact h.pending q hq
    · exact List.forall_mem_append.2 ⟨h.pending, List.forall_mem_singleton.2 hp⟩ q hq
  queue := h.queue

theorem markChanged (h : w.Discreet root f) {p : Path}
    (hp : ∀ q ∈ p.vicinity, Path.Plain root q) : (w.markChanged p).Discreet root f := by
  have hv : ((p.parent?.filter w.registry.contains).elim w w.mark).Discreet root f := by
    cases hq : p.parent?.filter w.registry.contains with
    | none => exact h
    | some q =>
        refine h.mark (hp q (List.mem_cons_of_mem p ?_))
        exact Option.mem_toList.2 (Option.filter_eq_some_iff.1 hq).1
  unfold Worker.markChanged
  dsimp only
  split
  · exact hv.mark (hp p List.mem_cons_self)
  · exact hv

theorem markStale (h : w.Discreet root f) (p : Path) :
    Discreet root f { w with engine := w.engine.markStale p } where
  registry := by
    change (w.engine.markStale p).registry.Discreet root f
    rw [Engine.registry_markStale]
    exact h.registry
  pending := h.pending
  queue := h.queue

theorem markAll (h : w.Discreet root f) : w.markAll.Discreet root f :=
  foldl_keeps (fun p hp _ hw => hw.mark (h.registry.registered p hp).plain) h

theorem handle (h : w.Discreet root f) {e : NativeEvent}
    (he : ∀ p ∈ e.paths, ∀ q ∈ p.vicinity, Path.Plain root q) :
    (w.handle e).2.Discreet root f := by
  cases e with
  | changed paths =>
      refine foldl_keeps (f := Worker.markChanged) (fun p hp _ hw => hw.markChanged (he p hp)) ?_
      exact ⟨h.registry, h.pending, h.queue⟩
  | removed paths =>
      refine foldl_keeps (f := Worker.markRemoved)
        (fun p hp _ hw => (hw.markStale p).markChanged (he p hp)) ?_
      exact ⟨h.registry, h.pending, h.queue⟩
  | overflow => exact markAll ⟨h.registry, h.pending, h.queue⟩
  | failed message => exact h

theorem flush (h : w.Discreet root f) (host : Host σ) : (w.flush host).2.Discreet root f where
  registry := by
    have hpass := Engine.upkeep_discreet host root f
    rw [Worker.registry, (flush_eq w host).2]
    refine (hpass.inTurn ?_ h.registry).2
    exact fun p hp s hs hc => hs.shows hc (h.pending p hp)
  pending p hp := by
    rw [pending_flush] at hp
    cases hp
  queue := by
    rw [(SameInput.flush host w).1]
    exact h.queue

theorem answer (h : w.Discreet root f) (host : Host σ) (c : Command) :
    (w.answer host c).2.2.Discreet root f := by
  cases c with
  | stats | snapshot => exact h
  | rescan => exact h.markAll.flush host

theorem conclude (h : w.Discreet root f) (result : Except Error Unit) :
    (w.conclude result).Discreet root f := by
  cases result with
  | ok => exact h
  | error e => exact ⟨h.registry.record trivial, h.pending, h.queue⟩

theorem step (h : w.Discreet root f) (host : Host σ) : (w.step host).2.Discreet root f := by
  have hs := steps_step host w
  generalize w.step host = r at hs
  cases hs with
  | ended => exact h
  | cancelled => exact ⟨h.registry, h.pending, h.queue⟩
  | @answered c rest reply result v running commands answer =>
      have ha := Discreet.answer (w := { w.awake with commands := rest })
        ⟨h.registry, h.pending, h.queue⟩ host c
      rw [answer] at ha
      exact ha.conclude result
  | @flushed result v running flush =>
      have hf := Discreet.flush (w := w.awake) ⟨h.registry, h.pending, h.queue⟩ host
      rw [flush] at hf
      exact hf.conclude result
  | @blocked queue running reception =>
      obtain ⟨hq, -⟩ := hands_nextReception h.queue
      rw [reception] at hq
      exact ⟨h.registry, h.pending, hq⟩
  | @closed queue reception =>
      obtain ⟨hq, -⟩ := hands_nextReception h.queue
      rw [reception] at hq
      have hw : Discreet root f { w.awake with queue } := ⟨h.registry, h.pending, hq⟩
      exact hw.conclude (.error _)
  | @received e queue result v running reception handle =>
      obtain ⟨hq, he⟩ := hands_nextReception h.queue
      rw [reception] at hq he
      have hh := Discreet.handle (w := { w.awake with queue }) ⟨h.registry, h.pending, hq⟩ (he e rfl)
      rw [handle] at hh
      exact hh.conclude result

theorem perform (h : w.Discreet root f) {m : Move σ}
    (hm : ∀ d, m = .deliver d → ∀ p ∈ d.paths, ∀ q ∈ p.vicinity, Path.Plain root q) :
    (w.perform m).Discreet root f := by
  cases m with
  | deliver d => exact ⟨h.registry, h.pending, h.queue.accept (hm d rfl)⟩
  | work host => exact h.step host
  | ask c => exact ⟨h.registry, h.pending, h.queue⟩
  | tick duration => exact ⟨h.registry, h.pending, h.queue⟩
  | change machine => exact ⟨h.registry.change machine, h.pending, h.queue⟩

/-- A run keeps a worker discreet if all that is delivered is written plainly. -/
theorem performAll (h : w.Discreet root f) {moves : List (Move σ)}
    (hm : ∀ d, .deliver d ∈ moves → ∀ p ∈ d.paths, ∀ q ∈ p.vicinity, Path.Plain root q) :
    (w.performAll moves).Discreet root f := by
  refine foldl_keeps (f := Worker.perform) ?_ h
  rintro m hmem w hw
  refine hw.perform ?_
  rintro d rfl
  exact hm d hmem

/-- So what it holds is written plainly. -/
theorem plain (h : w.Discreet root f) : w.Plain root := by
  rintro p (hp | hp)
  · exact (h.registry.registered p hp).plain
  · exact h.pending p hp

/-- What a snapshot shows is observed. -/
theorem snapshot (h : w.Discreet root f) {e : SnapshotEntry} (he : e ∈ w.snapshot) :
    f.Admits e.path := by
  rw [(snapshot_perm w).mem_iff, List.mem_flatMap] at he
  obtain ⟨⟨k, d⟩, hk, he⟩ := he
  obtain ⟨⟨n, i⟩, hi, he⟩ := List.mem_filterMap.1 he
  obtain ⟨q, hq, rfl⟩ := Option.map_eq_some_iff.1 he
  have hpath : f.Shows root k := h.registry.registered k (List.mem_map.2 ⟨_, hk, rfl⟩)
  have hchild := h.registry.shows_child hpath (OrderedMap.get?_of_mem hk)
    (OrderedMap.mem_entries_iff.1 hi)
  obtain ⟨q', hq', ha⟩ := hchild.observes
  rw [Registry.relative?, h.registry.root_eq, hq'] at hq
  obtain rfl := Option.some.inj hq
  exact ha

end Discreet

/-! ## From the start on -/

/-- All that a registry watched, holds and has told is observed. -/
structure Observing (root : Path) (f : Filter) (r : Registry σ) : Prop where
  watched : ∀ p result, .watched p result ∈ r.journal → f.Observes root p
  registered : ∀ p ∈ r.paths, f.Observes root p
  tracked : ∀ p d n i, (p, d) ∈ r.directories.entries → (n, i) ∈ d.items.entries →
    f.Observes root (p.child n)
  told : ∀ c, .notified (.changed c) ∈ r.journal → f.Admits c.path

theorem observing_of_discreet {r : Registry σ} (h : r.Discreet root f) : Observing root f r where
  watched p result ha := h.journal _ ha
  registered p hp := (h.registered p hp).observes
  tracked p d n i hd hi := by
    have hp : f.Shows root p := h.registered p (List.mem_map.2 ⟨_, hd, rfl⟩)
    exact (h.shows_child hp (OrderedMap.get?_of_mem hd) (OrderedMap.mem_entries_iff.1 hi)).observes
  told c ha := h.journal _ ha

/-- The registry after the first walk, or after the failure that ends it. -/
def firstRegistry (host : Host σ) (root : Path) (f : Filter) (machine : σ) : Registry σ :=
  (Registry.openTree host root f machine).2

theorem discreet_firstRegistry (host : Host σ) (root : Path) (f : Filter) (machine : σ) :
    (firstRegistry host root f machine).Discreet root f := by
  have hempty : ({ root, filter := f, machine } : Registry σ).Discreet root f :=
    ⟨rfl, rfl, nofun, nofun, nofun⟩
  exact hempty.registerTree host (Walk.shows_traverse host ⟨root, f, true, true⟩ machine)

section Runs

variable (host : Host σ) (machine : σ) {capacity : Nat} {backend : Backend} {config : EngineConfig}
  {moves : List (Move σ)}
  (plain : ∀ d, .deliver d ∈ moves → ∀ p ∈ d.paths, ∀ q ∈ p.vicinity, Path.Plain root q)
include plain

/-- Every run from the first walk on keeps a worker discreet. -/
theorem discreet_of_run :
    let r := firstRegistry host root f machine
    ((Worker.start (r.record (.notified (.started root))) (.new capacity) backend
      config).performAll moves).Discreet root f := by
  intro r
  have hr : r.Discreet root f := discreet_firstRegistry host root f machine
  have hstart : (Worker.start (r.record (.notified (.started root))) (.new capacity) backend
      config).Discreet root f := ⟨hr.record trivial, nofun, nofun⟩
  exact hstart.performAll plain

/-- Every run keeps to paths that are written plainly, if the watch service does. -/
theorem plain_of_run :
    let r := firstRegistry host root f machine
    ((Worker.start (r.record (.notified (.started root))) (.new capacity) backend
      config).performAll moves).Plain root :=
  (discreet_of_run host machine plain).plain

end Runs

/-- Whatever is delivered, asked and changed after the first walk, nothing else is observed, as long
as the watch service writes its paths and their parents plainly. -/
theorem observing_of_run (host : Host σ) (machine : σ) {capacity : Nat} {backend : Backend}
    {config : EngineConfig} {moves : List (Move σ)}
    (plain : ∀ d, .deliver d ∈ moves → ∀ p ∈ d.paths, ∀ q ∈ p.vicinity, Path.Plain root q) :
    let r := firstRegistry host root f machine
    let w := (Worker.start (r.record (.notified (.started root))) (.new capacity) backend
      config).performAll moves
    Observing root f r ∧ Observing root f w.registry ∧
      (∀ host' es, (w.step host').1 = some (.answered .snapshot (.snapshot es)) →
        ∀ e ∈ es, f.Admits e.path) ∧
      f.Observes root root := by
  intro r w
  have hr : r.Discreet root f := discreet_firstRegistry host root f machine
  have hw : w.Discreet root f := discreet_of_run host machine plain
  refine ⟨observing_of_discreet hr, observing_of_discreet hw.registry, ?_,
    (f.shows_root root).observes⟩
  intro host' es hstep e he
  have hs := steps_step host' w
  generalize w.step host' = step at hs hstep
  cases hs with
  | @answered c rest reply result v running commands answer =>
      obtain ⟨rfl, rfl⟩ := Activity.answered.inj (Option.some.inj hstep)
      have hes : w.snapshot = es := Reply.snapshot.inj (Prod.mk.inj answer).1
      exact hw.snapshot (hes ▸ he)
  | _ => cases hstep

/-! ## A hidden file -/

/-- The directories `a` and `a/b` in the root `/r`. -/
def cabinetDirectories : List Path := [.ofString "/r", .ofString "/r/a", .ofString "/r/a/b"]

/-- They hold one file, `a/b/x`. A machine looks paths up by what they lead to. -/
def cabinet : Host Unit where
  metadata p s :=
    (if cabinetDirectories.any p.same then .ok { isDirectory := true }
      else if p.same (.ofString "/r/a/b/x") then .ok { isDirectory := false }
      else .error .notFound, s)
  target p s :=
    (if cabinetDirectories.any p.same then .ok { isDirectory := true } else .error .notFound, s)
  canonical p s := (.ok p, s)
  readDirectory p s :=
    (if p.same (.ofString "/r") then
        .ok [⟨Engine.nameA, true, .ok { isDirectory := true }⟩]
      else if p.same (.ofString "/r/a") then
        .ok [⟨Engine.nameB, true, .ok { isDirectory := true }⟩]
      else if p.same (.ofString "/r/a/b") then
        .ok [⟨Engine.nameX, false, .ok { isDirectory := false }⟩]
      else .error .notFound, s)
  watch _ s := (.ok (), s)
  unwatch _ s := (.ok (), s)

/-- The file is hidden. -/
def cabinetFilter : Filter where
  predicates := [(· == .ofString "a/b/x")]

/-- Its directory is reported to have changed, and is passed over once that has settled. -/
def cabinetRun (p : Path) : Worker Unit :=
  let r := firstRegistry cabinet (.ofString "/r") cabinetFilter ()
  (Worker.start (r.record (.notified (.started (.ofString "/r")))) (.new 1) .native {}).performAll
    [.deliver (.notice { kind := .modified, paths := [p] }), .work cabinet, .tick 10000,
      .work cabinet]

/-- The directory is passed over, and the file stays hidden. -/
theorem observing_of_run_cabinet :
    (cabinetRun (.ofString "/r/a/b")).flushes = 1 ∧
      Observing (.ofString "/r") cabinetFilter (cabinetRun (.ofString "/r/a/b")).registry := by
  have hb : Path.below (.ofString "/r") [Engine.nameA, Engine.nameB] = .ofString "/r/a/b" := by
    decide +kernel
  have ha : Path.below (.ofString "/r") [Engine.nameA] = .ofString "/r/a" := by decide +kernel
  have hparent : (Path.ofString "/r/a/b").parent? = some (.ofString "/r/a") := by decide +kernel
  have hplain : ∀ q ∈ Path.vicinity (.ofString "/r/a/b"), Path.Plain (.ofString "/r") q := by
    intro q hq
    rw [Path.vicinity, hparent, ← ha, ← hb] at hq
    simp only [Option.toList_some, List.mem_cons, List.not_mem_nil, or_false] at hq
    rcases hq with rfl | rfl <;> exact Path.plain_below _ _
  refine ⟨by decide +kernel, (observing_of_run cabinet () ?_).2.1⟩
  intro d hd p hp
  obtain rfl := Move.deliver.inj ((List.mem_cons.1 hd).resolve_right (by simp))
  obtain rfl := List.mem_singleton.1 hp
  exact hplain

end Worker

end DirWatch
