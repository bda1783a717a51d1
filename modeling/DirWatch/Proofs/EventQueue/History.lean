import DirWatch.Proofs.EventQueue
import Mathlib.Data.List.DropRight

/-! # The history of a queue

What producers and the consumer of a queue see, call by call. Events come out in the order in which
they went in, and what was lost or has failed is reported. Markers and flags are not seen: the
history tells what they stand for. -/

namespace DirWatch

/-! ## What is seen -/

namespace Signal

/-- The event that a signal stands for, if it is about paths. -/
def event? : Signal → Option NativeEvent
  | event paths false => some (.changed paths)
  | event paths true => some (.removed paths)
  | _ => none

def failure? : Signal → Option String
  | failure message => some message
  | _ => none

end Signal

/-- The event in a place of a queue; a marker is none. -/
def QueueEntry.event? : QueueEntry → Option NativeEvent
  | .event paths removal => (Signal.event paths removal).event?
  | .marker => none

/-- Whether a delivery says that everything has to be read again. -/
def Delivery.isRescan : Delivery → Bool
  | notice n => n.rescan
  | complaint _ => false

theorem Delivery.signal_eq_loss_iff {d : Delivery} : d.signal = .loss ↔ d.isRescan = true := by
  cases d with
  | notice n =>
      change n.signal = .loss ↔ n.rescan = true
      unfold Notice.signal
      split
      · simp [*]
      · split <;> simp [*]
  | complaint c =>
      change c.signal = .loss ↔ false = true
      unfold Complaint.signal
      split
      · simp
      · split
        · simp
        · split <;> simp

namespace EventQueue

/-- Something that happens to a queue. -/
inductive Happening where
  /-- A delivery, to a queue that is full or not. -/
  | delivered (d : Delivery) (full : Bool)
  | cloned
  | dropped
  /-- A receive returns an event; it may have been blocked before. -/
  | received (e : NativeEvent) (waited : Bool)
  | closed
  | blocked
  deriving DecidableEq

namespace Happening

/-- How a receive, or its first attempt, ends. -/
def ofReception (waited : Bool) : Reception → Happening
  | .event e => received e waited
  | .closed => closed
  | .blocked => blocked

/-- The event that is enqueued. -/
def enqueued? : Happening → Option NativeEvent
  | delivered d false => d.signal.event?
  | _ => none

/-- The event that is received, reports of losses and failures apart. -/
def taken? : Happening → Option NativeEvent
  | received (.changed paths) _ => some (.changed paths)
  | received (.removed paths) _ => some (.removed paths)
  | _ => none

/-- The failure that is delivered. -/
def failure? : Happening → Option String
  | delivered d _ => d.signal.failure?
  | _ => none

/-- Whether notifications are lost: a full queue drops an event, or the service says so. -/
def isLoss : Happening → Bool
  | delivered d full => d.isRescan || (full && d.signal.event?.isSome)
  | _ => false

/-- Whether a loss is reported. -/
def isReport : Happening → Bool
  | received .overflow _ => true
  | _ => false

/-- Whether a failure is reported. -/
def isEnd : Happening → Bool
  | received (.failed _) _ => true
  | _ => false

/-- Whether a receive that was blocked returns what was enqueued. -/
def isLate : Happening → Bool
  | received (.changed _) waited | received (.removed _) waited => waited
  | _ => false

theorem isLate_of_taken {e : NativeEvent} (h : (received e true).taken? = some e) :
    (received e true).isLate = true := by
  cases e with
  | changed paths => rfl
  | removed paths => rfl
  | overflow => cases h
  | failed message => cases h

end Happening

/-- What has happened to a queue, the latest last. -/
abbrev History := List Happening

namespace History

/-- The enqueued events in the order of their delivery. -/
def enqueued (h : History) : List NativeEvent := h.filterMap Happening.enqueued?

/-- The events received so far. -/
def taken (h : History) : List NativeEvent := h.filterMap Happening.taken?

/-- The first failure. -/
def failure? (h : History) : Option String := h.findSome? Happening.failure?

/-- Something was lost since a loss was reported last. -/
def Lost (h : History) : Prop := ∃ x ∈ h.rtakeWhile fun x => !x.isReport, x.isLoss = true

/-- Something has to be told beside the events. -/
def Alarming (h : History) : Prop := h.Lost ∨ h.failure? ≠ none

/-- What has to be told was not told yet; a failure that was told is all there is to tell. -/
def Untold (h : History) : Prop := h.Alarming ∧ ∀ x ∈ h, x.isEnd = false

/-- Every producer is gone: the first one and all clones. -/
def Abandoned (h : History) : Prop := h.count .dropped = h.count .cloned + 1

/-- What had to be told was overtaken: a receive that was blocked has returned what was enqueued
instead, and no loss was reported since. -/
def Overtaken (h : History) : Prop :=
  ∃ before x after, h = before ++ x :: after ∧ x.isLate = true ∧ Alarming before ∧
    ∀ y ∈ after, y.isReport = false

variable (h : History) (x : Happening)

theorem lost_concat :
    Lost (h ++ [x]) ↔ x.isReport = false ∧ (x.isLoss = true ∨ h.Lost) := by
  unfold Lost
  rw [List.rtakeWhile_concat]
  cases x.isReport <;> simp [or_and_right, exists_or, or_comm]

theorem failure?_concat : failure? (h ++ [x]) = h.failure?.or x.failure? := by
  simp only [failure?, List.findSome?_append, List.findSome?_singleton]

theorem enqueued_concat : enqueued (h ++ [x]) = h.enqueued ++ x.enqueued?.toList := by
  cases hx : x.enqueued? <;> simp [enqueued, hx]

theorem taken_concat : taken (h ++ [x]) = h.taken ++ x.taken?.toList := by
  cases hx : x.taken? <;> simp [taken, hx]

theorem Untold.of_concat {h : History} {x : Happening} (hu : Untold (h ++ [x]))
    (ha : h.Alarming) : h.Untold := ⟨ha, fun y hy => hu.2 y (List.mem_append_left _ hy)⟩

theorem Overtaken.concat {h : History} {x : Happening} (ho : h.Overtaken)
    (hx : x.isReport = false) : Overtaken (h ++ [x]) := by
  obtain ⟨before, y, after, rfl, hlate, halarm, hafter⟩ := ho
  refine ⟨before, y, after ++ [x], by simp, hlate, halarm, fun z hz => ?_⟩
  rcases List.mem_append.1 hz with hz | hz
  · exact hafter z hz
  · exact List.mem_singleton.1 hz ▸ hx

theorem overtaken_of_late {h : History} {x : Happening} (hx : x.isLate = true) (ha : h.Alarming) :
    Overtaken (h ++ [x]) := ⟨h, x, [], rfl, hx, ha, by simp⟩

end History

/-! ## Runs -/

/-- The runs of a queue, each with its history and with whether a receive is blocked. Every call is
one step. A receive that is blocked may be tried again at any time, or be given up. -/
inductive Run (capacity : Nat) : History → EventQueue → Bool → Prop
  | start : Run capacity [] (.new capacity) false
  | deliver {h : History} {q : EventQueue} {waiting : Bool} (run : Run capacity h q waiting)
      (sink : 0 < q.sinks) (d : Delivery) :
      Run capacity (h ++ [.delivered d q.isFull]) (q.accept d.signal) waiting
  | clone {h : History} {q : EventQueue} {waiting : Bool} (run : Run capacity h q waiting)
      (sink : 0 < q.sinks) : Run capacity (h ++ [.cloned]) q.addSink waiting
  | drop {h : History} {q : EventQueue} {waiting : Bool} (run : Run capacity h q waiting)
      (sink : 0 < q.sinks) : Run capacity (h ++ [.dropped]) q.dropSink waiting
  | receive {h : History} {q : EventQueue} (run : Run capacity h q false) :
      Run capacity (h ++ [.ofReception false q.receive.1]) q.receive.2 (q.receive.1 == .blocked)
  | resume {h : History} {q : EventQueue} (run : Run capacity h q true) :
      Run capacity (h ++ [.ofReception true q.resume.1]) q.resume.2 (q.resume.1 == .blocked)
  | giveUp {h : History} {q : EventQueue} (run : Run capacity h q true) : Run capacity h q false

/-! ## What waits in a queue -/

variable {q : EventQueue}

/-- The events that wait in some places. -/
def waiting (entries : List QueueEntry) : List NativeEvent := entries.filterMap QueueEntry.event?

/-- A loss or a failure is noted. -/
def Flagged (q : EventQueue) : Prop := q.overflowed = true ∨ q.failure ≠ none

/-- A queue holds what its history says: the events that were enqueued and not received yet, the
loss that was not reported yet, and the first failure. While a receive is blocked, what is noted
keeps it from being empty, and afterwards as well unless it was told or overtaken. -/
structure Keeps (h : History) (q : EventQueue) (blocked : Bool) : Prop where
  hasSource : q.hasSource = true
  room : 0 < q.capacity
  bounded : q.entries.length ≤ q.capacity
  sinks : q.sinks + h.count .dropped = h.count .cloned + 1
  conserved : h.enqueued = h.taken ++ waiting q.entries
  lost : q.overflowed = true ↔ h.Lost
  failure : q.failure = h.failure?
  woken : blocked = true → q.Flagged → q.entries ≠ []
  held : h.Untold → q.entries ≠ [] ∨ h.Overtaken

theorem waiting_append (l m : List QueueEntry) : waiting (l ++ m) = waiting l ++ waiting m :=
  List.filterMap_append

/-! ### Deliveries -/

/-- What a signal does to a queue with a consumer. -/
structure Takes (q : EventQueue) (s : Signal) (q' : EventQueue) : Prop where
  hasSource : q'.hasSource = q.hasSource
  capacity : q'.capacity = q.capacity
  sinks : q'.sinks = q.sinks
  grows : q.entries <+: q'.entries
  bounded : q.entries.length ≤ q.capacity → q'.entries.length ≤ q'.capacity
  waiting : waiting q'.entries =
    waiting q.entries ++ if q.isFull then [] else s.event?.toList
  overflowed : q'.overflowed = (q.overflowed || (s == .loss || (q.isFull && s.event?.isSome)))
  failure : q'.failure = q.failure.or s.failure?
  held : q'.Flagged → q.Flagged ∨ q'.entries ≠ []

/-- A queue that wakes its consumer is not empty: it is full, or it gets a marker. -/
theorem wake_spec (hs : q.hasSource = true) (hr : 0 < q.capacity) :
    ∃ entries, q.wake = { q with entries } ∧ q.entries <+: entries ∧
      (q.entries.length ≤ q.capacity → entries.length ≤ q.capacity) ∧
      waiting entries = waiting q.entries ∧ entries ≠ [] := by
  cases hf : q.isFull
  · refine ⟨q.entries ++ [.marker], by simp [wake, hf, hs], List.prefix_append _ _, fun _ => ?_, ?_,
      by simp⟩
    · rw [isFull, decide_eq_false_iff_not] at hf
      rw [List.length_append, List.length_singleton]
      omega
    · rw [waiting_append]
      exact List.append_nil _
  · refine ⟨q.entries, by simp [wake, hf], List.prefix_rfl, id, rfl, ?_⟩
    rw [isFull, decide_eq_true_iff] at hf
    exact List.ne_nil_of_length_pos (Nat.lt_of_lt_of_le hr hf)

section Deliveries

variable (hs : q.hasSource = true) (hr : 0 < q.capacity)
include hs hr

/-- What is lost is noted, and nothing else changes. -/
theorem takes_lose {s : Signal} (hloss : s = .loss ∨ q.isFull = true ∧ s.event?.isSome = true) :
    Takes q s q.lose := by
  have hevents : (if q.isFull then [] else s.event?.toList) = [] := by
    rcases hloss with rfl | ⟨hf, -⟩
    · simp [Signal.event?]
    · rw [if_pos hf]
  have hlost : (s == .loss || (q.isFull && s.event?.isSome)) = true := by
    rcases hloss with rfl | ⟨hf, he⟩
    · rfl
    · simp [hf, he]
  have hfailure : s.failure? = none := by
    rcases hloss with rfl | ⟨-, he⟩
    · rfl
    · cases s <;> first | rfl | cases he
  unfold lose
  split
  · next ho =>
      exact ⟨rfl, rfl, rfl, List.prefix_rfl, id, by rw [hevents, List.append_nil],
        by rw [ho, Bool.true_or], by rw [hfailure, Option.or_none], .inl⟩
  · obtain ⟨entries, hw, hgrows, hbounded, hwaiting, hne⟩ :=
      wake_spec (q := { q with overflowed := true }) hs hr
    rw [hw]
    exact ⟨rfl, rfl, rfl, hgrows, hbounded, by rw [hevents, List.append_nil]; exact hwaiting,
      by rw [hlost, Bool.or_true], by rw [hfailure, Option.or_none], fun _ => .inr hne⟩

/-- The first failure is noted, and nothing else changes. -/
theorem takes_fail (message : String) : Takes q (.failure message) (q.fail message) := by
  have hevents : (if q.isFull then [] else (Signal.failure message).event?.toList) = [] := by
    simp [Signal.event?]
  have hlost : (Signal.failure message == .loss ||
      (q.isFull && (Signal.failure message).event?.isSome)) = false := by
    simp [Signal.event?]
  unfold fail
  split
  · next hf =>
      obtain ⟨m, hm⟩ := Option.isSome_iff_exists.1 hf
      exact ⟨rfl, rfl, rfl, List.prefix_rfl, id, by rw [hevents, List.append_nil],
        by rw [hlost, Bool.or_false], by rw [hm, Option.some_or], .inl⟩
  · next hf =>
      obtain ⟨entries, hw, hgrows, hbounded, hwaiting, hne⟩ :=
        wake_spec (q := { q with failure := some message }) hs hr
      rw [hw]
      exact ⟨rfl, rfl, rfl, hgrows, hbounded, by rw [hevents, List.append_nil]; exact hwaiting,
        by rw [hlost, Bool.or_false], by simp [Option.not_isSome_iff_eq_none.1 hf, Signal.failure?],
        fun _ => .inr hne⟩

theorem takes_accept (s : Signal) : Takes q s (q.accept s) := by
  cases s with
  | ignore =>
      exact ⟨rfl, rfl, rfl, List.prefix_rfl, id, by simp [Signal.event?, accept],
        by simp [Signal.event?, accept], (Option.or_none).symm, .inl⟩
  | loss => exact takes_lose hs hr (.inl rfl)
  | failure message => exact takes_fail hs hr message
  | event paths removal =>
      have hsome : (Signal.event paths removal).event?.isSome = true := by cases removal <;> rfl
      rw [accept_event hs]
      split
      · next hf => exact takes_lose hs hr (.inr ⟨hf, hsome⟩)
      · next hf =>
          refine ⟨rfl, rfl, rfl, List.prefix_append _ _, fun _ => ?_, ?_, ?_, ?_, .inl⟩
          · rw [isFull, decide_eq_true_iff] at hf
            simp only [List.length_append, List.length_singleton]
            omega
          · rw [if_neg hf, waiting_append]
            cases removal <;> rfl
          · simp [hf]
          · exact (Option.or_none).symm

end Deliveries

/-! ### Receptions -/

/-- How a receive ends. Markers in front may go. -/
inductive Receives (q : EventQueue) : Reception × EventQueue → Prop
  | failed {m : String} {entries : List QueueEntry} (failure : q.failure = some m)
      (length : entries.length ≤ q.entries.length) (markers : waiting entries = waiting q.entries) :
      Receives q (.event (.failed m), { q with entries })
  | overflow {entries : List QueueEntry} (fine : q.failure = none) (lost : q.overflowed = true)
      (length : entries.length ≤ q.entries.length) (markers : waiting entries = waiting q.entries) :
      Receives q (.event .overflow, { q with entries, overflowed := false })
  | event {e : NativeEvent} {entries : List QueueEntry}
      (place : ∀ waited, (Happening.received e waited).taken? = some e)
      (length : entries.length ≤ q.entries.length)
      (first : waiting q.entries = e :: waiting entries) :
      Receives q (.event e, { q with entries })
  | closed (gone : q.sinks = 0) (calm : ¬ q.Flagged) (drained : waiting q.entries = []) :
      Receives q (.closed, { q with entries := [] })
  | blocked (left : q.sinks ≠ 0) (calm : ¬ q.Flagged) (drained : waiting q.entries = []) :
      Receives q (.blocked, { q with entries := [] })

namespace Receives

variable {r : Reception × EventQueue}

theorem keeps (h : Receives q r) : r.2.hasSource = q.hasSource ∧ r.2.capacity = q.capacity ∧
    r.2.sinks = q.sinks ∧ r.2.failure = q.failure := by
  cases h <;> exact ⟨rfl, rfl, rfl, rfl⟩

theorem length_le (h : Receives q r) : r.2.entries.length ≤ q.entries.length := by
  cases h with
  | failed failure length markers => exact length
  | overflow fine lost length markers => exact length
  | event place length first => exact length
  | closed gone calm drained => exact Nat.zero_le _
  | blocked left calm drained => exact Nat.zero_le _

theorem waiting (h : Receives q r) (waited : Bool) : waiting q.entries =
    (Happening.ofReception waited r.1).taken?.toList ++ EventQueue.waiting r.2.entries := by
  cases h with
  | failed failure length markers => exact markers.symm
  | overflow fine lost length markers => exact markers.symm
  | event place length first =>
      rw [Happening.ofReception, place]
      exact first
  | closed gone calm drained => exact drained
  | blocked left calm drained => exact drained

theorem overflowed (h : Receives q r) (waited : Bool) : r.2.overflowed =
    (q.overflowed && !(Happening.ofReception waited r.1).isReport) := by
  cases h with
  | @event e entries place length first =>
      have hreport : (Happening.received e waited).isReport = false := by
        cases e <;> first | rfl | cases place waited
      rw [Happening.ofReception, hreport]
      simp
  | _ => simp [Happening.ofReception, Happening.isReport]

end Receives

/-- The next event is the first one that waits. -/
theorem next_cases (l : List QueueEntry) :
    (next l = none ∧ waiting l = []) ∨
      ∃ e rest, next l = some (e, rest) ∧ waiting l = e :: waiting rest ∧
        rest.length ≤ l.length ∧ ∀ waited, (Happening.received e waited).taken? = some e := by
  fun_induction next l with
  | case1 => exact .inl ⟨rfl, rfl⟩
  | case2 rest ih =>
      refine ih.imp id ?_
      rintro ⟨e, tail, hn, hw, hl, he⟩
      exact ⟨e, tail, hn, hw, Nat.le_succ_of_le hl, he⟩
  | case3 paths rest => exact .inr ⟨_, _, rfl, rfl, Nat.le_succ _, fun _ => rfl⟩
  | case4 paths rest => exact .inr ⟨_, _, rfl, rfl, Nat.le_succ _, fun _ => rfl⟩

/-- An event is received whatever is noted, and only a calm queue is left without one. -/
theorem receives_takeNext (h : next q.entries = none → ¬ q.Flagged) : Receives q q.takeNext := by
  rcases next_cases q.entries with ⟨hn, hw⟩ | ⟨e, rest, hn, hw, hl, he⟩ <;> unfold takeNext <;>
    rw [hn]
  · dsimp only
    split
    · next hs => exact .closed hs (h hn) hw
    · next hs => exact .blocked hs (h hn) hw
  · exact .event he hl hw

theorem receives_receive (q : EventQueue) : Receives q q.receive := by
  unfold receive
  split
  · next m hm => exact .failed hm (Nat.le_refl _) rfl
  · next hm =>
      split
      · next ho => exact .overflow hm ho (Nat.le_refl _) rfl
      · next ho => exact receives_takeNext fun _ hf => hf.elim ho fun hne => hne hm

/-- What a receive that was blocked does if what is noted has woken it. -/
theorem receives_resume (h : q.Flagged → q.entries ≠ []) : Receives q q.resume := by
  rcases resume_cases q with ⟨rest, hq, hr⟩ | ⟨hq, hr⟩ <;> rw [hr]
  · have hlength : rest.length ≤ q.entries.length := by simp [hq]
    have hwaiting : waiting rest = waiting q.entries := by rw [hq]; rfl
    have hrest := receives_receive { q with entries := rest }
    generalize receive { q with entries := rest } = r at hrest
    cases hrest with
    | failed failure length markers =>
        exact .failed failure (length.trans hlength) (markers.trans hwaiting)
    | overflow fine lost length markers =>
        exact .overflow fine lost (length.trans hlength) (markers.trans hwaiting)
    | event place length first =>
        exact .event place (length.trans hlength) (hwaiting.symm.trans first)
    | closed gone calm drained => exact .closed gone calm (hwaiting.symm.trans drained)
    | blocked left calm drained => exact .blocked left calm (hwaiting.symm.trans drained)
  · refine receives_takeNext fun hn hf => ?_
    obtain ⟨e, rest, hs⟩ := (next_of_not_marker hq).resolve_left (h hf)
    rw [hn] at hs
    cases hs

theorem not_flagged (hm : q.failure = none) (ho : q.overflowed = false) : ¬ q.Flagged := by
  rw [Flagged, hm, ho]
  simp

/-- A receive that starts now tells what is noted. -/
theorem receive_of_flagged (h : q.Flagged) :
    q.receive.1 = .event .overflow ∨ ∃ m, q.receive.1 = .event (.failed m) := by
  unfold receive
  split
  · next m hm => exact .inr ⟨m, rfl⟩
  · next hm => exact .inl (by rw [if_pos (h.resolve_right (not_not_intro hm))])

/-! ## A step keeps the history -/

namespace Keeps

variable {h : History} {blocked : Bool}

theorem flagged_iff (hk : Keeps h q blocked) : q.Flagged ↔ h.Alarming := by
  rw [Flagged, hk.lost, hk.failure, History.Alarming]

theorem new (capacity : Nat) : Keeps [] (.new capacity) false where
  hasSource := rfl
  room := Nat.lt_of_lt_of_le Nat.zero_lt_one (Nat.le_max_right capacity 1)
  bounded := Nat.zero_le _
  sinks := rfl
  conserved := rfl
  lost := by simp [EventQueue.new, History.Lost]
  failure := rfl
  woken := by simp
  held h := by simp [History.Untold, History.Alarming, History.Lost, History.failure?] at h

theorem deliver (hk : Keeps h q blocked) (d : Delivery) :
    Keeps (h ++ [.delivered d q.isFull]) (q.accept d.signal) blocked := by
  have ht := takes_accept hk.hasSource hk.room d.signal
  have hgrows : q.entries ≠ [] → (q.accept d.signal).entries ≠ [] :=
    mt fun he => List.prefix_nil.1 (he ▸ ht.grows)
  have hfailure : (q.accept d.signal).failure = History.failure? (h ++ [.delivered d q.isFull]) := by
    rw [ht.failure, hk.failure, History.failure?_concat, Happening.failure?]
  have hlost : (q.accept d.signal).overflowed = true ↔
      History.Lost (h ++ [.delivered d q.isFull]) := by
    have hloss : (d.signal == .loss) = d.isRescan := by
      rw [Bool.eq_iff_iff, beq_iff_eq, Delivery.signal_eq_loss_iff]
    rw [History.lost_concat, ht.overflowed, hloss, Bool.or_eq_true, hk.lost, or_comm]
    simp [Happening.isReport, Happening.isLoss]
  refine ⟨ht.hasSource.trans hk.hasSource, ht.capacity ▸ hk.room, ht.bounded hk.bounded, ?_, ?_,
    hlost, hfailure, ?_, ?_⟩
  · rw [ht.sinks]
    simpa using hk.sinks
  · have henqueued : (Happening.delivered d q.isFull).enqueued?.toList =
        if q.isFull then [] else d.signal.event?.toList := by
      cases q.isFull <;> rfl
    have htaken : (Happening.delivered d q.isFull).taken? = none := rfl
    rw [History.enqueued_concat, History.taken_concat, hk.conserved, ht.waiting, henqueued, htaken,
      Option.toList_none, List.append_nil, List.append_assoc]
  · exact fun hb hf => (ht.held hf).elim (fun hold => hgrows (hk.woken hb hold)) id
  · intro hu
    rcases ht.held (hu.1.imp hlost.2 (hfailure ▸ ·)) with hold | hne
    · exact (hk.held (hu.of_concat (hk.flagged_iff.1 hold))).imp hgrows (·.concat rfl)
    · exact .inl hne

/-- What concerns the producers alone. -/
theorem of_sinks (hk : Keeps h q blocked) {n : Nat} {x : Happening}
    (hx : x = .cloned ∨ x = .dropped)
    (hn : n + (h ++ [x]).count .dropped = (h ++ [x]).count .cloned + 1) :
    Keeps (h ++ [x]) { q with sinks := n } blocked where
  hasSource := hk.hasSource
  room := hk.room
  bounded := hk.bounded
  sinks := hn
  conserved := by
    rw [History.enqueued_concat, History.taken_concat]
    rcases hx with rfl | rfl <;> simpa [Happening.enqueued?, Happening.taken?] using hk.conserved
  lost := by
    rw [History.lost_concat]
    rcases hx with rfl | rfl <;> simpa [Happening.isReport, Happening.isLoss] using hk.lost
  failure := by
    rw [History.failure?_concat]
    rcases hx with rfl | rfl <;> simpa [Happening.failure?] using hk.failure
  woken := hk.woken
  held hu := by
    have ha : h.Alarming := by
      have ha := hu.1
      rw [History.Alarming, History.lost_concat, History.failure?_concat] at ha
      rcases hx with rfl | rfl <;>
        simpa [History.Alarming, Happening.isReport, Happening.isLoss, Happening.failure?] using ha
    refine (hk.held (hu.of_concat ha)).imp id (·.concat ?_)
    rcases hx with rfl | rfl <;> rfl

theorem clone (hk : Keeps h q blocked) : Keeps (h ++ [.cloned]) q.addSink blocked := by
  refine hk.of_sinks (.inl rfl) ?_
  have hs := hk.sinks
  simp
  omega

theorem drop (hk : Keeps h q blocked) (sink : 0 < q.sinks) :
    Keeps (h ++ [.dropped]) q.dropSink blocked := by
  refine hk.of_sinks (.inr rfl) ?_
  have hs := hk.sinks
  simp
  omega

/-- A receive that ends takes its event out of the queue, and a loss if it reports one. It leaves
nothing noted unless it has told a failure, or a change while something was noted. -/
theorem receives {r : Reception × EventQueue} (hk : Keeps h q blocked) (hr : Receives q r)
    (waited : Bool) (hlate : ∀ e, r.1 = .event e → q.Flagged →
      (Happening.received e waited).taken? = none ∨ waited = true) :
    Keeps (h ++ [.ofReception waited r.1]) r.2 (r.1 == .blocked) := by
  have hlost : r.2.overflowed = true ↔ History.Lost (h ++ [.ofReception waited r.1]) := by
    have hloss : (Happening.ofReception waited r.1).isLoss = false := by cases r.1 <;> rfl
    rw [History.lost_concat, hloss, ← hk.lost, hr.overflowed waited]
    simp [and_comm]
  have hfailure : r.2.failure = History.failure? (h ++ [.ofReception waited r.1]) := by
    have hfailure : (Happening.ofReception waited r.1).failure? = none := by cases r.1 <;> rfl
    rw [History.failure?_concat, hfailure, Option.or_none, ← hk.failure, hr.keeps.2.2.2]
  refine ⟨hr.keeps.1.trans hk.hasSource, hr.keeps.2.1 ▸ hk.room,
    hr.keeps.2.1 ▸ hr.length_le.trans hk.bounded, ?sinks, ?conserved, hlost, hfailure, ?woken,
    ?held⟩
  case sinks =>
    rw [hr.keeps.2.2.1, List.count_append, List.count_append]
    cases hw : r.1 <;> simpa [Happening.ofReception] using hk.sinks
  case conserved =>
    have henqueued : (Happening.ofReception waited r.1).enqueued? = none := by cases r.1 <;> rfl
    rw [History.enqueued_concat, henqueued, Option.toList_none, List.append_nil, hk.conserved,
      hr.waiting waited, History.taken_concat, List.append_assoc]
  case woken =>
    intro hb hf
    cases hr with
    | blocked left calm drained => exact absurd hf calm
    | _ => cases hb
  case held =>
    intro hu
    have hf : r.2.Flagged := hu.1.imp hlost.2 (hfailure ▸ ·)
    cases hr with
    | failed failure length markers =>
        exact Bool.noConfusion (hu.2 _ (List.mem_append_right _ (List.mem_singleton_self _)))
    | overflow fine lost length markers => exact absurd hf (not_flagged fine rfl)
    | @event e entries place length first =>
        rcases hlate e rfl hf with hnone | rfl
        · cases (place waited).symm.trans hnone
        · exact .inr (History.overtaken_of_late (Happening.isLate_of_taken (place true))
            (hk.flagged_iff.1 hf))
    | closed gone calm drained => exact absurd hf calm
    | blocked left calm drained => exact absurd hf calm

/-- A receive that starts now tells first what is noted. -/
theorem receive (hk : Keeps h q blocked) :
    Keeps (h ++ [.ofReception false q.receive.1]) q.receive.2 (q.receive.1 == .blocked) := by
  refine hk.receives (receives_receive q) false fun e he hf => .inl ?_
  rcases receive_of_flagged hf with hr | ⟨m, hr⟩ <;> cases hr.symm.trans he <;> rfl

/-- A receive that was blocked may overtake what is noted. -/
theorem resume (hk : Keeps h q true) :
    Keeps (h ++ [.ofReception true q.resume.1]) q.resume.2 (q.resume.1 == .blocked) :=
  hk.receives (receives_resume (hk.woken rfl)) true fun _ _ _ => .inr rfl

end Keeps

/-- Queues keep their history. -/
theorem keeps_of_run {capacity : Nat} {h : History} {waiting : Bool}
    (run : Run capacity h q waiting) : Keeps h q waiting := by
  induction run with
  | start => exact .new capacity
  | deliver run sink d ih => exact ih.deliver d
  | clone run sink ih => exact ih.clone
  | drop run sink ih => exact ih.drop sink
  | receive run ih => exact ih.receive
  | resume run ih => exact ih.resume
  | giveUp run ih =>
      exact { ih with
        woken := by simp
        held := fun hu => .inl (ih.woken rfl (ih.flagged_iff.2 hu.1)) }

/-! ## An ordered queue that reports what is lost -/

/-- A receive that starts now, or goes on if one is blocked, ends in this way. -/
def Ends (q : EventQueue) (waiting : Bool) (r : Reception) : Prop :=
  r = q.receive.1 ∨ waiting = true ∧ r = q.resume.1

/-- A receive that was blocked returns the next event in order, whatever there is to tell. -/
def Overtakes (history : History) (waiting : Bool) (r : Reception) : Prop :=
  waiting = true ∧ ∃ e, r = .event e ∧ history.taken ++ [e] <+: history.enqueued

/-- What a queue owes to its consumer after some history. -/
structure Orderly (history : History) (q : EventQueue) (waiting : Bool) : Prop where
  /-- What is received is what was enqueued, nothing skipped and nothing repeated. -/
  in_order : history.taken <+: history.enqueued
  /-- A receive tells first that something was lost, unless there was a failure or the receive was
  blocked before. -/
  reported : history.Lost → ∀ r, Ends q waiting r →
    r = .event .overflow ∨ (∃ m, r = .event (.failed m)) ∨ Overtakes history waiting r
  /-- A loss is reported only if something was lost since the last report. -/
  honest : Ends q waiting (.event .overflow) → history.Lost
  /-- The first failure is received for ever, unless the receive was blocked before. -/
  failed : ∀ m, history.failure? = some m → ∀ r, Ends q waiting r →
    r = .event (.failed m) ∨ Overtakes history waiting r
  /-- A receive that is blocked leaves nothing to be received or to be told. -/
  blocks : Ends q waiting .blocked → history.taken = history.enqueued ∧ ¬ history.Alarming
  /-- What has to be told keeps the queue from being empty until it is told, unless a receive that
  was blocked has overtaken it. -/
  held : history.Untold → q.entries ≠ [] ∨ history.Overtaken
  /-- A receive that is blocked is woken by what has to be told. -/
  woken : waiting = true → history.Alarming → q.entries ≠ [] ∧ ∃ e, q.resume.1 = .event e
  /-- The queue is closed when every producer is gone and everything was received and told. -/
  closes : Ends q waiting .closed →
    history.Abandoned ∧ history.taken = history.enqueued ∧ ¬ history.Alarming

theorem Keeps.receives_of_ends {h : History} {waiting : Bool} {r : Reception}
    (hk : Keeps h q waiting) (hr : Ends q waiting r) : ∃ q', Receives q (r, q') := by
  rcases hr with rfl | ⟨rfl, rfl⟩
  · exact ⟨_, receives_receive q⟩
  · exact ⟨_, receives_resume (hk.woken rfl)⟩

theorem Keeps.taken_eq_enqueued {h : History} {waiting : Bool} (hk : Keeps h q waiting)
    (hd : EventQueue.waiting q.entries = []) : h.taken = h.enqueued := by
  rw [hk.conserved, hd, List.append_nil]

/-- A receive tells what is noted, or it was blocked and overtakes it. -/
theorem Keeps.tells_or_overtakes {h : History} {waiting : Bool} {r : Reception}
    (hk : Keeps h q waiting) (hf : q.Flagged) (hr : Ends q waiting r) :
    (∃ m, q.failure = some m ∧ r = .event (.failed m)) ∨
      (q.failure = none ∧ r = .event .overflow) ∨ Overtakes h waiting r := by
  obtain ⟨q', hrec⟩ := hk.receives_of_ends hr
  cases hrec with
  | @failed m entries failure length markers => exact .inl ⟨m, failure, rfl⟩
  | overflow fine lost length markers => exact .inr (.inl ⟨fine, rfl⟩)
  | @event e entries place length first =>
      rcases hr with hr | ⟨rfl, -⟩
      · rcases receive_of_flagged hf with hrec | ⟨m, hrec⟩ <;> cases hrec.symm.trans hr.symm <;>
          cases place false
      · refine .inr (.inr ⟨rfl, e, rfl, waiting entries, ?_⟩)
        rw [hk.conserved, first, List.append_assoc, List.singleton_append]
  | closed gone calm drained => exact absurd hf calm
  | blocked left calm drained => exact absurd hf calm

/-- A queue is an ordered queue that reports what is lost. -/
theorem orderly_of_run {capacity : Nat} {history : History} {waiting : Bool}
    (run : Run capacity history q waiting) : Orderly history q waiting := by
  have hk := keeps_of_run run
  refine ⟨?in_order, ?reported, ?honest, ?failed, ?blocks, hk.held, ?woken, ?closes⟩
  case in_order => exact ⟨_, hk.conserved.symm⟩
  case reported =>
    intro hl r hr
    rcases hk.tells_or_overtakes (.inl (hk.lost.2 hl)) hr with ⟨m, -, hm⟩ | ⟨-, ho⟩ | hover
    · exact .inr (.inl ⟨m, hm⟩)
    · exact .inl ho
    · exact .inr (.inr hover)
  case honest =>
    intro he
    obtain ⟨q', hr⟩ := hk.receives_of_ends he
    cases hr with
    | overflow fine lost length markers => exact hk.lost.1 lost
    | event place length first => cases place false
  case failed =>
    intro m hm r hr
    have hq : q.failure = some m := hk.failure.trans hm
    rcases hk.tells_or_overtakes (.inr (by simp [hq])) hr with ⟨m', hm', h⟩ | ⟨hnone, -⟩ | hover
    · cases hq.symm.trans hm'
      exact .inl h
    · cases hq.symm.trans hnone
    · exact .inr hover
  case blocks =>
    intro hb
    obtain ⟨q', hr⟩ := hk.receives_of_ends hb
    cases hr with
    | blocked left calm drained => exact ⟨hk.taken_eq_enqueued drained, hk.flagged_iff.not.1 calm⟩
  case woken =>
    rintro rfl ha
    have hf := hk.flagged_iff.2 ha
    refine ⟨hk.woken rfl hf, ?_⟩
    have hr := receives_resume (hk.woken rfl)
    generalize q.resume = r at hr
    cases hr with
    | closed gone calm drained => exact absurd hf calm
    | blocked left calm drained => exact absurd hf calm
    | _ => exact ⟨_, rfl⟩
  case closes =>
    intro hc
    obtain ⟨q', hr⟩ := hk.receives_of_ends hc
    cases hr with
    | closed gone calm drained =>
        have hsinks := hk.sinks
        rw [gone, Nat.zero_add] at hsinks
        exact ⟨hsinks, hk.taken_eq_enqueued drained, hk.flagged_iff.not.1 calm⟩

/-- An event wakes a receive, the next one is lost and reported, and the queue is closed. -/
theorem orderly_of_run_burst :
    let change : Delivery := .notice { kind := .modified, paths := [default] }
    let history : History := [.blocked, .delivered change false, .delivered change true,
      .received (.changed [default]) true, .received .overflow false, .dropped, .closed]
    ∃ q, Run 1 history q false ∧ Orderly history q false := by
  intro change history
  have blocked : Run 1 [.blocked] (.new 1) true := Run.start.receive
  have woken := (blocked.deliver (by decide) change).deliver (by decide) change
  have run := (woken.resume.receive.drop (by decide)).receive
  exact ⟨_, run, orderly_of_run run⟩

/-- A receive that was blocked returns the change that has woken it, although the next one was lost
meanwhile. Nobody is told of the loss, and the queue is left empty. -/
theorem overtakes_of_blocked :
    let change : Delivery := .notice { kind := .modified, paths := [default] }
    let history : History := [.blocked, .delivered change false, .delivered change true]
    let later : History := history ++ [.received (.changed [default]) true]
    ∃ q, Run 1 history q true ∧ history.Lost ∧ q.resume.1 = .event (.changed [default]) ∧
      Run 1 later q.resume.2 false ∧ later.Untold ∧ q.resume.2.entries = [] := by
  intro change history later
  have blocked : Run 1 [.blocked] (.new 1) true := Run.start.receive
  have run := (blocked.deliver (by decide) change).deliver (by decide) change
  exact ⟨_, run, ⟨.delivered change true, by decide, rfl⟩, rfl, run.resume,
    ⟨.inl ⟨.delivered change true, by decide, rfl⟩, by decide⟩, rfl⟩

end EventQueue

end DirWatch
