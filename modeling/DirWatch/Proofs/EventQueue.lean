import DirWatch.EventQueue
import DirWatch.Proofs.Path.Below

/-! # What waits in the queue

A delivery that concerns a directory waits in the queue, as an event or as a noted loss, until the
consumer receives an event that concerns the directory. -/

namespace DirWatch

/-- Activity at a path concerns the directory that lists it and the path itself. -/
def Path.Touches (p dir : Path) : Prop :=
  p.same dir = true ∨ ∃ q, p.parent? = some q ∧ q.same dir = true

/-- What a watch service delivers. -/
inductive Delivery where
  | notice (n : Notice)
  | complaint (c : Complaint)
  deriving DecidableEq

namespace Delivery

def signal : Delivery → Signal
  | notice n => n.signal
  | complaint c => c.signal

/-- A notice that is not noise and a complaint concern what their paths touch, and a call to read
everything again concerns every directory. -/
def Concerns (dir : Path) : Delivery → Prop
  | notice n => n.rescan = true ∨ n.kind.isNoise = false ∧ ∃ p ∈ n.paths, p.Touches dir
  | complaint c => ∃ p ∈ c.paths, p.Touches dir

end Delivery

/-- The signals that concern a directory. -/
def Signal.Concerns (dir : Path) : Signal → Prop
  | .event paths _ => ∃ p ∈ paths, p.Touches dir
  | .loss => True
  | _ => False

/-- The events that concern a directory. -/
def NativeEvent.Concerns (dir : Path) : NativeEvent → Prop
  | .changed paths | .removed paths => ∃ p ∈ paths, p.Touches dir
  | .overflow => True
  | .failed _ => False

/-- What concerns a directory is passed on as such, unless it is a failure. -/
theorem Delivery.Concerns.signal {d : Delivery} {dir : Path} (h : d.Concerns dir)
    (hf : ∀ m, d.signal ≠ .failure m) : d.signal.Concerns dir := by
  cases d with
  | notice n =>
      change n.signal.Concerns dir
      unfold Notice.signal
      rcases h with hr | ⟨hk, p, hp, ht⟩
      · rw [if_pos hr]
        trivial
      · have hne : n.paths.isEmpty = false := List.isEmpty_eq_false_iff_exists_mem.2 ⟨p, hp⟩
        split
        · trivial
        · rw [if_neg (by simp [hk, hne])]
          exact ⟨p, hp, ht⟩
  | complaint c =>
      obtain ⟨p, hp, ht⟩ := h
      have hne : c.paths.isEmpty = false := List.isEmpty_eq_false_iff_exists_mem.2 ⟨p, hp⟩
      change c.signal.Concerns dir
      change ∀ m, c.signal ≠ .failure m at hf
      unfold Complaint.signal at hf ⊢
      split
      · next hk =>
          simp only [hk] at hf
          exact absurd rfl (hf _)
      · rw [if_pos (by simp [hne])]
        exact ⟨p, hp, ht⟩

namespace EventQueue

/-- Something that concerns a directory waits: an event in the queue, or a loss. -/
def Awaits (q : EventQueue) (dir : Path) : Prop :=
  q.overflowed = true ∨
    ∃ paths removal, .event paths removal ∈ q.entries ∧ ∃ p ∈ paths, p.Touches dir

/-- A queue with a consumer and with room. If the consumer is blocked, a loss has woken it. -/
structure Alert (q : EventQueue) (blocked : Bool) : Prop where
  hasSource : q.hasSource = true
  room : 0 < q.capacity
  woken : blocked = true → q.overflowed = true → q.entries ≠ []

/-! ## Deliveries -/

section Deliveries

variable {q : EventQueue} {dir : Path} {blocked : Bool}

/-- A full queue holds something. -/
theorem Alert.ne_nil_of_full (h : q.Alert blocked) (hf : q.isFull = true) : q.entries ≠ [] := by
  intro he
  have hr := h.room
  rw [isFull, decide_eq_true_eq, he] at hf
  simp only [List.length_nil] at hf
  omega

/-- A marker finds its place, or the queue is full. -/
theorem wake_cases (q : EventQueue) (h : q.hasSource = true) :
    (q.isFull = true ∧ q.wake = q) ∨ q.wake = { q with entries := q.entries ++ [.marker] } := by
  unfold wake
  rw [h]
  cases hf : q.isFull
  · exact .inr (by simp)
  · exact .inl ⟨rfl, by simp⟩

theorem Alert.wake (h : q.Alert false) : q.wake.Alert true := by
  rcases wake_cases q h.hasSource with ⟨hf, he⟩ | he
  · rw [he]
    exact ⟨h.hasSource, h.room, fun _ _ => h.ne_nil_of_full hf⟩
  · rw [he]
    exact ⟨h.hasSource, h.room, by simp⟩

theorem Alert.of_woken (h : q.Alert true) : q.Alert blocked :=
  ⟨h.hasSource, h.room, fun _ => h.woken rfl⟩

theorem Alert.of_running (h : q.Alert blocked) : q.Alert false := ⟨h.hasSource, h.room, nofun⟩

theorem Alert.lose (h : q.Alert blocked) : q.lose.Alert blocked := by
  unfold EventQueue.lose
  split
  · exact h
  · exact (Alert.wake (q := { q with overflowed := true }) ⟨h.hasSource, h.room, nofun⟩).of_woken

theorem Alert.fail (h : q.Alert blocked) (message : String) : (q.fail message).Alert blocked := by
  unfold EventQueue.fail
  split
  · exact h
  · exact (Alert.wake (q := { q with failure := some message })
      ⟨h.hasSource, h.room, nofun⟩).of_woken

theorem accept_event (h : q.hasSource = true) (paths : List Path) (removal : Bool) :
    q.accept (.event paths removal) = if q.isFull then q.lose
      else { q with entries := q.entries ++ [.event paths removal] } := by
  rw [EventQueue.accept, h]
  rfl

/-- Deliveries keep a queue alert. -/
theorem Alert.accept (h : q.Alert blocked) (s : Signal) : (q.accept s).Alert blocked := by
  cases s with
  | ignore => exact h
  | loss => exact h.lose
  | failure message => exact h.fail message
  | event paths removal =>
      rw [accept_event h.hasSource]
      split
      · exact h.lose
      · exact ⟨h.hasSource, h.room, by simp⟩

theorem entries_wake (q : EventQueue) {e : QueueEntry} (he : e ∈ q.entries) : e ∈ q.wake.entries := by
  unfold wake
  split
  · exact he
  · exact List.mem_append_left _ he

theorem overflowed_wake (q : EventQueue) : q.wake.overflowed = q.overflowed := by
  unfold wake
  split <;> rfl

theorem overflowed_lose (q : EventQueue) : q.lose.overflowed = true := by
  unfold lose
  split
  · assumption
  · exact overflowed_wake _

/-- What waits goes on waiting whatever is delivered. -/
theorem Awaits.accept (h : q.Awaits dir) (ha : q.Alert blocked) (s : Signal) :
    (q.accept s).Awaits dir := by
  cases s with
  | ignore => exact h
  | loss => exact .inl (overflowed_lose q)
  | failure message =>
      change (q.fail message).Awaits dir
      unfold fail
      split
      · exact h
      · rcases h with ho | ⟨paths, removal, he, hp⟩
        · exact .inl ((overflowed_wake _).trans ho)
        · exact .inr ⟨paths, removal, entries_wake { q with failure := some message } he, hp⟩
  | event paths removal =>
      rw [accept_event ha.hasSource]
      split
      · exact .inl (overflowed_lose q)
      · rcases h with ho | ⟨paths, removal, he, hp⟩
        · exact .inl ho
        · exact .inr ⟨paths, removal, List.mem_append_left _ he, hp⟩

/-- A signal that concerns a directory waits from then on, also if the queue is full. -/
theorem awaits_accept (h : q.Alert blocked) {s : Signal} (hs : s.Concerns dir) :
    (q.accept s).Awaits dir := by
  cases s with
  | ignore => cases hs
  | failure => cases hs
  | loss => exact .inl (overflowed_lose q)
  | event paths removal =>
      rw [accept_event h.hasSource]
      split
      · exact .inl (overflowed_lose q)
      · exact .inr ⟨paths, removal, List.mem_append_right _ List.mem_cons_self, hs⟩

end Deliveries

/-! ## Receptions -/

section Receptions

variable {q : EventQueue} {dir : Path}

/-- An event in a queue is the next one, or it stays behind the next one. -/
theorem next_of_mem {l : List QueueEntry} {paths : List Path} {removal : Bool}
    (h : .event paths removal ∈ l) (ht : ∃ p ∈ paths, p.Touches dir) :
    ∃ e rest, next l = some (e, rest) ∧ (e.Concerns dir ∨ .event paths removal ∈ rest) := by
  induction l with
  | nil => cases h
  | cons a l ih =>
      rcases List.mem_cons.1 h with rfl | hl
      · cases removal
        · exact ⟨.changed paths, l, rfl, .inl ht⟩
        · exact ⟨.removed paths, l, rfl, .inl ht⟩
      · match a with
        | .marker => exact ih hl
        | .event ps false => exact ⟨.changed ps, l, rfl, .inr hl⟩
        | .event ps true => exact ⟨.removed ps, l, rfl, .inr hl⟩

/-- A marker at the front only wakes the consumer. -/
theorem resume_cases (q : EventQueue) :
    (∃ rest, q.entries = .marker :: rest ∧ q.resume = { q with entries := rest }.receive) ∨
      (∀ rest, q.entries ≠ .marker :: rest) ∧ q.resume = q.takeNext := by
  unfold resume
  split
  · next rest hq => exact .inl ⟨rest, hq, rfl⟩
  · next hq => exact .inr ⟨hq, rfl⟩

/-- A queue without a marker at its front holds an event or nothing. -/
theorem next_of_not_marker {l : List QueueEntry} (h : ∀ rest, l ≠ .marker :: rest) :
    l = [] ∨ ∃ e rest, next l = some (e, rest) := by
  match l with
  | [] => exact .inl rfl
  | .marker :: rest => exact absurd rfl (h rest)
  | .event ps false :: rest => exact .inr ⟨_, rest, rfl⟩
  | .event ps true :: rest => exact .inr ⟨_, rest, rfl⟩

/-- As long as something waits, an event is received, and either it concerns the directory or the
wait goes on. -/
def Serves (dir : Path) (r : Reception × EventQueue) : Prop :=
  ∃ e, r.1 = .event e ∧ (e.Concerns dir ∨ r.2.Awaits dir)

theorem serves_takeNext {paths : List Path} {removal : Bool} (h : .event paths removal ∈ q.entries)
    (ht : ∃ p ∈ paths, p.Touches dir) : Serves dir q.takeNext := by
  obtain ⟨e, rest, hn, hc⟩ := next_of_mem h ht
  unfold takeNext
  rw [hn]
  exact ⟨e, rfl, hc.imp id fun he => .inr ⟨paths, removal, he, ht⟩⟩

theorem serves_receive (h : q.Awaits dir) : Serves dir q.receive := by
  unfold receive
  split
  · exact ⟨_, rfl, .inr h⟩
  · split
    · exact ⟨.overflow, rfl, .inl trivial⟩
    · next ho =>
        obtain ⟨paths, removal, he, ht⟩ := h.resolve_left ho
        exact serves_takeNext he ht

theorem serves_resume (ha : q.Alert true) (h : q.Awaits dir) : Serves dir q.resume := by
  rcases resume_cases q with ⟨rest, hq, hr⟩ | ⟨hq, hr⟩ <;> rw [hr]
  · refine serves_receive (h.imp id ?_)
    rintro ⟨paths, removal, he, ht⟩
    rw [hq] at he
    exact ⟨paths, removal, (List.mem_cons.1 he).resolve_left (by simp), ht⟩
  · rcases h with ho | ⟨paths, removal, he, ht⟩
    · -- the loss has woken the consumer, and not by a marker
      obtain ⟨e, rest, hn⟩ := (next_of_not_marker hq).resolve_left (ha.woken rfl ho)
      unfold takeNext
      rw [hn]
      exact ⟨e, rfl, .inr (.inl ho)⟩
    · exact serves_takeNext he ht

theorem Alert.takeNext {blocked : Bool} (h : q.Alert blocked) : q.takeNext.2.Alert false := by
  unfold EventQueue.takeNext
  split <;> exact ⟨h.hasSource, h.room, nofun⟩

theorem Alert.receive {blocked : Bool} (h : q.Alert blocked) : q.receive.2.Alert false := by
  unfold EventQueue.receive
  split
  · exact h.of_running
  · split
    · exact ⟨h.hasSource, h.room, nofun⟩
    · exact h.takeNext

theorem Alert.resume {blocked : Bool} (h : q.Alert blocked) : q.resume.2.Alert false := by
  rcases resume_cases q with ⟨rest, -, hr⟩ | ⟨-, hr⟩ <;> rw [hr]
  · have hrest : Alert { q with entries := rest } false := ⟨h.hasSource, h.room, nofun⟩
    exact hrest.receive
  · exact h.takeNext

theorem overflowed_takeNext (q : EventQueue) : q.takeNext.2.overflowed = q.overflowed := by
  unfold takeNext
  split <;> rfl

theorem overflowed_of_receive (h : q.receive.1 = .blocked) : q.receive.2.overflowed = false := by
  unfold receive at h ⊢
  split at h
  · cases h
  · split at h
    · cases h
    · next hf ho =>
        simp only [hf, ho]
        exact (overflowed_takeNext q).trans ((Bool.not_eq_true _).mp ho)

/-- A consumer that is blocked again has not overlooked a loss. -/
theorem overflowed_of_resume (ha : q.Alert true) (h : q.resume.1 = .blocked) :
    q.resume.2.overflowed = false := by
  rcases resume_cases q with ⟨rest, -, hr⟩ | ⟨hq, hr⟩ <;> rw [hr] at h ⊢
  · exact overflowed_of_receive h
  · rw [overflowed_takeNext]
    rcases next_of_not_marker hq with he | ⟨e, rest, hn⟩
    · exact (Bool.not_eq_true _).mp fun ho => ha.woken rfl ho he
    · unfold takeNext at h
      rw [hn] at h
      cases h

end Receptions

end EventQueue

end DirWatch
