import DirWatch.Proofs.Engine.Passes
import DirWatch.Proofs.Worker.Deadline

/-! # The order of pending directories

Pending directories wait in the order of their first marks, each once. A flush passes over them in
this order and leaves none of them pending; a rescan adds what is registered, a directory before
those below it. -/

namespace DirWatch

variable {σ : Type}

/-! ## Paths in their order -/

namespace Path

theorem same_comm (p q : Path) : p.same q = q.same p := BEq.comm

theorem same_congr_left {p q : Path} (h : p.same q = true) (dir : Path) :
    dir.same p = dir.same q := by
  rw [same, same, same_iff.1 h]

/-- A list is not before its beginnings. -/
theorem compare_ne_lt_of_isPrefix {α : Type} [Ord α] [Std.ReflOrd α] {l m : List α} (h : l <+: m) :
    compare m l ≠ .lt := by
  obtain ⟨rest, rfl⟩ := h
  change List.compareLex compare (l ++ rest) l ≠ .lt
  induction l with
  | nil =>
      intro h
      cases rest <;> cases h
  | cons a l ih =>
      have ha : compare a a = .eq := Std.ReflCmp.compare_self
      rw [List.cons_append, List.compareLex_cons_cons, ha]
      exact ih

/-- A path comes after what it is below. -/
theorem not_startsWith_of_lt {p q : Path} (h : compare p q = .lt) : p.startsWith q = false := by
  rw [← Bool.not_eq_true, startsWith, List.isPrefixOf_iff_prefix]
  exact fun hpre => compare_ne_lt_of_isPrefix hpre h

end Path

/-- The registered directories are listed in path order, each after those that it is below. -/
theorem Registry.pairwise_paths (r : Registry σ) :
    r.paths.Pairwise fun p q => compare p q = .lt ∧ p.startsWith q = false := by
  refine List.pairwise_map.2 (r.directories.ordered.imp fun {a b} h => ?_)
  exact ⟨h, Path.not_startsWith_of_lt h⟩

/-! ## Marks -/

namespace PendingSet

theorem contains_insert (s : PendingSet) (now : Instant) (dir q : Path) :
    (s.insert now dir).2.contains q = true ↔ s.contains q = true ∨ q.same dir = true := by
  rw [contains_iff, order_insert]
  split
  · next h =>
      obtain ⟨p, hp, hs⟩ := contains_iff.1 h
      rw [← contains_iff]
      refine ⟨.inl, fun hq => hq.elim id fun hq => contains_iff.2 ⟨p, hp, ?_⟩⟩
      rw [Path.same_comm, Path.same_congr_left hq, Path.same_comm]
      exact hs
  · rw [contains_iff]
    simp [or_and_right, exists_or]

theorem insert_fst (s : PendingSet) (now : Instant) (dir : Path) :
    (s.insert now dir).1 = !s.contains dir := by
  by_cases h : s.members.contains dir = true <;> simp [insert, contains, h]

/-- Marks keep what is pending in its place. -/
theorem order_foldl_insert (marks : List (Instant × Path)) (s : PendingSet) :
    (marks.foldl (fun s m => (s.insert m.1 m.2).2) s).order =
      List.eraseDupsBy.loop Path.same (marks.map (·.2)) s.order.reverse := by
  induction marks generalizing s with
  | nil => exact (List.reverse_reverse _).symm
  | cons m marks ih =>
      have hany : s.contains m.2 = s.order.reverse.any m.2.same := by
        rw [List.any_reverse, Bool.eq_iff_iff, contains_iff, List.any_eq_true]
      rw [List.foldl_cons, ih, order_insert, List.map_cons, List.eraseDupsBy.loop, ← hany]
      cases s.contains m.2 <;> simp

/-- The order is that of the first marks. -/
theorem order_ofMarks (marks : List (Instant × Path)) :
    (ofMarks marks).order = (marks.map (·.2)).eraseDupsBy Path.same :=
  order_foldl_insert marks {}

theorem pairwise_ofMarks (marks : List (Instant × Path)) :
    (ofMarks marks).order.Pairwise fun p q => p.same q = false := by
  induction marks using List.reverseRecOn with
  | nil => exact .nil
  | append_singleton marks m ih =>
      rw [ofMarks_concat, order_insert]
      split
      · exact ih
      · next h =>
          refine List.pairwise_append.2 ⟨ih, List.pairwise_singleton _ _, fun p hp q hq => ?_⟩
          obtain rfl := List.mem_singleton.1 hq
          rw [← Bool.not_eq_true, Path.same_comm]
          exact fun hs => h (contains_iff.2 ⟨p, hp, hs⟩)

/-- Nothing is due exactly while nothing is pending. -/
theorem deadline_ofMarks_eq_none_iff (marks : List (Instant × Path)) (idle longest : Nat) :
    (ofMarks marks).deadline idle longest = none ↔ (ofMarks marks).order = [] := by
  rw [← List.isEmpty_iff, ← isEmpty, isEmpty_ofMarks, List.isEmpty_iff]
  constructor
  · intro h
    cases marks with
    | nil => rfl
    | cons first marks =>
        have hlast := List.getLast?_eq_getLast_of_ne_nil (List.cons_ne_nil first marks)
        rw [deadline_ofMarks rfl hlast] at h
        cases h
  · rintro rfl
    rfl

/-- Directories that are marked together follow what is pending, in their order. -/
theorem order_insertAll (s : PendingSet) (now : Instant) {dirs : List Path}
    (h : dirs.Pairwise fun p q => p.same q = false) :
    (s.insertAll now dirs).order = s.order ++ dirs.filter fun dir => !s.contains dir := by
  induction dirs generalizing s with
  | nil => exact (List.append_nil _).symm
  | cons dir dirs ih =>
      obtain ⟨hdir, hdirs⟩ := List.pairwise_cons.1 h
      have hrest : dirs.filter (fun q => !(s.insert now dir).2.contains q) =
          dirs.filter fun q => !s.contains q := by
        refine List.filter_congr fun q hq => ?_
        rw [Bool.not_inj_iff, Bool.eq_iff_iff, contains_insert, Path.same_comm, hdir q hq]
        simp
      have hinsert := ih (s.insert now dir).2 hdirs
      rw [hrest, order_insert] at hinsert
      refine hinsert.trans ?_
      cases hc : s.contains dir <;> simp [hc]

end PendingSet

namespace Worker

/-! ## Runs with any clock -/

/-- The runs of a worker, each with the marks since its last flush. The clock shows anything. -/
inductive Course : Worker σ → List (Instant × Path) → Prop
  | start (registry : Registry σ) (queue : EventQueue) (backend : Backend)
      (config : EngineConfig) : Course (start registry queue backend config) []
  | outside {w v : Worker σ} {marks : List (Instant × Path)} (h : Course w marks)
      (change : w.Outside v) : Course v marks
  | work {w : Worker σ} {marks : List (Instant × Path)} (h : Course w marks) (host : Host σ) :
      Course (w.step host).2 (w.marksAfter marks (w.step host).1)
  | clock {w : Worker σ} {marks : List (Instant × Path)} (h : Course w marks) (now : Instant) :
      Course { w with now } marks

variable {host : Host σ} {w : Worker σ} {marks : List (Instant × Path)}

/-- A worker that is asked for a rescan marks everything and flushes. -/
def rescan (host : Host σ) (w : Worker σ) (rest : List Command) : Except Error Unit × Worker σ :=
  (markAll { w.awake with commands := rest }).flush host

theorem step_of_rescan {reply : Reply}
    (h : (w.step host).1 = some (.answered .rescan reply)) :
    w.isRunning = true ∧ reply = .rescanned ∧ ∃ rest,
      (w.step host).2 = (w.rescan host rest).2.conclude (w.rescan host rest).1 := by
  have hs := steps_step host w
  generalize w.step host = r at h hs
  cases hs with
  | @answered c rest reply' result v running commands answer =>
      obtain ⟨rfl, rfl⟩ : c = .rescan ∧ reply' = reply := by simpa using h
      obtain ⟨rfl, hv⟩ := Prod.mk.inj answer
      refine ⟨running, rfl, rest, ?_⟩
      rw [rescan, hv]
  | _ => simp at h

theorem step_of_flushed (h : (w.step host).1 = some .flushed) : w.isRunning = true ∧
    (w.step host).2 = (w.awake.flush host).2.conclude (w.awake.flush host).1 := by
  have hs := steps_step host w
  generalize w.step host = r at h hs
  cases hs with
  | @flushed result v running flush =>
      refine ⟨running, ?_⟩
      rw [flush]
  | _ => simp at h

/-- A step adds the marks of an event, or takes all of them away. -/
theorem pending_step (h : w.pending = .ofMarks marks) (host : Host σ) :
    (w.step host).2.pending = .ofMarks (w.marksAfter marks (w.step host).1) := by
  have hrescan := @step_of_rescan σ host w
  have hflushed := @step_of_flushed σ host w
  have hreceived := @pending_step_of_received σ host w
  have hs := steps_step host w
  generalize w.step host = r at hs hrescan hflushed hreceived
  cases hs with
  | ended | cancelled | blocked | closed => exact h
  | @answered c rest reply result v running commands answer =>
      cases c with
      | stats | snapshot =>
          obtain ⟨-, rfl, rfl⟩ := Prod.mk.inj answer
          exact h
      | rescan =>
          obtain ⟨-, -, rest', hv⟩ := hrescan rfl
          dsimp only at hv
          rw [hv, pending_conclude]
          exact pending_flush host _
  | flushed =>
      obtain ⟨-, hv⟩ := hflushed rfl
      dsimp only at hv
      rw [hv, pending_conclude]
      exact pending_flush host _
  | @received e queue result v running reception handle =>
      refine (hreceived rfl).trans ?_
      rw [h, PendingSet.insertAll_ofMarks]
      rfl

/-- What is pending was marked since the last flush. -/
theorem Course.pending (h : Course w marks) : w.pending = .ofMarks marks := by
  induction h with
  | start registry queue backend config => rfl
  | outside h change ih => cases change <;> exact ih
  | work h host ih => exact pending_step ih host
  | clock h now ih => exact ih

/-! ## Flushes -/

/-- A step passes over a batch. The worker goes on, or a fatal failure ends a pass and the worker,
and the listener is told. -/
inductive Flushes (host : Host σ) (s : Engine σ) (batch : List Path) (v : Worker σ) : Prop
  | completed (passes : Engine.Passes host batch s v.engine) (running : v.isRunning = true)
      (begun : v.registry.begun = s.registry.begun ++ batch)
  | stopped {before after : List Path} {p : Path} {t u : Engine σ} {e : Error}
      (split : batch = before ++ p :: after) (passes : Engine.Passes host before s t)
      (failure : t.diff host p = (.error e, u)) (fatal : e.isFatal = true)
      (told : v.registry = u.registry.record (.notified (.failed u.registry.root e)))
      (ended : v.isRunning = false) (begun : v.registry.begun = s.registry.begun ++ (before ++ [p]))

/-- A flush passes over what is pending. -/
theorem flushes_conclude_flush (host : Host σ) (hr : w.isRunning = true) :
    Flushes host w.engine w.pending.order ((w.flush host).2.conclude (w.flush host).1) := by
  have hrun : (w.flush host).2.isRunning = true := (SameInput.flush host w).2.2.trans hr
  have heq := flush_eq w host
  have hends := Engine.passesEnd_inTurn host w.pending.order w.engine
  generalize w.flush host = r at heq hrun
  generalize inTurn (Engine.diff host) w.pending.order w.engine = turned at heq hends
  obtain ⟨result, v⟩ := r
  obtain ⟨rfl, hv⟩ : result = turned.1 ∧ v.engine = turned.2 := heq
  cases hends with
  | completed passes =>
      obtain rfl : v.engine = _ := hv
      exact .completed passes hrun passes.begun
  | @stopped before after p t u e split passes failure fatal =>
      obtain rfl : v.engine = u := hv
      have hp := Engine.begun_diff host p t
      rw [failure, passes.begun, List.append_assoc] at hp
      refine .stopped split passes failure fatal rfl rfl ?_
      exact (v.registry.begun_record _).trans ((List.append_nil _).trans hp)

/-- The batch of a rescan: what is pending, and then the rest of what is registered. -/
def batch (w : Worker σ) : List Path :=
  w.pending.order ++ w.registry.paths.filter fun dir => !w.pending.contains dir

theorem order_markAll (w : Worker σ) : w.markAll.pending.order = w.batch := by
  rw [pending_markAll_eq]
  refine PendingSet.order_insertAll w.pending w.now (w.registry.pairwise_paths.imp ?_)
  rintro p q ⟨hlt, -⟩
  rw [← Bool.not_eq_true, Path.same_iff, ← Path.compare_eq_iff, hlt]
  simp

/-- A rescan passes over its batch. -/
theorem flushes_of_rescan {reply : Reply} (h : (w.step host).1 = some (.answered .rescan reply)) :
    Flushes host w.engine w.batch (w.step host).2 := by
  obtain ⟨hr, -, commands, hv⟩ := step_of_rescan h
  have hflushes := flushes_conclude_flush (w := markAll { w.awake with commands }) host
    ((SameInput.markAll _).2.2.trans hr)
  rw [engine_markAll, order_markAll, ← rescan, ← hv] at hflushes
  exact hflushes

/-- What is pending, at one moment of a run with the marks since the last flush. -/
structure InOrder (w : Worker σ) (marks : List (Instant × Path)) : Prop where
  /-- The marked directories are pending, in the order of their first marks. -/
  order : w.pending.order = (marks.map (·.2)).eraseDupsBy Path.same
  /-- No directory is pending twice. -/
  distinct : w.pending.order.Pairwise fun p q => p.same q = false
  /-- The members are those of the order. -/
  members : ∀ dir, w.pending.members.contains dir = true ↔
    ∃ q ∈ w.pending.order, dir.same q = true
  /-- A mark tells whether the directory was not pending yet. -/
  inserted : ∀ now dir, (w.pending.insert now dir).1 = true ↔
    ∀ q ∈ w.pending.order, dir.same q = false
  /-- Nothing is due exactly while nothing is pending. -/
  deadline : ∀ idle longest, w.pending.deadline idle longest = none ↔ w.pending.order = []
  /-- A flush passes over what is pending and leaves nothing pending. -/
  flush : ∀ host : Host σ, (w.step host).1 = some .flushed →
    Flushes host w.engine w.pending.order (w.step host).2 ∧ (w.step host).2.pending = {}
  /-- A rescan passes over what was pending, then over the rest of what is registered. -/
  rescan : ∀ (host : Host σ) reply, (w.step host).1 = some (.answered .rescan reply) →
    Flushes host w.engine w.batch (w.step host).2 ∧ (w.step host).2.pending = {}
  /-- What is registered comes in path order, after the registered directories that it is below. -/
  paths : w.registry.paths.Pairwise fun p q => compare p q = .lt ∧ p.startsWith q = false

/-- Over every run, what is pending is an ordered set, and flushes empty it in its order. -/
theorem inOrder_of_course (h : Course w marks) : w.InOrder marks := by
  have hp := h.pending
  refine ⟨?order, ?distinct, ?members, ?inserted, ?deadline, ?flush, ?rescan,
    w.registry.pairwise_paths⟩
  case order => rw [hp, PendingSet.order_ofMarks]
  case distinct =>
    rw [hp]
    exact PendingSet.pairwise_ofMarks marks
  case members => exact fun dir => PendingSet.contains_iff
  case inserted =>
    intro now dir
    rw [PendingSet.insert_fst, Bool.not_eq_true', ← Bool.not_eq_true, PendingSet.contains_iff]
    simp
  case deadline =>
    rw [hp]
    exact PendingSet.deadline_ofMarks_eq_none_iff marks
  case flush =>
    intro host hf
    obtain ⟨hr, hv⟩ := step_of_flushed hf
    rw [hv, pending_conclude]
    exact ⟨flushes_conclude_flush (w := w.awake) host hr, pending_flush host _⟩
  case rescan =>
    intro host reply ha
    refine ⟨flushes_of_rescan ha, ?_⟩
    obtain ⟨-, -, commands, hv⟩ := step_of_rescan ha
    rw [hv, pending_conclude]
    exact pending_flush host _

/-- A directory is pending once something was created in it. -/
theorem inOrder_of_course_shelf :
    let r := Path.ofString "/r"
    let w : Worker Unit := start Engine.emptyRoot.registry (.new 1) .native {}
    let v := { w with queue := w.queue.accept (.event [.ofString "/r/a", r] false) }
    Course (v.step (Engine.shelf true)).2 [(0, r), (0, r)] ∧
      (v.step (Engine.shelf true)).2.InOrder [(0, r), (0, r)] := by
  intro r w v
  have hw : Course w [] := .start _ _ _ _
  have hmarks : v.marksAfter [] (v.step (Engine.shelf true)).1 = [(0, r), (0, r)] := by
    decide +kernel
  have hv : Course (v.step (Engine.shelf true)).2 [(0, r), (0, r)] :=
    hmarks ▸ (hw.outside (.deliver _)).work (Engine.shelf true)
  exact ⟨hv, inOrder_of_course hv⟩

end Worker

end DirWatch
