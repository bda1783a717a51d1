import DirWatch.Engine.Pass
import DirWatch.Proofs.Path.Relative
import DirWatch.Proofs.Registry.Forest

/-! # What a machine answers, and what the engine makes of it

What is known of a machine is a set of laws on its answers, which may depend on the place asked
about. The primitive operations of the engine are described here once: what they do to the forest,
and what they report. -/

namespace DirWatch

variable {σ : Type}

/-! ## Laws -/

/-- What is known of the answers of a machine, in states that no request leaves. Paths are asked
about as far as they are written well, and answers are told by the names below the root. A tidy
engine marks registered directories alone. -/
structure HostLaws (host : Host σ) (root : Path) (filter : Filter) where
  tidy : Prop
  holds : σ → Prop
  written : Path → Prop
  lists : List Name → Except Error (Listing Name) → Prop
  watches : List Name → Except Error Unit → Prop
  written_child : ∀ p n, written p → written (p.child n)
  list : ∀ (r : Registry σ) p y, r.root = root → r.filter = filter → written p →
    Path.At root p y → holds r.machine →
    lists y (r.list host p).1 ∧ holds (r.list host p).2.machine
  watch : ∀ s p y, written p → Path.At root p y → holds s →
    watches y (host.watch p s).1 ∧ holds (host.watch p s).2
  unwatch : ∀ s p y, written p → Path.At root p y → holds s → holds (host.unwatch p s).2

namespace HostLaws

/-- Of any machine it is known that it answers. -/
def any (host : Host σ) (root : Path) (filter : Filter) (tidy : Prop) :
    HostLaws host root filter where
  tidy := tidy
  holds _ := True
  written _ := True
  lists _ _ := True
  watches _ _ := True
  written_child _ _ _ := trivial
  list _ _ _ _ _ _ _ _ := ⟨trivial, trivial⟩
  watch _ _ _ _ _ _ := ⟨trivial, trivial⟩
  unwatch _ _ _ _ _ _ := trivial

variable {host : Host σ} {root : Path} {filter : Filter}

/-- Where a directory may fail to be registered. -/
def MayFail (L : HostLaws host root filter) (y : List Name) : Prop :=
  (∃ e, L.watches y (.error e)) ∨ ∃ e, L.lists y (.error e)

/-- Why a directory is taken to be gone: it could not be looked at, or its parent does not show
it. -/
def Gone (L : HostLaws host root filter) (t : List Name) : Prop :=
  L.MayFail t ∨ ∃ y n l, t = y ++ [n] ∧ L.lists y (.ok l) ∧
    (l.entries.get? n).map (·.isDirectory) ≠ some true

/-- An event that an answer of the machine gives a reason for. -/
def Grounded (L : HostLaws host root filter) : Event → Prop
  | .created y n k => ∃ l i, L.lists y (.ok l) ∧ l.entries.get? n = some i ∧ i.known = k
  | .updated y n t => ∃ l i, L.lists y (.ok l) ∧ l.entries.get? n = some i ∧ i.known = .file t
  | .deleted y n f => (∃ l, L.lists y (.ok l) ∧ (l.entries.get? n).map (·.isDirectory) ≠ some f) ∨
      ∃ t, t <+: y ∧ L.Gone t

/-- A path that leads to a place and is written well. -/
def Names (L : HostLaws host root filter) (p : Path) (y : List Name) : Prop :=
  Path.At root p y ∧ L.written p

theorem Names.child {L : HostLaws host root filter} {p : Path} {y : List Name}
    (h : L.Names p y) (n : Name) : L.Names (p.child n) (y ++ [n]) :=
  ⟨h.1.child n, L.written_child p n h.2⟩

/-- A registry that the laws are about: its directories are those below the root. -/
structure Fits (L : HostLaws host root filter) (r : Registry σ) : Prop where
  root_eq : r.root = root
  filter_eq : r.filter = filter
  machine : L.holds r.machine
  inside : ∀ p, r.contains p = true → ∃ y, Path.At root p y

end HostLaws

/-! ## Reports -/

/-- The notification that an action is, if it is one. -/
def Action.notification? : Action → Option Notification
  | .notified n => some n
  | _ => none

namespace Registry

/-- What the listener was told, in order. -/
def notifications (r : Registry σ) : List Notification :=
  r.journal.filterMap Action.notification?

theorem notifications_record (r : Registry σ) (a : Action) :
    (r.record a).notifications = r.notifications ++ a.notification?.toList := by
  simp only [notifications, record, List.filterMap_append]
  cases h : a.notification? <;> simp [h]

/-- One registry comes from another by reporting some events, and nothing else. -/
def Reports (r r' : Registry σ) (es : List Event) : Prop :=
  ∃ cs : List Change, r'.notifications = r.notifications ++ cs.map .changed ∧
    cs.map Change.view = es.map Event.view

namespace Reports

theorem nil {r r' : Registry σ} (h : r'.notifications = r.notifications) : Reports r r' [] :=
  ⟨[], by simp [h], rfl⟩

theorem append {r r' r'' : Registry σ} {es fs : List Event} (h : Reports r r' es)
    (h' : Reports r' r'' fs) : Reports r r'' (es ++ fs) := by
  obtain ⟨cs, hc, hv⟩ := h
  obtain ⟨ds, hd, hw⟩ := h'
  exact ⟨cs ++ ds, by rw [hd, hc, List.map_append, List.append_assoc], by simp [hv, hw]⟩

end Reports

/-! ## Requests to the machine -/

section Requests

variable (host : Host σ) (r : Registry σ) (dir : Path)

@[simp] theorem list_notifications : (r.list host dir).2.notifications = r.notifications :=
  (notifications_record _ _).trans (List.append_nil _)

@[simp] theorem watch_notifications : (r.watch host dir).2.notifications = r.notifications :=
  (notifications_record _ _).trans (List.append_nil _)

@[simp] theorem unwatch_notifications : (r.unwatch host dir).2.notifications = r.notifications :=
  (notifications_record _ _).trans (List.append_nil _)

theorem journal_list :
    (r.list host dir).2.journal = r.journal ++ [.listed dir (r.list host dir).1] := rfl

theorem journal_watch :
    (r.watch host dir).2.journal = r.journal ++ [.watched dir (r.watch host dir).1] := rfl

theorem journal_unwatch :
    (r.unwatch host dir).2.journal = r.journal ++ [.unwatched dir (r.unwatch host dir).1] := rfl

end Requests

/-- What the requests of a registration keep, and its entry in the end, registering keeps. -/
theorem register_keeps {host : Host σ} {dir : Path} {I : Registry σ → Prop}
    (watch : ∀ r, I r → I (r.watch host dir).2) (list : ∀ r, I r → I (r.list host dir).2)
    (unwatch : ∀ r, I r → I (r.unwatch host dir).2)
    (insert : ∀ r r' l, I r → I r' → r.list host dir = (.ok l, r') →
      I { r' with directories := r'.directories.insert dir (.ofListing l) })
    {r : Registry σ} (hr : I r) : I (r.register host dir).2 := by
  unfold register
  split
  · exact hr
  have hw := watch r hr
  split
  · next he =>
      rw [he] at hw
      exact hw
  next r₁ he =>
  rw [he] at hw
  have hl := list r₁ hw
  split
  · next he =>
      rw [he] at hl
      exact unwatch _ hl
  · next l r₂ he =>
      rw [he] at hl
      exact insert r₁ r₂ l hw hl he

/-- A registry of the same root that has told the same. -/
def Quiet (r r' : Registry σ) : Prop := r'.root = r.root ∧ r'.notifications = r.notifications

namespace Quiet

variable {host : Host σ} {r r' : Registry σ}

theorem list (h : r.Quiet r') (p : Path) : r.Quiet (r'.list host p).2 :=
  ⟨h.1, (list_notifications host r' p).trans h.2⟩

theorem watch (h : r.Quiet r') (p : Path) : r.Quiet (r'.watch host p).2 :=
  ⟨h.1, (watch_notifications host r' p).trans h.2⟩

theorem unwatch (h : r.Quiet r') (p : Path) : r.Quiet (r'.unwatch host p).2 :=
  ⟨h.1, (unwatch_notifications host r' p).trans h.2⟩

theorem register (h : r.Quiet r') (p : Path) : r.Quiet (r'.register host p).2 :=
  register_keeps (fun _ h => h.watch p) (fun _ h => h.list p) (fun _ h => h.unwatch p)
    (fun _ _ _ _ h _ => h) h

end Quiet

/-- A directory that is registered anew was watched and then listed. -/
theorem register_eq_true {host : Host σ} {r r' : Registry σ} {p : Path}
    (h : r.register host p = (.ok true, r')) :
    ∃ l r₁ r₂, r.watch host p = (.ok (), r₁) ∧ r₁.list host p = (.ok l, r₂) ∧
      r' = { r₂ with directories := r₂.directories.insert p (.ofListing l) } := by
  unfold register at h
  split at h
  · cases h
  split at h
  · cases h
  next r₁ hw =>
  split at h
  · cases h
  · next l r₂ hl =>
      obtain ⟨-, rfl⟩ := Prod.mk.inj h
      exact ⟨l, r₁, r₂, hw, hl, rfl⟩

end Registry

namespace HostLaws

variable {host : Host σ} {root : Path} {filter : Filter} {L : HostLaws host root filter}

namespace Fits

theorem contains_iff {r : Registry σ} (h : L.Fits r) {p : Path} {y : List Name}
    (hp : Path.At root p y) : r.contains p = true ↔ r.forest y ≠ none :=
  Registry.contains_iff_forest (h.root_eq ▸ hp)

theorem get?_eq {r : Registry σ} (h : L.Fits r) {p : Path} {y : List Name}
    (hp : Path.At root p y) : r.get? p = r.forest y :=
  Registry.get?_eq_forest (h.root_eq ▸ hp)

/-- Requests to the machine leave the rest of a registry as it is. -/
theorem of_eq {r r' : Registry σ} (h : L.Fits r) (hr : r'.root = r.root)
    (hf : r'.filter = r.filter) (hd : r'.directories = r.directories)
    (hm : L.holds r'.machine) : L.Fits r' where
  root_eq := hr.trans h.root_eq
  filter_eq := hf.trans h.filter_eq
  machine := hm
  inside p hp := h.inside p (by rwa [Registry.contains, hd] at hp)

theorem list {r : Registry σ} (h : L.Fits r) {p : Path} {y : List Name} (hp : L.Names p y) :
    L.Fits (r.list host p).2 ∧ L.lists y (r.list host p).1 := by
  obtain ⟨hl, hm⟩ := L.list r p y h.root_eq h.filter_eq hp.2 hp.1 h.machine
  exact ⟨h.of_eq rfl rfl rfl hm, hl⟩

theorem watch {r : Registry σ} (h : L.Fits r) {p : Path} {y : List Name} (hp : L.Names p y) :
    L.Fits (r.watch host p).2 ∧ L.watches y (r.watch host p).1 := by
  obtain ⟨hw, hm⟩ := L.watch r.machine p y hp.2 hp.1 h.machine
  exact ⟨h.of_eq rfl rfl rfl hm, hw⟩

theorem unwatch {r : Registry σ} (h : L.Fits r) {p : Path} {y : List Name} (hp : L.Names p y) :
    L.Fits (r.unwatch host p).2 :=
  h.of_eq rfl rfl rfl (L.unwatch r.machine p y hp.2 hp.1 h.machine)

/-- Putting a directory into the registry. -/
theorem insert {r : Registry σ} (h : L.Fits r) {p : Path} {y : List Name}
    (hp : Path.At root p y) (d : TrackedDirectory Name) :
    L.Fits { r with directories := r.directories.insert p d } where
  root_eq := h.root_eq
  filter_eq := h.filter_eq
  machine := h.machine
  inside q hq := by
    rw [Registry.contains, OrderedMap.contains_insert, Bool.or_eq_true_iff] at hq
    rcases hq with hq | hq
    · exact ⟨y, hp.of_compare_eq (beq_iff_eq.1 hq)⟩
    · exact h.inside q hq

theorem forest_insert {r : Registry σ} (h : L.Fits r) {p : Path} {y : List Name}
    (hp : Path.At root p y) (d : TrackedDirectory Name) :
    Registry.forest { r with directories := r.directories.insert p d } =
      Function.update r.forest y (some d) := by
  funext z
  simp only [Registry.forest, Registry.get?, OrderedMap.get?_insert, Function.update_apply]
  by_cases hz : z = y
  · subst hz
    rw [h.root_eq, if_pos ((Path.at_below root z).compare_eq hp), if_pos rfl]
  · rw [if_neg hz, if_neg]
    intro he
    exact hz ((Path.at_below root z).unique (hp.of_compare_eq (h.root_eq ▸ he)))

/-- Taking a directory out of the registry. -/
theorem erase {r : Registry σ} (h : L.Fits r) (p : Path) :
    L.Fits { r with directories := r.directories.erase p } where
  root_eq := h.root_eq
  filter_eq := h.filter_eq
  machine := h.machine
  inside q hq := by
    rw [Registry.contains, OrderedMap.contains_erase, Bool.and_eq_true] at hq
    exact h.inside q hq.2

theorem forest_erase {r : Registry σ} (h : L.Fits r) {p : Path} {y : List Name}
    (hp : Path.At root p y) :
    Registry.forest { r with directories := r.directories.erase p } =
      Function.update r.forest y none := by
  funext z
  simp only [Registry.forest, Registry.get?, OrderedMap.get?_erase, Function.update_apply]
  by_cases hz : z = y
  · subst hz
    rw [h.root_eq, if_pos ((Path.at_below root z).compare_eq hp), if_pos rfl]
  · rw [if_neg hz, if_neg]
    intro he
    exact hz ((Path.at_below root z).unique (hp.of_compare_eq (h.root_eq ▸ he)))

end Fits

end HostLaws

/-! ## Primitive operations of the engine -/

namespace Engine

/-- The registered directories by the names that lead to them. -/
abbrev forest (s : Engine σ) : Forest := s.registry.forest

variable {host : Host σ} {root : Path} {filter : Filter} {L : HostLaws host root filter}

/-- An engine has reported some events and done nothing else. -/
structure Told (L : HostLaws host root filter) (s s' : Engine σ) (es : List Event) : Prop where
  fits : L.Fits s'.registry
  reports : s.registry.Reports s'.registry es
  forest : s'.forest = s.forest
  stale : s'.stale = s.stale

namespace Told

theorem append {s s' s'' : Engine σ} {es fs : List Event} (h : Told L s s' es)
    (h' : Told L s' s'' fs) : Told L s s'' (es ++ fs) where
  fits := h'.fits
  reports := h.reports.append h'.reports
  forest := h'.forest.trans h.forest
  stale := h'.stale.trans h.stale

theorem foldl {α : Type} {f : Engine σ → α → Engine σ} {event : α → Event} {l : List α}
    (step : ∀ s, ∀ a ∈ l, L.Fits s.registry → Told L s (f s a) [event a]) {s : Engine σ}
    (h : L.Fits s.registry) : Told L s (l.foldl f s) (l.map event) := by
  induction l generalizing s with
  | nil => exact ⟨h, .nil rfl, rfl, rfl⟩
  | cons a l ih =>
      have ha := step s a List.mem_cons_self h
      exact ha.append (ih (fun s b hb => step s b (List.mem_cons_of_mem a hb)) ha.fits)

end Told

/-- An entry below the root is always reported. -/
theorem told_emit {s : Engine σ} (h : L.Fits s.registry) {p : Path} {ns : List Name}
    (hp : Path.At root p ns) {kind : ChangeKind} {isDirectory : Bool} {e : Event}
    (he : e.view = (kind, ns.map .name, isDirectory)) :
    Told L s (s.emit kind p isDirectory) [e] := by
  obtain ⟨q, hq, hc⟩ := hp.stripPrefix?_components
  have hr : s.registry.relative? p = some q := by rw [Registry.relative?, h.root_eq, hq]
  rw [emit, hr]
  refine ⟨h.of_eq rfl rfl rfl h.machine, ⟨[⟨kind, q, isDirectory⟩], ?_, ?_⟩, rfl, rfl⟩
  · exact Registry.notifications_record _ _
  · rw [List.map_singleton, List.map_singleton, he, Change.view, hc]

theorem told_emitItems {s : Engine σ} (h : L.Fits s.registry) {p : Path} {y : List Name}
    (hp : Path.At root p y) (kind : ChangeKind) (event : Name × Item → Event)
    (he : ∀ a, (event a).view = (kind, (y ++ [a.1]).map .name, a.2.isDirectory))
    (items : List (Name × Item)) :
    Told L s (s.emitItems kind p items) (items.map event) :=
  Told.foldl (fun _ a _ h => told_emit h (hp.child a.1) (he a)) h

theorem told_reportUpdated {s : Engine σ} (h : L.Fits s.registry) {p : Path} {y : List Name}
    (hp : Path.At root p y) (event : NamedEntry Name → Event) {entries : List (NamedEntry Name)}
    (he : ∀ a ∈ entries, (event a).view = (.updated, (y ++ [a.name]).map .name, a.isDirectory)) :
    Told L s (reportUpdated p entries s) (entries.map event) :=
  Told.foldl (fun _ a ha h => told_emit h (hp.child a.name) (he a ha)) h

/-- Dropping a registered directory takes its watch away. -/
theorem registry_cancel {s : Engine σ} {p : Path} {d : TrackedDirectory Name}
    (hd : s.registry.get? p = some d) : (s.cancel host p).registry =
      (Registry.unwatch host
        { s.registry with directories := s.registry.directories.erase p } p).2 := by
  simp only [cancel, Registry.cancel, hd]

/-- Dropping a registered directory. -/
theorem cancel_spec {s : Engine σ} (h : L.Fits s.registry) {p : Path} {y : List Name}
    (hp : L.Names p y) {d : TrackedDirectory Name} (hd : s.registry.get? p = some d) :
    L.Fits (s.cancel host p).registry ∧
      (s.cancel host p).forest = Function.update s.forest y none ∧
      (s.cancel host p).registry.notifications = s.registry.notifications ∧
      (s.cancel host p).stale = s.stale.erase p := by
  rw [forest, registry_cancel hd]
  exact ⟨(h.erase p).unwatch hp, h.forest_erase hp.1, Registry.unwatch_notifications _ _ _, rfl⟩

/-- A failed listing is never fatal. -/
theorem not_fatal_of_list {observed : Name → Bool} {dir : Path} {s s' : σ} {e : Error}
    (h : host.list observed dir s = (.error e, s')) : e.isFatal = false := by
  have hl : ∀ failure, (listingError dir failure).isFatal = false := by
    intro failure
    unfold listingError
    split <;> rfl
  unfold Host.list at h
  split at h
  · simp only [Prod.mk.injEq, Except.error.injEq] at h
    rw [← h.1]
    rfl
  split at h
  · simp only [Prod.mk.injEq, Except.error.injEq] at h
    rw [← h.1]
    exact hl _
  split at h
  · simp only [Prod.mk.injEq, Except.error.injEq] at h
    rw [← h.1]
    rfl
  split at h
  · simp only [Prod.mk.injEq, Except.error.injEq] at h
    rw [← h.1]
    exact hl _
  · simp at h

/-- What comes of registering a directory that is not registered: a failure, after which nothing has
changed, or a new directory with its first listing. -/
theorem register_cases {s : Engine σ} (h : L.Fits s.registry) {p : Path} {y : List Name}
    (hp : L.Names p y) (hy : s.forest y = none) :
    (∃ e s', s.register host p = (.error e, s') ∧ L.MayFail y ∧
      (e.isFatal = true → L.watches y (.error e)) ∧ Told L s s' []) ∨
    ∃ l s', s.register host p = (.ok true, s') ∧ L.lists y (.ok l) ∧
      p.text.length < Path.limit ∧ L.Fits s'.registry ∧
      s'.forest = Function.update s.forest y (some (.ofListing l)) ∧
      s'.registry.notifications = s.registry.notifications ∧ s'.stale = s.stale := by
  have hc : s.registry.contains p = false := by
    rw [Bool.eq_false_iff, ne_eq, h.contains_iff hp.1]
    exact fun hne => hne hy
  obtain ⟨hwf, hw⟩ := h.watch hp
  obtain ⟨hlf, hl⟩ := hwf.list hp
  simp only [register, Registry.register, hc, Bool.false_eq_true, if_false]
  rcases hwr : s.registry.watch host p with ⟨e | _, r⟩
  · obtain rfl : r = (s.registry.watch host p).2 := by rw [hwr]
    rw [hwr] at hw
    left
    refine ⟨e, _, rfl, .inl ⟨e, hw⟩, fun _ => hw, hwf, .nil (by simp), rfl, rfl⟩
  obtain rfl : r = (s.registry.watch host p).2 := by rw [hwr]
  dsimp only
  rcases hlr : (s.registry.watch host p).2.list host p with ⟨e | l, r⟩
  · obtain rfl : r = ((s.registry.watch host p).2.list host p).2 := by rw [hlr]
    rw [hlr] at hl
    left
    refine ⟨e, _, rfl, .inr ⟨e, hl⟩, ?_, hlf.unwatch hp, .nil (by simp), rfl, rfl⟩
    intro he
    have hfst : (host.list (Registry.observes _ p) p _).1 = .error e := congrArg Prod.fst hlr
    rw [not_fatal_of_list (Prod.ext hfst rfl)] at he
    exact absurd he Bool.false_ne_true
  · obtain rfl : r = ((s.registry.watch host p).2.list host p).2 := by rw [hlr]
    rw [hlr] at hl
    right
    refine ⟨l, _, rfl, hl, ?_, hlf.insert hp.1 _, hlf.forest_insert hp.1 _, ?_, rfl⟩
    · have hfst : (host.list (Registry.observes _ p) p _).1 = .ok l := congrArg Prod.fst hlr
      exact Host.list_ok_length (Prod.ext hfst rfl)
    · exact (Registry.list_notifications _ _ _).trans (Registry.watch_notifications _ _ _)

end Engine

end DirWatch
