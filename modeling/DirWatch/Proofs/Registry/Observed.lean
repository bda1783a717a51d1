import DirWatch.Proofs.Filter
import DirWatch.Proofs.OrderedMap
import DirWatch.Proofs.Registry.Forest
import DirWatch.Proofs.Registry.Opening
import DirWatch.Proofs.Scene

/-! # What a registry observes

Only listings and walks ask what is hidden. A registry holds nothing but what they let through, and
neither watches nor reports anything else, as long as it is asked for paths that are written
plainly, as the root joined with names. -/

namespace DirWatch

/-! ## What is observed -/

namespace Filter

/-- A path is observed together with all that it is below. -/
def Admits (f : Filter) (p : Path) : Prop := ∀ a ∈ p.ancestors, f.allows a = true

/-- What a path of names is below is observed with it. -/
theorem admits_ofNames {f : Filter} {y : List Name} (h : f.allows (.ofNames y) = true) :
    f.Admits (.ofNames y) := by
  induction y using List.reverseRecOn with
  | nil => exact List.forall_mem_singleton.2 h
  | append_singleton y n ih =>
      rw [Admits, Path.ancestors_ofNames_concat]
      exact List.forall_mem_cons.2 ⟨h, ih (allows_of_concat h)⟩

/-- A path is seen from a root, and observed together with all that it is below. -/
def Observes (f : Filter) (root p : Path) : Prop :=
  ∃ q, p.stripPrefix? root = some q ∧ f.Admits q

/-- A path is the root joined with names that are observed. -/
def Shows (f : Filter) (root p : Path) : Prop :=
  ∃ y, p = root.below y ∧ f.allows (.ofNames y) = true

namespace Shows

variable {f : Filter} {root p : Path}

theorem observes (h : f.Shows root p) : f.Observes root p := by
  obtain ⟨y, rfl, hf⟩ := h
  exact ⟨_, Path.stripPrefix?_below root y, admits_ofNames hf⟩

theorem plain (h : f.Shows root p) : Path.Plain root p := by
  obtain ⟨y, rfl, -⟩ := h
  exact Path.plain_below root y

end Shows

theorem shows_root (f : Filter) (root : Path) : f.Shows root root :=
  ⟨[], rfl, f.allows_nil⟩

end Filter

/-- A watch is placed only on what is observed, and only changes of what is observed are told. -/
def Action.Discreet (root : Path) (f : Filter) : Action → Prop
  | .watched p _ => f.Observes root p
  | .notified (.changed c) => f.Admits c.path
  | _ => True

namespace OrderedMap

universe u v

variable {κ : Type u} {β : Type v} [Ord κ]

theorem mem_keys_insertEntry {k k' : κ} {b : β} {l : List (κ × β)}
    (h : k' ∈ (insertEntry k b l).map (·.1)) : k' = k ∨ k' ∈ l.map (·.1) := by
  induction l with
  | nil => exact .inl (List.mem_singleton.1 h)
  | cons e l ih =>
      unfold insertEntry at h
      split at h
      · exact List.mem_cons.1 h
      · exact .inr h
      · rcases List.mem_cons.1 h with he | h
        · exact .inr (List.mem_cons.2 (.inl he))
        · exact (ih h).imp id (List.mem_cons_of_mem _)

theorem mem_keys_insert [Std.TransOrd κ] {m : OrderedMap κ β} {k k' : κ} {b : β}
    (h : k' ∈ (m.insert k b).keys) : k' = k ∨ k' ∈ m.keys := mem_keys_insertEntry h

theorem mem_keys_erase {m : OrderedMap κ β} {k k' : κ} (h : k' ∈ (m.erase k).keys) :
    k' ∈ m.keys := by
  obtain ⟨e, he, rfl⟩ := List.mem_map.1 h
  exact List.mem_map.2 ⟨e, (List.mem_filter.1 he).1, rfl⟩

end OrderedMap

namespace Registry

variable {σ : Type} (host : Host σ) {root : Path} {f : Filter}

/-- A registry that holds and has told nothing but what is observed. -/
structure Discreet (root : Path) (f : Filter) (r : Registry σ) : Prop where
  root_eq : r.root = root
  filter_eq : r.filter = f
  registered : ∀ p ∈ r.paths, f.Shows root p
  items : ∀ p y d n i, Path.At root p y → r.get? p = some d → d.items.get? n = some i →
    f.allows (.ofNames (y ++ [n])) = true
  journal : ∀ a ∈ r.journal, a.Discreet root f

namespace Discreet

variable {r : Registry σ} {p : Path}

/-- A registered directory is observed, if it is written plainly. -/
theorem shows (h : r.Discreet root f) (hc : r.contains p = true) (hp : Path.Plain root p) :
    f.Shows root p := by
  obtain ⟨k, hk, he⟩ := OrderedMap.contains_iff.1 hc
  obtain ⟨y, rfl, hf⟩ := h.registered k hk
  exact ⟨y, hp y ((Path.at_below root y).of_compare_eq he), hf⟩

/-- So are its items. -/
theorem shows_child (h : r.Discreet root f) (hp : f.Shows root p) {d : TrackedDirectory Name}
    (hd : r.get? p = some d) {n : Name} {i : Item} (hi : d.items.get? n = some i) :
    f.Shows root (p.child n) := by
  obtain ⟨y, rfl, -⟩ := hp
  exact ⟨y ++ [n], (Path.below_concat root y n).symm,
    h.items _ y d n i (Path.at_below root y) hd hi⟩

theorem record (h : r.Discreet root f) {a : Action} (ha : a.Discreet root f) :
    (r.record a).Discreet root f where
  root_eq := h.root_eq
  filter_eq := h.filter_eq
  registered := h.registered
  items := h.items
  journal := List.forall_mem_append.2 ⟨h.journal, List.forall_mem_singleton.2 ha⟩

/-- The machine does not matter. -/
theorem change (h : r.Discreet root f) (machine : σ) : Discreet root f { r with machine } :=
  ⟨h.root_eq, h.filter_eq, h.registered, h.items, h.journal⟩

theorem watch (h : r.Discreet root f) (hp : f.Shows root p) :
    (r.watch host p).2.Discreet root f :=
  (h.change _).record hp.observes

theorem unwatch (h : r.Discreet root f) (p : Path) : (r.unwatch host p).2.Discreet root f :=
  (h.change _).record trivial

theorem list (h : r.Discreet root f) (p : Path) : (r.list host p).2.Discreet root f :=
  (h.change _).record trivial

/-- A listing shows only what is observed. -/
theorem listed (h : r.Discreet root f) {y : List Name} {l : Listing Name}
    (hl : (r.list host (root.below y)).1 = .ok l) {n : Name} {e : ListedEntry}
    (he : l.entries.get? n = some e) : f.allows (.ofNames (y ++ [n])) = true := by
  have hobs := Registry.observes_eq (r := r) (p := root.below y) (y := y)
    (by rw [h.root_eq, Path.stripPrefix?_below])
  change (host.list (r.observes (root.below y)) (root.below y) r.machine).1 = .ok l at hl
  rw [hobs, h.filter_eq] at hl
  unfold Host.list at hl
  split at hl
  · cases hl
  split at hl
  · cases hl
  split at hl
  · cases hl
  split at hl
  · cases hl
  · obtain rfl := Except.ok.inj hl
    exact (Scene.observed_of_get?_ofEntries he :)

theorem insert (h : r.Discreet root f) {y : List Name}
    (hf : f.allows (.ofNames y) = true) {d : TrackedDirectory Name}
    (hd : ∀ n i, d.items.get? n = some i → f.allows (.ofNames (y ++ [n])) = true) :
    Discreet root f { r with directories := r.directories.insert (root.below y) d } where
  root_eq := h.root_eq
  filter_eq := h.filter_eq
  registered k hk := by
    rcases OrderedMap.mem_keys_insert hk with rfl | hk
    · exact ⟨y, rfl, hf⟩
    · exact h.registered k hk
  items q z d' n i hq hd' hi := by
    rw [Registry.get?, OrderedMap.get?_insert] at hd'
    split at hd'
    · next he =>
        obtain rfl := Option.some.inj hd'
        obtain rfl := hq.unique ((Path.at_below root y).of_compare_eq he)
        exact hd n i hi
    · exact h.items q z d' n i hq hd' hi
  journal := h.journal

theorem erase (h : r.Discreet root f) (p : Path) :
    Discreet root f { r with directories := r.directories.erase p } where
  root_eq := h.root_eq
  filter_eq := h.filter_eq
  registered k hk := h.registered k (OrderedMap.mem_keys_erase hk)
  items q z d n i hq hd hi := by
    rw [Registry.get?, OrderedMap.get?_erase] at hd
    split at hd
    · cases hd
    · exact h.items q z d n i hq hd hi
  journal := h.journal

theorem cancel (h : r.Discreet root f) (p : Path) : (r.cancel host p).2.Discreet root f := by
  unfold Registry.cancel
  split
  · exact h
  · exact (h.erase p).unwatch host p

theorem register (h : r.Discreet root f) (hp : f.Shows root p) :
    (r.register host p).2.Discreet root f := by
  refine register_keeps (fun _ h => h.watch host hp) (fun _ h => h.list host p)
    (fun _ h => h.unwatch host p) ?_ h
  intro r r' l hr hr' hl
  obtain ⟨y, rfl, hf⟩ := hp
  refine hr'.insert hf ?_
  intro n i hi
  rw [TrackedDirectory.get?_items_ofListing] at hi
  obtain ⟨e, he, -⟩ := Option.map_eq_some_iff.1 hi
  exact hr.listed host (congrArg Prod.fst hl) he

theorem cancelAll (h : r.Discreet root f) : (r.cancelAll host).2.Discreet root f := by
  refine cancelAll_keeps (fun _ h => ?_) (fun _ p h => h.unwatch host p) h
  exact
    { root_eq := h.root_eq
      filter_eq := h.filter_eq
      registered := fun _ hk => by cases hk
      items := fun _ _ _ _ _ _ hd => by cases hd
      journal := h.journal }

theorem registerTree {t : Traversal σ} (h : r.Discreet root f)
    (ht : t.Yields fun v => f.Shows root v.path) :
    (Registry.registerTree host t r).2.Discreet root f :=
  registerTree_keeps_of_yields ht (fun machine _ h => h.change machine)
    (fun _ _ h hv => h.register host hv) (fun _ h => h.cancelAll host) h

end Discreet

end Registry

end DirWatch
