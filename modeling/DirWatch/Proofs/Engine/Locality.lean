import DirWatch.Proofs.Engine.Guard
import DirWatch.Proofs.Engine.Upkeep
import Mathlib.Data.Set.Basic

/-! # A pass stays within its directory

A pass over a directory concerns this directory and what is below it, and it tells of changes below
it only. This holds whatever the machine answers and wherever a failure ends the pass. -/

namespace DirWatch

variable {σ : Type} {host : Host σ}

namespace Path

variable {p q : Path}

/-- A path and the paths below it, by their components. -/
def within (p : Path) : Set (List Component) := {c | p.components <+: c}

/-- The paths below a path, by their components. -/
def beneath (p : Path) : Set (List Component) := {c | p.components <+: c ∧ c ≠ p.components}

theorem mem_within : q.components ∈ p.within ↔ q.startsWith p = true :=
  List.isPrefixOf_iff_prefix.symm

theorem self_mem_within (p : Path) : p.components ∈ p.within := List.prefix_rfl

theorem beneath_subset (p : Path) : p.beneath ⊆ p.within := fun _ hc => hc.1

theorem child_mem_beneath (h : q.components ∈ p.within) (n : Name) :
    (q.child n).components ∈ p.beneath := by
  rw [components_child]
  refine ⟨List.IsPrefix.trans h (List.prefix_append _ _), ?_⟩
  intro he
  have hlength := List.IsPrefix.length_le h
  rw [← he, List.length_append, List.length_singleton] at hlength
  omega

theorem compare_ne_of_notMem {In : Set (List Component)} (hp : p.components ∈ In)
    (hq : q.components ∉ In) : compare q p ≠ .eq := fun he => hq (compare_eq_iff.1 he ▸ hp)

end Path

/-- An action that concerns a path of a region, or tells of a change at a path that is shown. -/
def Action.Stays (root : Path) (In Shown : Set (List Component)) : Action → Prop
  | began p | listed p _ | watched p _ | unwatched p _ => p.components ∈ In
  | notified n => ∃ (p q : Path) (kind : ChangeKind) (f : Bool), p.components ∈ Shown ∧
      p.stripPrefix? root = some q ∧ n = .changed ⟨kind, q, f⟩

theorem Action.Stays.mono {root : Path} {In In' Shown Shown' : Set (List Component)} {a : Action}
    (h : a.Stays root In Shown) (hin : In ⊆ In') (hshown : Shown ⊆ Shown') :
    a.Stays root In' Shown' := by
  cases a with
  | began p | listed p _ | watched p _ | unwatched p _ => exact hin h
  | notified n =>
      obtain ⟨p, q, kind, f, hp, he⟩ := h
      exact ⟨p, q, kind, f, hshown hp, he⟩

/-! ## Registries -/

namespace Registry

/-- A registry comes from another by what stays in a region. -/
structure Confined (In Shown : Set (List Component)) (r₀ r : Registry σ) : Prop where
  root : r.root = r₀.root
  filter : r.filter = r₀.filter
  outside : ∀ p, p.components ∉ In → r.get? p = r₀.get? p
  journal : ∃ new, r.journal = r₀.journal ++ new ∧ ∀ a ∈ new, a.Stays r₀.root In Shown

namespace Confined

variable {In In' Shown Shown' : Set (List Component)} {r₀ r r' : Registry σ} {p : Path}

theorem refl (r : Registry σ) : Confined In Shown r r :=
  ⟨rfl, rfl, fun _ _ => rfl, [], (List.append_nil _).symm, by simp⟩

theorem mono (h : Confined In Shown r₀ r) (hin : In ⊆ In') (hshown : Shown ⊆ Shown') :
    Confined In' Shown' r₀ r where
  root := h.root
  filter := h.filter
  outside p hp := h.outside p fun hc => hp (hin hc)
  journal := by
    obtain ⟨new, hnew, hstays⟩ := h.journal
    exact ⟨new, hnew, fun a ha => (hstays a ha).mono hin hshown⟩

theorem trans (h : Confined In Shown r₀ r) (h' : Confined In Shown r r') :
    Confined In Shown r₀ r' where
  root := h'.root.trans h.root
  filter := h'.filter.trans h.filter
  outside p hp := (h'.outside p hp).trans (h.outside p hp)
  journal := by
    obtain ⟨new, hnew, hstays⟩ := h.journal
    obtain ⟨more, hmore, hstays'⟩ := h'.journal
    refine ⟨new ++ more, by rw [hmore, hnew, List.append_assoc], ?_⟩
    exact List.forall_mem_append.2 ⟨hstays, fun a ha => h.root ▸ hstays' a ha⟩

theorem record (h : Confined In Shown r₀ r) {a : Action} (ha : a.Stays r.root In Shown)
    (machine : σ) : Confined In Shown r₀ ({ r with machine }.record a) :=
  h.trans ⟨rfl, rfl, fun _ _ => rfl, [a], rfl, List.forall_mem_singleton.2 ha⟩

section Requests

variable (h : Confined In Shown r₀ r) (hp : p.components ∈ In)
include h hp

theorem began : Confined In Shown r₀ (r.record (.began p)) :=
  h.record (a := .began p) hp r.machine

theorem list : Confined In Shown r₀ (r.list host p).2 := h.record (a := .listed p _) hp _

theorem watch : Confined In Shown r₀ (r.watch host p).2 := h.record (a := .watched p _) hp _

theorem unwatch : Confined In Shown r₀ (r.unwatch host p).2 := h.record (a := .unwatched p _) hp _

end Requests

/-- A directory of the region may be registered. -/
theorem put (h : Confined In Shown r₀ r) (hp : p.components ∈ In) (d : TrackedDirectory Name) :
    Confined In Shown r₀ { r with directories := r.directories.insert p d } where
  root := h.root
  filter := h.filter
  journal := h.journal
  outside q hq := by
    have hne := Path.compare_ne_of_notMem hp hq
    exact (OrderedMap.get?_insert _ _ _ _).trans ((if_neg hne).trans (h.outside q hq))

/-- A directory of the region may be dropped. -/
theorem cancel (h : Confined In Shown r₀ r) (hp : p.components ∈ In) :
    Confined In Shown r₀ (r.cancel host p).2 := by
  unfold Registry.cancel
  split
  · exact h
  · have hdrop : Confined In Shown r₀ { r with directories := r.directories.erase p } :=
      { root := h.root
        filter := h.filter
        journal := h.journal
        outside := fun q hq => by
          have hne := Path.compare_ne_of_notMem hp hq
          exact (OrderedMap.get?_erase _ _ _).trans ((if_neg hne).trans (h.outside q hq)) }
    exact hdrop.unwatch hp

theorem register (h : Confined In Shown r₀ r) (hp : p.components ∈ In) :
    Confined In Shown r₀ (r.register host p).2 := by
  refine register_keeps ?_ ?_ ?_ ?_ h
  · exact fun _ h => h.watch hp
  · exact fun _ h => h.list hp
  · exact fun _ h => h.unwatch hp
  · exact fun _ _ _ _ h _ => h.put hp _

end Confined

end Registry

namespace Engine

variable {In In' Shown Shown' : Set (List Component)} {s₀ s s' : Engine σ} {p : Path}

/-! ## Engines -/

/-- An engine comes from another by what stays in a region. -/
structure Confined (In Shown : Set (List Component)) (s₀ s : Engine σ) : Prop where
  registry : s₀.registry.Confined In Shown s.registry
  marks : ∀ p, p.components ∉ In → s.stale.contains p = s₀.stale.contains p

namespace Confined

theorem refl (s : Engine σ) : Confined In Shown s s := ⟨.refl _, fun _ _ => rfl⟩

theorem mono (h : Confined In Shown s₀ s) (hin : In ⊆ In') (hshown : Shown ⊆ Shown') :
    Confined In' Shown' s₀ s :=
  ⟨h.registry.mono hin hshown, fun p hp => h.marks p fun hc => hp (hin hc)⟩

theorem trans (h : Confined In Shown s₀ s) (h' : Confined In Shown s s') :
    Confined In Shown s₀ s' :=
  ⟨h.registry.trans h'.registry, fun p hp => (h'.marks p hp).trans (h.marks p hp)⟩

theorem unmark (h : Confined In Shown s₀ s) (hp : p.components ∈ In) :
    Confined In Shown s₀ (s.unmark p) := by
  refine ⟨h.registry, fun q hq => ?_⟩
  have hne := Path.compare_ne_of_notMem hp hq
  have hq' : (s.stale.erase p).contains q = s.stale.contains q := by simp [hne]
  exact hq'.trans (h.marks q hq)

theorem counted (h : Confined In Shown s₀ s) (counters : Counters) :
    Confined In Shown s₀ { s with counters } := ⟨h.registry, h.marks⟩

theorem cancel (h : Confined In Shown s₀ s) (hp : p.components ∈ In) :
    Confined In Shown s₀ (s.cancel host p) :=
  ⟨h.registry.cancel hp, (h.unmark hp).marks⟩

theorem emit (h : Confined In Shown s₀ s) (hp : p.components ∈ Shown) (kind : ChangeKind)
    (f : Bool) : Confined In Shown s₀ (s.emit kind p f) := by
  unfold Engine.emit
  split
  · exact h
  · next q hq =>
      have hstays : Action.Stays s.registry.root In Shown (.notified (.changed ⟨kind, q, f⟩)) :=
        ⟨p, q, kind, f, hp, hq, rfl⟩
      exact ⟨h.registry.record hstays _, h.marks⟩

end Confined

/-- The steps of a pass stay in a region that the entries of its directories are in, and tell of
these. -/
theorem upkeep_confined (host : Host σ) (s₀ : Engine σ)
    (closed : ∀ p n, Path.components p ∈ In →
      (p.child n).components ∈ In ∧ (p.child n).components ∈ Shown) :
    Upkeep host (Confined In Shown s₀) (·.components ∈ In) (·.components ∈ In)
      (fun _ p _ => p.components ∈ Shown) where
  emit _ kind _ f hs hp := hs.emit hp kind f
  unmark _ _ hs hp _ := hs.unmark hp
  cancel _ _ _ hs hp _ := hs.cancel hp
  left _ p _ n _ _ hp _ _ := ⟨(closed p n hp).2, fun _ => (closed p n hp).1⟩
  register _ _ hs hp := ⟨hs.registry.register hp, hs.marks⟩
  entered _ p _ _ n _ _ hp _ _ _ := ⟨(closed p n hp).2, fun _ => (closed p n hp).1⟩

/-- The steps of a pass below a directory. -/
theorem upkeep_beneath (host : Host σ) (s₀ : Engine σ) (p : Path) :
    Upkeep host (Confined p.beneath p.beneath s₀) (·.components ∈ p.beneath)
      (·.components ∈ p.beneath) (fun _ q _ => q.components ∈ p.beneath) :=
  upkeep_confined host s₀ fun _ n hq =>
    ⟨Path.child_mem_beneath (p.beneath_subset hq) n, Path.child_mem_beneath (p.beneath_subset hq) n⟩

theorem mem_unregistered {q : Path} (hq : q ∈ s.unregistered p) : ∃ n, q = p.child n := by
  unfold unregistered at hq
  split at hq
  · cases hq
  · obtain ⟨n, -, rfl⟩ := List.mem_map.1 (List.mem_filter.1 hq).1
    exact ⟨n, rfl⟩

/-- Once a listing stands in the place of the last one, taking it over goes on below. -/
theorem absorb_beneath (host : Host σ) {d : TrackedDirectory Name} (hd : s.registry.get? p = some d)
    (l : Listing Name) :
    Confined p.beneath p.beneath (s.put p (d.reconcile l).2) (s.absorb host p l).2 := by
  have hchild : ∀ n, (p.child n).components ∈ p.beneath := Path.child_mem_beneath p.self_mem_within
  refine (upkeep_beneath host _ p).absorb hd (.refl _) ?_ ?_ ?_ ?_
  · exact fun e _ => ⟨hchild e.name, fun _ => hchild e.name⟩
  · exact fun e _ => ⟨hchild e.name, fun _ => hchild e.name⟩
  · exact fun e _ => hchild e.name
  · intro s' _ q hq
    obtain ⟨n, rfl⟩ := mem_unregistered hq
    exact hchild n

/-- Once a directory is dropped, retiring it goes on below. -/
theorem retire_beneath (host : Host σ) {d : TrackedDirectory Name}
    (hd : s.registry.get? p = some d) :
    Confined p.beneath p.beneath (s.cancel host p) (s.retire host p) := by
  have hchild : ∀ n, (p.child n).components ∈ p.beneath := Path.child_mem_beneath p.self_mem_within
  exact (upkeep_beneath host _ p).retire_of_cancel hd (.refl _) fun n _ _ =>
    ⟨hchild n, fun _ => hchild n⟩

/-! ## Passes -/

theorem confined_absorb (h : Confined p.within p.beneath s₀ s) (host : Host σ) (l : Listing Name) :
    Confined p.within p.beneath s₀ (s.absorb host p l).2 := by
  cases hd : s.registry.get? p with
  | none =>
      rw [absorb, hd]
      exact h
  | some d =>
      have hput : Confined p.within p.beneath s₀ (s.put p (d.reconcile l).2) :=
        ⟨h.registry.put p.self_mem_within _, h.marks⟩
      exact hput.trans ((absorb_beneath host hd l).mono p.beneath_subset subset_rfl)

theorem confined_retire (h : Confined p.within p.beneath s₀ s) (host : Host σ)
    {d : TrackedDirectory Name} (hd : s.registry.get? p = some d) :
    Confined p.within p.beneath s₀ (s.retire host p) :=
  (h.cancel p.self_mem_within).trans ((retire_beneath host hd).mono p.beneath_subset subset_rfl)

theorem confined_renew (h : Confined p.within p.beneath s₀ s) (host : Host σ)
    {d : TrackedDirectory Name} (hd : s.registry.get? p = some d) (l : Listing Name)
    (replaced : Bool) : Confined p.within p.beneath s₀ (s.renew host p l replaced).2 := by
  unfold renew
  split
  · have hr : Confined p.within p.beneath s₀
        { s with registry := (s.registry.rearm host p).2 } :=
      ⟨(h.registry.unwatch p.self_mem_within).watch p.self_mem_within, h.marks⟩
    dsimp only
    split
    · split
      · exact hr
      · exact confined_retire hr host hd
    · exact confined_absorb hr host l
  · exact confined_absorb h host l

theorem confined_diff (host : Host σ) (p : Path) (s : Engine σ) :
    Confined p.within p.beneath s (s.diff host p).2 := by
  have hb : s.registry.Confined p.within p.beneath (s.registry.record (.began p)) :=
    (Registry.Confined.refl _).began p.self_mem_within
  cases hd : s.registry.get? p with
  | none =>
      rw [diff_none hd]
      exact ⟨hb, fun _ _ => rfl⟩
  | some d =>
      have hl : Confined p.within p.beneath s
          { s with registry := ((s.registry.record (.began p)).list host p).2 } :=
        ⟨hb.list p.self_mem_within, fun _ _ => rfl⟩
      rw [diff_eq hd]
      unfold resume
      split
      · exact confined_retire hl host hd
      · exact hl
      · exact confined_renew ((hl.unmark p.self_mem_within).counted _) host hd _ _

/-- A directory that is not registered is not listed, and one that cannot be listed although it may
be there is left as it is. -/
theorem diff_unlisted (host : Host σ) (p : Path) (s : Engine σ)
    (h : s.registry.contains p = false ∨
      ∃ e, (s.registry.list host p).1 = .error e ∧ ∀ q, e ≠ .pathVanished q) :
    ∃ r new, s.diff host p = (.ok (), { s with registry := r }) ∧
      r.directories = s.registry.directories ∧ r.journal = s.registry.journal ++ new ∧
        ∀ a ∈ new, a = .began p ∨ ∃ result, a = .listed p result := by
  cases hd : s.registry.get? p with
  | none =>
      rw [diff_none hd]
      exact ⟨_, [.began p], rfl, rfl, rfl, by simp⟩
  | some d =>
      have hp : s.registry.contains p = true := Option.isSome_of_eq_some hd
      obtain ⟨e, he, hthere⟩ := h.resolve_left (by simp [hp])
      have he' : ((s.registry.record (.began p)).list host p).1 = .error e := he
      refine ⟨((s.registry.record (.began p)).list host p).2, [.began p, .listed p (.error e)], ?_,
        rfl, ?_, by simp⟩
      · rw [diff_eq hd, he']
        cases e with
        | pathVanished q => exact absurd rfl (hthere q)
        | _ => rfl
      · rw [Registry.journal_list, he', Registry.record, List.append_assoc]
        rfl

/-- A pass stays within its directory, however it ends. What is known of other directories and their
marks is kept, no other directory is asked for or registered, and only changes below the directory
are told. A pass that obtains no listing of a directory that may be there leaves everything as it
is. -/
theorem diff_stays (host : Host σ) (p : Path) (s : Engine σ) :
    Confined p.within p.beneath s (s.diff host p).2 ∧
      (s.registry.contains p = false ∨
          (∃ e, (s.registry.list host p).1 = .error e ∧ ∀ q, e ≠ .pathVanished q) →
        ∃ registry new, s.diff host p = (.ok (), { s with registry }) ∧
          registry.directories = s.registry.directories ∧
          registry.journal = s.registry.journal ++ new ∧
          ∀ a ∈ new, a = .began p ∨ ∃ result, a = .listed p result) :=
  ⟨confined_diff host p s, diff_unlisted host p s⟩

/-- A directory whose watch is gone is watched anew without a look at the root. If it cannot be
listed, its mark stays. -/
theorem diff_stays_haunted :
    let root := Path.ofString "/r"
    let a := Path.ofString "/r/a"
    let closed : Host Nat := { passing with metadata := fun _ n => (.error .permissionDenied, n) }
    (haunted.diff passing a).2.registry.journal.getLast? = some (.watched a (.ok ())) ∧
      (haunted.diff passing a).2.registry.get? root = haunted.registry.get? root ∧
      (haunted.diff closed a).1 = .ok () ∧ (haunted.diff closed a).2.stale = haunted.stale ∧
      haunted.stale.contains a = true ∧ (haunted.diff closed a).2.counters = haunted.counters := by
  intro root a closed
  obtain ⟨hlast, houtside, hlist, hmark⟩ :
      (haunted.diff passing a).2.registry.journal.getLast? = some (.watched a (.ok ())) ∧
        root.startsWith a = false ∧
        (haunted.registry.list closed a).1 = .error (.io .permissionDenied) ∧
        haunted.stale.contains a = true := by decide +kernel
  have hroot : root.components ∉ a.within := by
    rw [Path.mem_within, houtside]
    decide
  obtain ⟨registry, new, ht, -⟩ := (diff_stays closed a haunted).2 (.inr ⟨_, hlist, by simp⟩)
  rw [ht]
  exact ⟨hlast, (diff_stays passing a haunted).1.registry.outside root hroot, rfl, rfl, hmark, rfl⟩

end Engine

end DirWatch
