import DirWatch.Proofs.Engine.Guard
import DirWatch.Proofs.Engine.Items

/-! # Retiring a directory sweeps its subtree

Retiring works off a stack of directories, of which some may not be registered, some may stand there
twice, and some may lie below others. It ends whatever is registered. Where every directory below
the first one hangs on an item of its parent, it clears the subtree and nothing else. -/

namespace DirWatch

variable {σ : Type} {host : Host σ}

/-! ## The paths below a stack -/

namespace Path

/-- Whether a path is one of a stack or lies below one. -/
def under (stack : List Path) (p : Path) : Bool := stack.any fun t => p.startsWith t

variable {stack : List Path} {p q t : Path} {n : Name}

theorem under_iff : p.under stack = true ↔ ∃ t ∈ stack, t.components <+: p.components := by
  simp [under, startsWith_iff]

theorem under_congr (h : p.components = q.components) : p.under stack = q.under stack := by
  simp [under, startsWith, h]

theorem under_of_mem (ht : t ∈ stack) (h : p.components = t.components) : p.under stack = true :=
  under_iff.2 ⟨t, ht, by rw [h]⟩

theorem under_child (h : q.under stack = true) (n : Name) : (q.child n).under stack = true := by
  obtain ⟨t, ht, hq⟩ := under_iff.1 h
  refine under_iff.2 ⟨t, ht, ?_⟩
  rw [components_child]
  exact hq.trans (List.prefix_append _ _)

/-- An entry below a stack is on the stack itself, or its directory is below the stack. -/
theorem under_parent (h : (q.child n).under stack = true) :
    (∃ t ∈ stack, (q.child n).components = t.components) ∨ q.under stack = true := by
  obtain ⟨t, ht, hp⟩ := under_iff.1 h
  rw [components_child, List.prefix_concat_iff] at hp
  rcases hp with hp | hp
  · exact .inl ⟨t, ht, by rw [components_child, hp]⟩
  · exact .inr (under_iff.2 ⟨t, ht, hp⟩)

end Path

/-! ## The rounds of the loop -/

namespace Registry

theorem foldr_filter_le {α : Type} (f : α → Nat) (p : α → Bool) (l : List α) :
    ((l.filter p).map f).foldr (· + ·) 0 ≤ (l.map f).foldr (· + ·) 0 := by
  induction l with
  | nil => simp
  | cons a l ih =>
      rw [List.filter_cons]
      split <;> simp <;> omega

/-- The items of a directory are not tracked any more once it is dropped. -/
theorem trackedEntries_erase {r : Registry σ} {dir : Path} {d : TrackedDirectory Name}
    (h : r.get? dir = some d) :
    trackedEntries { r with directories := r.directories.erase dir } + d.items.size ≤
      r.trackedEntries := by
  obtain ⟨dir', he, hm⟩ := OrderedMap.exists_mem_of_get? h
  simp only [trackedEntries, OrderedMap.erase, OrderedMap.filter]
  generalize r.directories.entries = entries at hm
  induction entries with
  | nil => cases hm
  | cons e entries ih =>
      rcases List.mem_cons.1 hm with rfl | hm
      · have hle := foldr_filter_le (fun e : Path × TrackedDirectory Name => e.2.items.size)
          (fun e => compare dir e.1 != .eq) entries
        simp [he]
        omega
      · have ih := ih hm
        rw [List.filter_cons]
        split <;> simp <;> omega

end Registry

namespace Engine

/-- One round: the last directory of the stack is dropped if it is registered, its items are
reported, and its subdirectories take its place. -/
def retireRound (host : Host σ) : List Path × Engine σ → List Path × Engine σ
  | ([], s) => ([], s)
  | (dir :: rest, s) =>
    match s.registry.get? dir with
    | none => (rest, s.unmark dir)
    | some d =>
      ((d.subdirectories.map dir.child).reverse ++ rest,
        (s.cancel host dir).emitItems .deleted dir d.items.entries)

theorem size_subdirectories (d : TrackedDirectory Name) :
    d.subdirectories.length ≤ d.items.size := by
  simp only [TrackedDirectory.subdirectories, List.length_map]
  exact List.length_filter_le _ _

/-- There are at most as many rounds as directories on the stack and items in the registry. -/
theorem rounds_retireAll (host : Host σ) (stack : List Path) (s : Engine σ) :
    ∃ k ≤ stack.length + s.registry.trackedEntries,
      (retireRound host)^[k] (stack, s) = ([], s.retireAll host stack) := by
  induction stack, s using retireAll.induct host with
  | case1 s => exact ⟨0, by simp, by simp [retireAll_nil]⟩
  | case2 dir rest s hd ih =>
      obtain ⟨k, hk, hr⟩ := ih
      have hsame : (s.unmark dir).registry = s.registry := rfl
      rw [hsame] at hk
      refine ⟨k + 1, by simp; omega, ?_⟩
      rw [Function.iterate_succ_apply, retireAll_skip hd, ← hr]
      simp [retireRound, hd]
  | case3 dir rest s d hd ih =>
      obtain ⟨k, hk, hr⟩ := ih
      have hdirs : ((s.cancel host dir).emitItems .deleted dir d.items.entries).registry.directories
          = s.registry.directories.erase dir := by
        rw [emitItems_directories, registry_cancel hd, Registry.unwatch_directories]
      have hless := Registry.trackedEntries_erase hd
      have hsub := size_subdirectories d
      simp only [Registry.trackedEntries, hdirs] at hk hless ⊢
      refine ⟨k + 1, by simp at hk ⊢; omega, ?_⟩
      rw [Function.iterate_succ_apply, retireAll_cons hd, ← hr]
      simp [retireRound, hd]

/-! ## What a sweep does -/

/-- Directories that are given up one after the other. The watch of each is taken away, and then
each of its items is reported as deleted. -/
inductive Takedown (host : Host σ) (root : Path) :
    List (Path × TrackedDirectory Name) → σ → List Action → σ → Prop where
  | nil (machine) : Takedown host root [] machine [] machine
  | cons {dir d gone machine after changes more} :
      Itemizes root .deleted dir d.items.entries changes →
      Takedown host root gone (host.unwatch dir machine).2 more after →
      Takedown host root ((dir, d) :: gone) machine
        (.unwatched dir (host.unwatch dir machine).1 :: changes.map Change.told ++ more) after

/-- What is registered or marked in a region is dropped, and what lies outside is kept. -/
structure Cut (region : Path → Bool) (s s' : Engine σ) : Prop where
  root : s'.registry.root = s.registry.root
  filter : s'.registry.filter = s.registry.filter
  directories : s'.registry.directories = s.registry.directories.filter fun p _ => !region p
  stale : s'.stale = s.stale.filter fun p _ => !region p

/-- Exactly the registered directories of a region were given up, each once, and the reports of
their items were counted. Nothing else has changed. -/
structure Swept (host : Host σ) (region : Path → Bool) (gone : List (Path × TrackedDirectory Name))
    (s s' : Engine σ) : Prop extends Cut region s s' where
  distinct : (gone.map fun g => g.1.components).Nodup
  given_up : ∀ p d, (region p = true ∧ s.registry.get? p = some d) ↔
    ∃ q, p.same q = true ∧ (q, d) ∈ gone
  journal : ∃ new, s'.registry.journal = s.registry.journal ++ new ∧
    Takedown host s.registry.root gone s.registry.machine new s'.registry.machine
  counters : s'.counters = { s.counters with totals :=
    (fun t => t.add .deleted)^[(gone.flatMap (·.2.items.entries)).length] s.counters.totals }

end Engine

namespace Registry

/-- A directory hangs on an item that its parent has for it. -/
def Hangs (r : Registry σ) (p : Path) : Prop :=
  ∃ q n d i, p.same (q.child n) = true ∧ r.get? q = some d ∧ d.items.get? n = some i ∧
    i.isDirectory = true

end Registry

namespace Engine

/-- What is registered or marked below the directories of a stack is reached from there. -/
structure Hung (stack : List Path) (s : Engine σ) : Prop where
  inside : ∀ t ∈ stack, t.startsWith s.registry.root = true
  hangs : ∀ p, s.registry.contains p = true → p.under stack = true →
    (∃ t ∈ stack, p.components = t.components) ∨ s.registry.Hangs p
  marks : ∀ p, s.stale.contains p = true → p.under stack = true → s.registry.contains p = true

namespace Hung

variable {stack rest : List Path} {s : Engine σ} {dir p : Path} {d : TrackedDirectory Name}

/-- What holds of the directories of the stack, and of a subdirectory with its parent, holds of
everything registered below the stack. -/
theorem reach (h : Hung stack s) {Q : Path → Prop}
    (top : ∀ p t, s.registry.contains p = true → t ∈ stack → p.components = t.components → Q p)
    (entry : ∀ p q n d i, p.components = (q.child n).components → s.registry.get? q = some d →
      d.items.get? n = some i → i.isDirectory = true → Q q → Q p) :
    ∀ p, s.registry.contains p = true → p.under stack = true → Q p := by
  intro p
  -- A parent has fewer components, so this goes up the chain of items to the stack.
  induction hl : p.components.length generalizing p with
  | zero =>
      intro hp hu
      rcases h.hangs p hp hu with ⟨t, ht, he⟩ | ⟨q, n, d, i, he, -⟩
      · exact top p t hp ht he
      · rw [Path.same_iff] at he
        simp [he] at hl
  | succ k ih =>
      intro hp hu
      rcases h.hangs p hp hu with ⟨t, ht, he⟩ | ⟨q, n, d, i, he, hq, hi, hf⟩
      · exact top p t hp ht he
      · rw [Path.same_iff] at he
        rw [Path.under_congr he] at hu
        rcases Path.under_parent hu with ⟨t, ht, ht'⟩ | hu
        · exact top p t hp ht (he.trans ht')
        · have hlength : q.components.length = k := by simpa [he] using hl
          have hcontains : s.registry.contains q = true := Option.isSome_of_eq_some hq
          exact entry p q n d i he hq hi hf (ih q hlength hcontains hu)

/-- The stack after a round: what was below its last directory stands for it. -/
structure StackAfter (s : Engine σ) (dir : Path) (rest next : List Path) : Prop where
  kept : rest ⊆ next
  entry : ∀ d n, s.registry.get? dir = some d → n ∈ d.subdirectories → dir.child n ∈ next
  below : ∀ t ∈ next, t ∈ rest ∨ dir.components <+: t.components

theorem StackAfter.skip (hd : s.registry.get? dir = none) : StackAfter s dir rest rest where
  kept := List.Subset.refl rest
  entry d n h := by simp [hd] at h
  below t ht := .inl ht

theorem StackAfter.drop (hd : s.registry.get? dir = some d) :
    StackAfter s dir rest ((d.subdirectories.map dir.child).reverse ++ rest) where
  kept := List.subset_append_right _ rest
  entry d' n h hn := by
    obtain rfl : d = d' := Option.some.inj (hd.symm.trans h)
    simp
    exact .inl ⟨n, hn, rfl⟩
  below t ht := by
    rcases List.mem_append.1 ht with ht | ht
    · obtain ⟨n, -, rfl⟩ := List.mem_map.1 (List.mem_reverse.1 ht)
      exact .inr (by simp)
    · exact .inl ht

variable {after : List Path} {s₁ : Engine σ}

/-- Nothing comes to be below the new stack that was not below the old one. -/
theorem StackAfter.under (hn : StackAfter s dir rest after) (hu : p.under after = true) :
    p.under (dir :: rest) = true := by
  obtain ⟨t, ht, hp⟩ := Path.under_iff.1 hu
  rcases hn.below t ht with ht | hdir
  · exact Path.under_iff.2 ⟨t, List.mem_cons_of_mem dir ht, hp⟩
  · exact Path.under_iff.2 ⟨dir, List.mem_cons_self, hdir.trans hp⟩

/-- A registered directory below the old stack is the one of the round or below the new stack. -/
theorem under_iff (h : Hung (dir :: rest) s) (hn : StackAfter s dir rest after)
    (hp : p.under (dir :: rest) = true → s.registry.contains p = true) :
    p.under (dir :: rest) = true ↔ p.components = dir.components ∨ p.under after = true := by
  constructor
  · intro hu
    apply h.reach (Q := fun p => p.components = dir.components ∨ p.under after = true) ?_ ?_ p
      (hp hu) hu
    · intro p t _ ht he
      rcases List.mem_cons.1 ht with rfl | ht
      · exact .inl he
      · exact .inr (Path.under_of_mem (hn.kept ht) he)
    · intro p q n d i he hq hi hf hQ
      rw [Path.under_congr he]
      rcases hQ with hdir | hu
      · have hd : s.registry.get? dir = some d := by
          rw [← hq]
          exact (s.registry.directories.get?_congr (Path.compare_eq_iff.2 hdir)).symm
        have hmem := hn.entry d n hd (TrackedDirectory.mem_subdirectories.2 ⟨i, hi, hf⟩)
        exact .inr (Path.under_of_mem hmem (by simp [hdir]))
      · exact .inr (Path.under_child hu n)
  · rintro (he | hu)
    · exact Path.under_of_mem List.mem_cons_self he
    · exact hn.under hu

/-- What is registered below the old stack is the directory of the round, or is below the new stack
and still registered once that directory is dropped. -/
theorem registered_iff (h : Hung (dir :: rest) s) (hd : s.registry.get? dir = some d)
    (hn : StackAfter s dir rest after) {e : TrackedDirectory Name} :
    (p.under (dir :: rest) = true ∧ s.registry.get? p = some e) ↔
      (p.same dir = true ∧ e = d) ∨
        (p.under after = true ∧ (s.registry.directories.erase dir).get? p = some e) := by
  simp only [Registry.get?, OrderedMap.get?_erase, Path.compare_eq_iff, Path.same_iff]
  by_cases he : p.components = dir.components
  · have hp : s.registry.directories.get? p = some d := by
      rw [s.registry.directories.get?_congr (Path.compare_eq_iff.2 he)]
      exact hd
    have hu : p.under (dir :: rest) = true := Path.under_of_mem List.mem_cons_self he
    rw [hp, hu]
    constructor
    · rintro ⟨-, hde⟩
      exact .inl ⟨he, (Option.some.inj hde).symm⟩
    · rintro (⟨-, rfl⟩ | ⟨-, hnone⟩)
      · exact ⟨rfl, rfl⟩
      · rw [if_pos he] at hnone
        cases hnone
  · simp only [he, if_false, false_and, false_or]
    apply and_congr_left
    intro hp
    have hcontains : s.registry.contains p = true := Option.isSome_of_eq_some hp
    rw [h.under_iff hn fun _ => hcontains]
    simp [he]

/-- What is left below the new stack still hangs together after the round. -/
theorem turn (h : Hung (dir :: rest) s) (hn : StackAfter s dir rest after)
    (hroot : s₁.registry.root = s.registry.root)
    (hdirs : s₁.registry.directories = s.registry.directories.erase dir)
    (hstale : s₁.stale = s.stale.erase dir) : Hung after s₁ := by
  have hcontains : ∀ p, s₁.registry.contains p = true ↔
      p.components ≠ dir.components ∧ s.registry.contains p = true := by
    intro p
    simp [Registry.contains, hdirs, Path.compare_eq_iff]
  refine ⟨?inside, ?hangs, ?marks⟩
  case inside =>
    intro t ht
    rw [hroot]
    rcases hn.below t ht with ht | hdir
    · exact h.inside t (List.mem_cons_of_mem dir ht)
    · have hin := Path.startsWith_iff.1 (h.inside dir List.mem_cons_self)
      exact Path.startsWith_iff.2 (hin.trans hdir)
  case hangs =>
    intro p hp hu
    obtain ⟨hne, hp⟩ := (hcontains p).1 hp
    rcases h.hangs p hp (hn.under hu) with ⟨t, ht, he⟩ | ⟨q, n, d, i, he, hq, hi, hf⟩
    · rcases List.mem_cons.1 ht with rfl | ht
      · exact absurd he hne
      · exact .inl ⟨t, hn.kept ht, he⟩
    · by_cases hdir : q.components = dir.components
      · have hd : s.registry.get? dir = some d := by
          rw [← hq]
          exact (s.registry.directories.get?_congr (Path.compare_eq_iff.2 hdir)).symm
        have hmem := hn.entry d n hd (TrackedDirectory.mem_subdirectories.2 ⟨i, hi, hf⟩)
        rw [Path.same_iff] at he
        exact .inl ⟨dir.child n, hmem, by simp [he, hdir]⟩
      · have hq₁ : s₁.registry.get? q = some d := by
          rw [← hq]
          simp [Registry.get?, hdirs, Path.compare_eq_iff, hdir]
        exact .inr ⟨q, n, d, i, he, hq₁, hi, hf⟩
  case marks =>
    intro p hm hu
    simp only [hstale, OrderedMap.contains_erase, bne_iff_ne, Bool.and_eq_true, ne_eq,
      Path.compare_eq_iff] at hm
    exact (hcontains p).2 ⟨hm.1, h.marks p hm.2 (hn.under hu)⟩

end Hung

/-- A round, and the cut below the new stack, make the cut below the old one. -/
theorem Cut.turn {dir : Path} {rest after : List Path} {s s₁ s' : Engine σ}
    (hc : Cut (Path.under after) s₁ s') (h : Hung (dir :: rest) s)
    (hn : Hung.StackAfter s dir rest after) (hroot : s₁.registry.root = s.registry.root)
    (hfilter : s₁.registry.filter = s.registry.filter)
    (hdirs : s₁.registry.directories = s.registry.directories.erase dir)
    (hstale : s₁.stale = s.stale.erase dir) : Cut (Path.under (dir :: rest)) s s' := by
  have hregion : ∀ p, (p.under (dir :: rest) = true → s.registry.contains p = true) →
      (compare dir p != .eq && !p.under after) = !p.under (dir :: rest) := by
    intro p hp
    have hu := h.under_iff hn hp
    rw [← Path.compare_eq_iff, Std.OrientedCmp.eq_comm] at hu
    cases hold : p.under (dir :: rest) <;> simp [hold] at hu ⊢
    · exact hu
    · intro hne
      exact hu.resolve_left hne
  refine ⟨hc.root.trans hroot, hc.filter.trans hfilter, ?_, ?_⟩
  · rw [hc.directories, hdirs, OrderedMap.filter_erase]
    apply OrderedMap.filter_congr
    intro p hp
    exact hregion p fun _ => hp
  · rw [hc.stale, hstale, OrderedMap.filter_erase]
    apply OrderedMap.filter_congr
    intro p hm
    exact hregion p (h.marks p hm)

/-- An engine that has dropped a directory and reported some changes. -/
theorem dropped_eq {s : Engine σ} {dir : Path} {d : TrackedDirectory Name}
    (hd : s.registry.get? dir = some d) (changes : List Change) :
    (s.cancel host dir).afterTelling .deleted changes =
      { registry := { s.registry with
          directories := s.registry.directories.erase dir
          machine := (host.unwatch dir s.registry.machine).2
          journal := s.registry.journal ++
            (.unwatched dir (host.unwatch dir s.registry.machine).1 :: changes.map Change.told) }
        counters := { s.counters with
          totals := (fun t => t.add .deleted)^[changes.length] s.counters.totals }
        stale := s.stale.erase dir } := by
  rw [afterTelling, registry_cancel hd]
  simp [Registry.unwatch, Registry.record, cancel, unmark]

namespace Swept

variable {dir : Path} {rest : List Path} {gone : List (Path × TrackedDirectory Name)}
  {s s' : Engine σ} {d : TrackedDirectory Name}

theorem nil (host : Host σ) (s : Engine σ) : Swept host (Path.under []) [] s s where
  root := rfl
  filter := rfl
  directories := by simp [OrderedMap.filter, Path.under]
  stale := by simp [OrderedMap.filter, Path.under]
  distinct := List.nodup_nil
  given_up p d := by simp [Path.under]
  journal := ⟨[], by simp, .nil _⟩
  counters := by simp

/-- A round on a directory that is not registered. -/
theorem skip (h : Hung (dir :: rest) s) (hd : s.registry.get? dir = none)
    (hs : Swept host (Path.under rest) gone (s.unmark dir) s') :
    Swept host (Path.under (dir :: rest)) gone s s' where
  toCut := hs.turn h (.skip hd) rfl rfl (OrderedMap.erase_of_get?_eq_none hd).symm rfl
  distinct := hs.distinct
  given_up p d := by
    rw [← hs.given_up p d]
    apply and_congr_left
    intro hp
    have hcontains : s.registry.contains p = true := Option.isSome_of_eq_some hp
    rw [h.under_iff (.skip hd) fun _ => hcontains]
    apply or_iff_right
    intro he
    have hnone := s.registry.directories.get?_congr (Path.compare_eq_iff.2 he)
    rw [← Registry.get?, ← Registry.get?, hp, hd] at hnone
    cases hnone
  journal := hs.journal
  counters := hs.counters

/-- A round on a registered directory gives it up before those below it. -/
theorem drop (h : Hung (dir :: rest) s) (hd : s.registry.get? dir = some d)
    {changes : List Change} (hc : Itemizes s.registry.root .deleted dir d.items.entries changes)
    (hs : Swept host (Path.under ((d.subdirectories.map dir.child).reverse ++ rest)) gone
      ((s.cancel host dir).afterTelling .deleted changes) s') :
    Swept host (Path.under (dir :: rest)) ((dir, d) :: gone) s s' := by
  rw [dropped_eq hd] at hs
  refine ⟨hs.turn h (.drop hd) rfl rfl rfl rfl, ?distinct, ?given_up, ?journal, ?counters⟩
  case distinct =>
    rw [List.map_cons, List.nodup_cons]
    refine ⟨?_, hs.distinct⟩
    intro hin
    obtain ⟨⟨q, e⟩, hq, he⟩ := List.mem_map.1 hin
    obtain ⟨-, hget⟩ := (hs.given_up q e).2 ⟨q, by simp [Path.same_iff], hq⟩
    simp [Registry.get?, Path.compare_eq_iff, he] at hget
  case given_up =>
    intro p e
    refine (h.registered_iff hd (.drop hd)).trans ((or_congr_right (hs.given_up p e)).trans ?_)
    simp only [List.mem_cons, Prod.mk.injEq, and_or_left, exists_or]
    apply or_congr_left
    constructor
    · intro he
      exact ⟨dir, he.1, rfl, he.2⟩
    · rintro ⟨q, he, rfl, hd'⟩
      exact ⟨he, hd'⟩
  case journal =>
    obtain ⟨new, hnew, htake⟩ := hs.journal
    exact ⟨_, by rw [hnew, List.append_assoc], .cons hc htake⟩
  case counters =>
    have hlength : changes.length = d.items.entries.length := hc.length_eq.symm
    rw [hs.counters, List.flatMap_cons, List.length_append, Nat.add_comm,
      Function.iterate_add_apply, hlength]

end Swept

/-- Retiring the directories of a stack sweeps what is below them. -/
theorem swept_retireAll (host : Host σ) {stack : List Path} {s : Engine σ} (h : Hung stack s) :
    ∃ gone, Swept host (Path.under stack) gone s (s.retireAll host stack) := by
  induction stack, s using retireAll.induct host with
  | case1 s => exact ⟨[], by rw [retireAll_nil]; exact .nil host s⟩
  | case2 dir rest s hd ih =>
      have herase : s.registry.directories.erase dir = s.registry.directories :=
        OrderedMap.erase_of_get?_eq_none hd
      obtain ⟨gone, hs⟩ := ih (h.turn (.skip hd) rfl herase.symm rfl)
      rw [retireAll_skip hd]
      exact ⟨gone, hs.skip h hd⟩
  | case3 dir rest s d hd ih =>
      have hin : dir.startsWith (s.cancel host dir).registry.root = true := by
        rw [registry_cancel hd]
        exact h.inside dir List.mem_cons_self
      obtain ⟨changes, hc, he⟩ := emitItems_eq hin .deleted d.items.entries
      rw [retireAll_cons hd]
      rw [he] at ih ⊢
      have hroot : (s.cancel host dir).registry.root = s.registry.root := by
        rw [registry_cancel hd]
        rfl
      rw [hroot] at hc
      obtain ⟨gone, hs⟩ := ih (h.turn (.drop hd) (by rw [dropped_eq hd]) (by rw [dropped_eq hd])
        (by rw [dropped_eq hd]))
      exact ⟨(dir, d) :: gone, hs.drop h hd hc⟩

/-- Retiring a directory comes to an end whatever is registered. If the directory lies inside the
root, everything registered below it hangs on an item of its parent, and only registered directories
are marked, then exactly the directory and what is registered below it is given up. -/
theorem swept_of_retire (host : Host σ) (s : Engine σ) (dir : Path) :
    (∃ k ≤ s.registry.trackedEntries + 1,
      (retireRound host)^[k] ([dir], s) = ([], s.retire host dir)) ∧
    (dir.startsWith s.registry.root = true →
      (∀ p, s.registry.contains p = true → p.startsWith dir = true → p.same dir = false →
        s.registry.Hangs p) →
      (∀ p, s.stale.contains p = true → s.registry.contains p = true) →
      ∃ gone, Swept host (fun p => p.startsWith dir) gone s (s.retire host dir)) := by
  refine ⟨?_, ?_⟩
  · obtain ⟨k, hk, hr⟩ := rounds_retireAll host [dir] s
    refine ⟨k, ?_, hr⟩
    simp at hk
    omega
  · intro hin hhangs hmarks
    have hunder : Path.under [dir] = fun p => p.startsWith dir := by
      funext p
      simp [Path.under]
    rw [← hunder]
    apply swept_retireAll
    refine ⟨by simpa using hin, ?_, fun p hm _ => hmarks p hm⟩
    intro p hp hu
    cases hs : p.same dir with
    | true => exact .inl ⟨dir, List.mem_singleton_self dir, Path.same_iff.1 hs⟩
    | false => exact .inr (hhangs p hp (by simpa [hunder] using hu) hs)

/-- The root is given up with the directory that hangs on it and has lost its watch. -/
theorem swept_of_retire_haunted :
    let root := Path.ofString "/r"
    let swept := haunted.retire passing root
    (∃ gone, Swept passing (fun p => p.startsWith root) gone haunted swept) ∧
      haunted.registry.paths = [root, .ofString "/r/a"] ∧ swept.registry.paths = [] ∧
      haunted.stale.contains (.ofString "/r/a") = true ∧ swept.stale = ∅ := by
  intro root swept
  obtain ⟨hpaths, hmarked, hin, hitem, hchild⟩ :
      haunted.registry.paths = [root, .ofString "/r/a"] ∧
        haunted.stale.keys = [.ofString "/r/a"] ∧
        root.startsWith haunted.registry.root = true ∧
        ((haunted.registry.get? root).bind fun d => (d.items.get? nameA).map (·.isDirectory)) =
          some true ∧
        (Path.ofString "/r/a").same (root.child nameA) = true := by decide +kernel
  have hkeys : ∀ p, haunted.registry.contains p = true →
      p.components = root.components ∨ p.components = (Path.ofString "/r/a").components := by
    intro p hp
    obtain ⟨q, hq, he⟩ := OrderedMap.contains_iff.1 hp
    have hq : q ∈ haunted.registry.paths := hq
    rw [Path.compare_eq_iff] at he
    simp only [hpaths, List.mem_cons, List.not_mem_nil, or_false] at hq
    rcases hq with rfl | rfl
    · exact .inl he
    · exact .inr he
  have hhangs : ∀ p, haunted.registry.contains p = true → p.startsWith root = true →
      p.same root = false → haunted.registry.Hangs p := by
    intro p hp _ hne
    obtain ⟨d, hd, hi⟩ := Option.bind_eq_some_iff.1 hitem
    obtain ⟨i, hi, hf⟩ := Option.map_eq_some_iff.1 hi
    rcases hkeys p hp with he | he
    · rw [Path.same_iff.2 he] at hne
      cases hne
    · exact ⟨root, nameA, d, i, Path.same_iff.2 (he.trans (Path.same_iff.1 hchild)), hd, hi, hf⟩
  have hmarks : ∀ p, haunted.stale.contains p = true → haunted.registry.contains p = true := by
    intro p hm
    obtain ⟨q, hq, he⟩ := OrderedMap.contains_iff.1 hm
    rw [hmarked, List.mem_singleton] at hq
    subst hq
    apply OrderedMap.contains_iff.2
    exact ⟨_, by rw [← Registry.paths, hpaths]; simp, he⟩
  obtain ⟨gone, hswept⟩ := (swept_of_retire passing haunted root).2 hin hhangs hmarks
  refine ⟨⟨gone, hswept⟩, hpaths, ?_, ?_, ?_⟩
  · rw [Registry.paths, hswept.directories]
    decide +kernel
  · apply OrderedMap.contains_iff.2
    exact ⟨_, by rw [hmarked]; simp, Std.ReflCmp.compare_self⟩
  · rw [hswept.stale]
    decide +kernel

end Engine

end DirWatch
