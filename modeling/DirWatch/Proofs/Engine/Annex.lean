import DirWatch.Proofs.Engine.AdoptLoop
import DirWatch.Proofs.Engine.Cells
import DirWatch.Proofs.Engine.Items
import DirWatch.Proofs.Engine.Locality
import DirWatch.Proofs.Registry.Adoption

/-! # What adopting registers and reports

While nothing changes below a directory, adopting it registers the least set of directories that
holds the first one, and with each member its subdirectories, as far as they can be registered. Each
member is tracked as it was listed, and each of its entries is reported once, after the directories
that lead to it. A fatal failure ends this early; what was registered by then is kept and reported
in full. -/

namespace DirWatch

variable {σ : Type} {host : Host σ}

/-! ## The directories to adopt -/

/-- What a machine answers about a directory and what is below it: how it ends to watch a directory
and what a listing shows. Directories are told by the names that lead to them. -/
structure Standstill where
  placed : List Name → Except Error Unit
  shown : List Name → Except Error (Listing Name)

namespace Standstill

/-- A directory can be registered. -/
def Registers (A : Standstill) (y : List Name) : Prop :=
  A.placed y = .ok () ∧ ∃ l, A.shown y = .ok l

/-- A directory shows an entry. -/
def Shows (A : Standstill) (y : List Name) (n : Name) (f : Bool) : Prop :=
  ∃ l e, A.shown y = .ok l ∧ l.entries.get? n = some e ∧ e.isDirectory = f

/-- The least set of directories that holds the first one, and with each member the directories that
it shows, as far as these can be registered. -/
inductive Adoptable (A : Standstill) : List Name → Prop
  | top (registers : A.Registers []) : A.Adoptable []
  | entry {y : List Name} {n : Name} (parent : A.Adoptable y) (shown : A.Shows y n true)
      (registers : A.Registers (y ++ [n])) : A.Adoptable (y ++ [n])

/-- A machine gives these answers below a directory, in states that no request leaves. -/
structure Given (A : Standstill) (host : Host σ) (observes : Path → Name → Bool) (top : Path)
    (holds : σ → Prop) : Prop where
  watch : ∀ y s, holds s → (host.watch (top.below y) s).1 = A.placed y ∧
    holds (host.watch (top.below y) s).2
  list : ∀ y s, holds s → (host.list (observes (top.below y)) (top.below y) s).1 = A.shown y ∧
    holds (host.list (observes (top.below y)) (top.below y) s).2
  unwatch : ∀ y s, holds s → holds (host.unwatch (top.below y) s).2

variable {A : Standstill} {y t : List Name} {n : Name}

theorem Adoptable.registers (h : A.Adoptable y) : A.Registers y := by
  cases h with
  | top registers => exact registers
  | entry _ _ registers => exact registers

theorem Adoptable.parent (h : A.Adoptable (y ++ [n])) : A.Adoptable y ∧ A.Shows y n true := by
  generalize hz : y ++ [n] = z at h
  cases h with
  | top => simp at hz
  | entry parent shown _ =>
      obtain ⟨rfl, rfl⟩ := List.append_singleton_inj.1 hz
      exact ⟨parent, shown⟩

theorem Adoptable.of_isPart (h : A.Adoptable y) (ht : t <+: y) : A.Adoptable t := by
  induction y using List.reverseRecOn with
  | nil =>
      rw [List.prefix_nil] at ht
      rwa [ht]
  | append_singleton y n ih =>
      rcases List.prefix_concat_iff.1 ht with rfl | ht
      · exact h
      · exact ih h.parent.1 ht

end Standstill

/-- A machine that displays a scene gives its answers below any directory of it. -/
theorem Host.Displays.given {sc : Scene} {holds : σ → Prop} (h : host.Displays sc holds)
    {placed : List Name → Except Error Unit}
    (hw : ∀ y s, holds s → (host.watch (sc.root.below y) s).1 = placed y) {r : Registry σ}
    (hroot : r.root = sc.root) (hfilter : r.filter = sc.filter) (z : List Name) :
    Standstill.Given ⟨fun y => placed (z ++ y), fun y => sc.look (z ++ y)⟩ host r.observes
      (sc.root.below z) holds where
  watch y s hs := by
    rw [Path.below_append]
    exact ⟨hw (z ++ y) s hs, h.watch _ s hs⟩
  list y s hs := by
    rw [Path.below_append, Host.Presents.observes_below hroot hfilter]
    exact h.list (z ++ y) hs
  unwatch _ _ hs := h.unwatch _ _ hs

namespace Engine

/-- Some directories below `top` have come to be registered, with every entry of theirs reported by
the names that lead to it, and nothing else has changed. -/
structure Annexed (A : Standstill) (top : Path) (found : List (List Name))
    (told : List (List Name × Bool)) (new : List Action) (s s' : Engine σ) : Prop where
  adoptable : ∀ y ∈ found, A.Adoptable y
  registered : ∀ y ∈ found, ∃ l d, A.shown y = .ok l ∧
    s'.registry.get? (top.below y) = some d ∧ d.generation = 1 ∧ d.identity = l.identity ∧
      ∀ n, d.items.get? n = (l.entries.get? n).map (·.stamped 1)
  elsewhere : ∀ p, (∀ y ∈ found, p.same (top.below y) = false) →
    s'.registry.get? p = s.registry.get? p
  root : s'.registry.root = s.registry.root
  filter : s'.registry.filter = s.registry.filter
  stale : s'.stale = s.stale
  entries : ∀ z f, (z, f) ∈ told ↔ ∃ y n, z = y ++ [n] ∧ y ∈ found ∧ A.Shows y n f
  /-- No entry is reported twice, or before a directory that leads to it. -/
  order : told.Pairwise fun a b => ¬ b.1 <+: a.1
  above : ∀ z f, (z, f) ∈ told → ∀ u, u ≠ [] → u <+: z → u ≠ z → (u, true) ∈ told
  journal : s'.registry.journal = s.registry.journal ++ new
  changes : ∃ changes : List Change, new.filterMap Action.notification? = changes.map .changed ∧
    List.Forall₂ (fun a c => c.kind = .created ∧
      (top.below a.1).stripPrefix? s.registry.root = some c.path ∧ c.isDirectory = a.2) told changes
  counters : s'.counters = { s.counters with
    totals := (fun t => t.add .created)^[told.length] s.counters.totals }
  /-- Whatever was listed is kept. -/
  kept : ∀ y l, .listed (top.below y) (.ok l) ∈ new → y ∈ found

/-- Some directories were annexed, and those of `todo` are still to be tried. -/
structure Annexing (A : Standstill) (top : Path) (holds : σ → Prop) (todo found : List (List Name))
    (told : List (List Name × Bool)) (new : List Action) (s s' : Engine σ) : Prop
    extends Annexed A top found told new s s' where
  machine : holds s'.registry.machine
  apart : todo.Pairwise Apart
  fresh : ∀ y ∈ found, ¬ Covers todo y
  complete : ∀ y, A.Adoptable y → y ∈ found ∨ Covers todo y
  shown : ∀ t ∈ todo, t = [] ∨ ∃ y n, t = y ++ [n] ∧ A.Adoptable y ∧ A.Shows y n true
  announced : ∀ t ∈ todo, ∀ u, u ≠ [] → u <+: t → (u, true) ∈ told
  calm : ∀ p e, .watched p (.error e) ∈ new → e.isFatal = false

/-- The reports in a journal are the changes that were told. -/
theorem filterMap_told (changes : List Change) :
    (changes.map Change.told).filterMap Action.notification? = changes.map .changed := by
  induction changes with
  | nil => rfl
  | cons c changes ih => simpa [Change.told, Action.notification?] using ih

/-! ## One registration -/

section Registration

variable {A : Standstill} {top : Path} {holds : σ → Prop} {s : Engine σ} {y : List Name}

/-- Registering a directory that is not registered ends as the machine answers. The watch is placed
and then a listing is taken; where either fails nothing but the machine has changed. -/
theorem register_answers {observes : Path → Name → Bool} (hA : A.Given host observes top holds)
    (hobs : s.registry.observes = observes) (hm : holds s.registry.machine)
    (hnew : s.registry.contains (top.below y) = false) :
    (∃ e machine asked, s.register host (top.below y) = (.error e, { s with registry :=
          { s.registry with machine, journal := s.registry.journal ++ asked } }) ∧
        holds machine ∧ ¬ A.Registers y ∧
        ((A.placed y = .error e ∧ asked = [.watched (top.below y) (.error e)]) ∨
          (e.isFatal = false ∧ ∃ result, asked = [.watched (top.below y) (.ok ()),
            .listed (top.below y) (.error e), .unwatched (top.below y) result]))) ∨
      ∃ l machine, s.register host (top.below y) = (.ok true, { s with registry :=
          { s.registry with
            directories := s.registry.directories.insert (top.below y) (.ofListing l)
            machine
            journal := s.registry.journal ++
              [.watched (top.below y) (.ok ()), .listed (top.below y) (.ok l)] } }) ∧
        holds machine ∧ A.placed y = .ok () ∧ A.shown y = .ok l := by
  subst hobs
  obtain ⟨hplaced, hm₁⟩ := hA.watch y s.registry.machine hm
  rcases hw : host.watch (top.below y) s.registry.machine with ⟨e | _, m₁⟩ <;>
    rw [hw] at hplaced hm₁
  · left
    refine ⟨e, m₁, _, ?_, hm₁, ?_, .inl ⟨hplaced.symm, rfl⟩⟩
    · simp [register, Registry.register, hnew, Registry.watch, hw, Registry.record]
    · intro h
      simp [h.1] at hplaced
  obtain ⟨hshown, hm₂⟩ := hA.list y m₁ hm₁
  have hobs : Registry.observes (σ := σ) { s.registry with
      machine := m₁, journal := s.registry.journal ++ [.watched (top.below y) (.ok ())] } =
      s.registry.observes := rfl
  rcases hl : host.list (s.registry.observes (top.below y)) (top.below y) m₁ with ⟨e | l, m₂⟩ <;>
    rw [hl] at hshown hm₂
  · left
    refine ⟨e, (host.unwatch (top.below y) m₂).2, _, ?_, hA.unwatch y m₂ hm₂, ?_,
      .inr ⟨not_fatal_of_list hl, (host.unwatch (top.below y) m₂).1, rfl⟩⟩
    · simp [register, Registry.register, hnew, Registry.watch, hw, Registry.record, Registry.list,
        hobs, hl, Registry.unwatch]
    · rintro ⟨-, l, hl'⟩
      simp [hl'] at hshown
  · right
    refine ⟨l, m₂, ?_, hm₂, hplaced.symm, hshown.symm⟩
    simp [register, Registry.register, hnew, Registry.watch, hw, Registry.record, Registry.list,
      hobs, hl]

end Registration

/-! ## One round -/

/-- The reports about a listed directory. -/
def row (t : List Name) (l : Listing Name) : List (List Name × Bool) :=
  (TrackedDirectory.ofListing l).items.entries.map fun e => (t ++ [e.1], e.2.isDirectory)

/-- The subdirectories of a listed directory, the last one first. -/
def branches (t : List Name) (l : Listing Name) : List (List Name) :=
  (TrackedDirectory.ofListing l).subdirectories.reverse.map fun n => t ++ [n]

section Rows

variable {A : Standstill} {t z : List Name} {l : Listing Name} {f : Bool} {n : Name}

theorem shows_iff (hl : A.shown t = .ok l) : A.Shows t n f ↔
    ∃ i, (TrackedDirectory.ofListing l).items.get? n = some i ∧ i.isDirectory = f := by
  simp only [Standstill.Shows, hl, Except.ok.injEq, exists_and_left, exists_eq_left',
    TrackedDirectory.get?_items_ofListing]
  cases l.entries.get? n <;> simp [ListedEntry.stamped]

theorem mem_row (hl : A.shown t = .ok l) :
    (z, f) ∈ row t l ↔ ∃ n, z = t ++ [n] ∧ A.Shows t n f := by
  simp only [row, List.mem_map, Prod.exists, Prod.mk.injEq, OrderedMap.mem_entries_iff,
    shows_iff hl]
  constructor
  · rintro ⟨n, i, hi, rfl, rfl⟩
    exact ⟨n, rfl, i, hi, rfl⟩
  · rintro ⟨n, rfl, i, hi, rfl⟩
    exact ⟨n, i, hi, rfl, rfl⟩

theorem mem_branches (hl : A.shown t = .ok l) :
    z ∈ branches t l ↔ ∃ n, z = t ++ [n] ∧ A.Shows t n true := by
  simp only [branches, List.mem_map, List.mem_reverse, TrackedDirectory.mem_subdirectories,
    shows_iff hl, eq_comm (a := z)]
  constructor
  · rintro ⟨n, hi, he⟩
    exact ⟨n, he, hi⟩
  · rintro ⟨n, he, hi⟩
    exact ⟨n, hi, he⟩

theorem pairwise_row (t : List Name) (l : Listing Name) :
    (row t l).Pairwise fun a b => ¬ b.1 <+: a.1 := by
  have hkeys := (TrackedDirectory.ofListing l).items.nodup_keys
  rw [row, List.pairwise_map]
  rw [OrderedMap.keys, List.Nodup, List.pairwise_map] at hkeys
  apply hkeys.imp
  intro a b hne
  exact (Apart.children hne).2

theorem apart_branches {rest : List (List Name)} (h : (t :: rest).Pairwise Apart) :
    (branches t l ++ rest).Pairwise Apart :=
  Apart.replace (List.nodup_reverse.2 (TrackedDirectory.nodup_subdirectories _)) h

end Rows

namespace Annexed

variable {A : Standstill} {top : Path} {found : List (List Name)}
  {told : List (List Name × Bool)} {new : List Action} {s s' : Engine σ}

theorem start (A : Standstill) (top : Path) (s : Engine σ) : Annexed A top [] [] [] s s where
  adoptable := by simp
  registered := by simp
  elsewhere _ _ := rfl
  root := rfl
  filter := rfl
  stale := rfl
  entries := by simp
  order := .nil
  above := by simp
  journal := by simp
  changes := ⟨[], rfl, .nil⟩
  counters := by simp
  kept := by simp

theorem get?_of_notMem (h : Annexed A top found told new s s') {y : List Name} (hy : y ∉ found) :
    s'.registry.get? (top.below y) = s.registry.get? (top.below y) := by
  apply h.elsewhere
  intro z hz
  rw [Bool.eq_false_iff, ne_eq, Path.same_iff]
  intro he
  obtain rfl := components_below_inj he
  exact hy hz

/-- A failed registration changes nothing but the machine. -/
theorem refuse (h : Annexed A top found told new s s') {asked : List Action} (machine : σ)
    (hsilent : asked.filterMap Action.notification? = [])
    (hlisted : ∀ p l, .listed p (.ok l) ∉ asked) :
    Annexed A top found told (new ++ asked) s { s' with registry :=
      { s'.registry with machine, journal := s'.registry.journal ++ asked } } where
  adoptable := h.adoptable
  registered := h.registered
  elsewhere := h.elsewhere
  root := h.root
  filter := h.filter
  stale := h.stale
  entries := h.entries
  order := h.order
  above := h.above
  journal := by simp [h.journal]
  changes := by simpa [hsilent] using h.changes
  counters := h.counters
  kept y l hmem := by
    rcases List.mem_append.1 hmem with hmem | hmem
    · exact h.kept y l hmem
    · exact absurd hmem (hlisted _ l)

variable {t : List Name} {l : Listing Name} {changes : List Change}

/-- What is known of a directory comes to what is known of the others. -/
theorem annex (h : Annexed A top found told new s s') (machine : σ) (hadoptable : A.Adoptable t)
    (hl : A.shown t = .ok l) (hfound : t ∉ found) (hnot : ∀ a ∈ told, ∀ n, ¬ t ++ [n] <+: a.1)
    (hannounced : ∀ u, u ≠ [] → u <+: t → (u, true) ∈ told)
    (hc : Itemizes s.registry.root .created (top.below t)
      (TrackedDirectory.ofListing l).items.entries changes) :
    Annexed A top (found ++ [t]) (told ++ row t l)
      (new ++ ([.watched (top.below t) (.ok ()), .listed (top.below t) (.ok l)] ++
        changes.map Change.told)) s
      (afterTelling .created changes { s' with registry := { s'.registry with
        directories := s'.registry.directories.insert (top.below t) (.ofListing l)
        machine
        journal := s'.registry.journal ++
          [.watched (top.below t) (.ok ()), .listed (top.below t) (.ok l)] } }) := by
  have hlength : (row t l).length = changes.length := by
    rw [← hc.length_eq, row, List.length_map]
  refine { root := h.root, filter := h.filter, stale := h.stale,
           adoptable := ?adoptable, registered := ?registered, elsewhere := ?elsewhere,
           entries := ?entries, order := ?order, above := ?above, journal := ?journal,
           changes := ?changes, counters := ?counters, kept := ?kept }
  case adoptable =>
    intro y hy
    rcases List.mem_append.1 hy with hy | hy
    · exact h.adoptable y hy
    · rwa [List.mem_singleton.1 hy]
  case registered =>
    intro y hy
    rcases List.mem_append.1 hy with hy | hy
    · obtain ⟨l', d, hl', hd, hrest⟩ := h.registered y hy
      have hne : compare (top.below y) (top.below t) ≠ .eq := by
        intro he
        exact hfound (components_below_inj (Path.compare_eq_iff.1 he) ▸ hy)
      refine ⟨l', d, hl', ?_, hrest⟩
      simpa [afterTelling, Registry.get?, hne] using hd
    · rw [List.mem_singleton.1 hy]
      refine ⟨l, .ofListing l, hl, ?_, rfl, rfl, TrackedDirectory.get?_items_ofListing l⟩
      simp [afterTelling, Registry.get?]
  case elsewhere =>
    intro p hne
    have ht := hne t (List.mem_append_right _ (List.mem_singleton_self t))
    have hp : compare p (top.below t) ≠ .eq := by
      rw [ne_eq, Path.compare_eq_iff, ← Path.same_iff, ht]
      simp
    rw [← h.elsewhere p fun y hy => hne y (List.mem_append_left _ hy)]
    simp [afterTelling, Registry.get?, hp]
  case entries =>
    intro z f
    rw [List.mem_append, h.entries, mem_row hl]
    constructor
    · rintro (⟨y, n, hz, hy, hn⟩ | ⟨n, hz, hn⟩)
      · exact ⟨y, n, hz, List.mem_append_left _ hy, hn⟩
      · exact ⟨t, n, hz, List.mem_append_right _ (List.mem_singleton_self t), hn⟩
    · rintro ⟨y, n, hz, hy, hn⟩
      rcases List.mem_append.1 hy with hy | hy
      · exact .inl ⟨y, n, hz, hy, hn⟩
      · rw [List.mem_singleton.1 hy] at hz hn
        exact .inr ⟨n, hz, hn⟩
  case order =>
    refine List.pairwise_append.2 ⟨h.order, pairwise_row t l, ?_⟩
    intro a ha b hb
    obtain ⟨n, hz, -⟩ := (mem_row (z := b.1) (f := b.2) hl).1 hb
    rw [hz]
    exact hnot a ha n
  case above =>
    intro z f hz u hne hu hproper
    rcases List.mem_append.1 hz with hz | hz
    · exact List.mem_append_left _ (h.above z f hz u hne hu hproper)
    · obtain ⟨n, rfl, -⟩ := (mem_row hl).1 hz
      have hut := (List.prefix_concat_iff.1 hu).resolve_left hproper
      exact List.mem_append_left _ (hannounced u hne hut)
  case journal => simp [afterTelling, h.journal]
  case changes =>
    obtain ⟨before, hbefore, hrel⟩ := h.changes
    refine ⟨before ++ changes, ?_, List.rel_append hrel ?_⟩
    · rw [List.filterMap_append, hbefore, List.map_append, List.filterMap_append, filterMap_told]
      rfl
    · refine List.forall₂_map_left_iff.2 (hc.imp ?_)
      intro e c he
      rwa [Path.below_concat]
  case counters =>
    simp only [afterTelling, h.counters]
    rw [List.length_append, hlength, Nat.add_comm, Function.iterate_add_apply]
  case kept =>
    intro y l' hmem
    rcases List.mem_append.1 hmem with hmem | hmem
    · exact List.mem_append_left _ (h.kept y l' hmem)
    · simp [Change.told] at hmem
      obtain rfl := components_below_inj (congrArg Path.components hmem.1)
      exact List.mem_append_right _ (List.mem_singleton_self y)

end Annexed

namespace Annexing

variable {A : Standstill} {top : Path} {holds : σ → Prop} {t : List Name}
  {rest found : List (List Name)} {told : List (List Name × Bool)} {new : List Action}
  {s s' : Engine σ}

theorem start (A : Standstill) (top : Path) {holds : σ → Prop} (hm : holds s.registry.machine) :
    Annexing A top holds [[]] [] [] [] s s where
  toAnnexed := .start A top s
  machine := hm
  apart := List.pairwise_singleton _ _
  fresh := by simp
  complete y _ := .inr (Covers.singleton.2 List.nil_prefix)
  shown := by simp
  announced t ht u hne hu := by
    rw [List.mem_singleton.1 ht, List.prefix_nil] at hu
    exact absurd hu hne
  calm := by simp

/-- A directory that cannot be registered is passed over with everything below it. -/
theorem refuse (h : Annexing A top holds (t :: rest) found told new s s') {asked : List Action}
    {machine : σ} (hm : holds machine) (hnot : ¬ A.Registers t)
    (hsilent : asked.filterMap Action.notification? = [])
    (hlisted : ∀ p l, .listed p (.ok l) ∉ asked)
    (hcalm : ∀ p e, .watched p (.error e) ∈ asked → e.isFatal = false) :
    Annexing A top holds rest found told (new ++ asked) s { s' with registry :=
      { s'.registry with machine, journal := s'.registry.journal ++ asked } } where
  toAnnexed := h.toAnnexed.refuse machine hsilent hlisted
  machine := hm
  apart := (List.pairwise_cons.1 h.apart).2
  fresh y hy hc := h.fresh y hy (Covers.cons.2 (.inr hc))
  complete y hy := by
    rcases h.complete y hy with hf | hc
    · exact .inl hf
    rcases Covers.cons.1 hc with ht | hc
    · exact absurd (hy.of_isPart ht).registers hnot
    · exact .inr hc
  shown u hu := h.shown u (List.mem_cons_of_mem t hu)
  announced u hu := h.announced u (List.mem_cons_of_mem t hu)
  calm p e hmem := by
    rcases List.mem_append.1 hmem with hmem | hmem
    · exact h.calm p e hmem
    · exact hcalm p e hmem

/-- The first directory of the rest belongs to the set if it can be registered. -/
theorem adoptable_head (h : Annexing A top holds (t :: rest) found told new s s')
    (hr : A.Registers t) : A.Adoptable t := by
  rcases h.shown t List.mem_cons_self with rfl | ⟨y, n, rfl, hy, hn⟩
  · exact .top hr
  · exact .entry hy hn hr

theorem notMem_head (h : Annexing A top holds (t :: rest) found told new s s') : t ∉ found := by
  intro ht
  exact h.fresh t ht (Covers.cons.2 (.inl List.prefix_rfl))

/-- Nothing below the first directory of the rest was reported. -/
theorem not_told (h : Annexing A top holds (t :: rest) found told new s s') :
    ∀ a ∈ told, ∀ n, ¬ t ++ [n] <+: a.1 := by
  intro a ha n hp
  obtain ⟨y, m, hz, hy, -⟩ := (h.entries a.1 a.2).1 ha
  rw [hz, List.prefix_concat_iff] at hp
  rcases hp with he | hp
  · obtain ⟨rfl, -⟩ := List.append_singleton_inj.1 he
    exact h.notMem_head hy
  · exact h.fresh y hy (Covers.cons.2 (.inl (Covers.of_child hp)))

variable {l : Listing Name} {changes : List Change}

/-- What leads to the directories that are to be tried next is reported by then. -/
theorem announced_annex (h : Annexing A top holds (t :: rest) found told new s s')
    (hl : A.shown t = .ok l) :
    ∀ z ∈ branches t l ++ rest, ∀ u, u ≠ [] → u <+: z → (u, true) ∈ told ++ row t l := by
  intro z hz u hne hu
  rcases List.mem_append.1 hz with hz | hz
  · obtain ⟨n, rfl, hn⟩ := (mem_branches hl).1 hz
    rcases List.prefix_concat_iff.1 hu with rfl | hu
    · exact List.mem_append_right _ ((mem_row hl).2 ⟨n, rfl, hn⟩)
    · exact List.mem_append_left _ (h.announced t List.mem_cons_self u hne hu)
  · exact List.mem_append_left _ (h.announced z (List.mem_cons_of_mem t hz) u hne hu)

/-- What is adoptable below the first directory of the rest is itself or below an entry of its. -/
theorem complete_annex (h : Annexing A top holds (t :: rest) found told new s s')
    (hl : A.shown t = .ok l) {y : List Name} (hy : A.Adoptable y) :
    y ∈ found ++ [t] ∨ Covers (branches t l ++ rest) y := by
  rcases h.complete y hy with hf | hc
  · exact .inl (List.mem_append_left _ hf)
  rcases Covers.cons.1 hc with ht | hc
  · rcases Covers.below_cases ht with rfl | ⟨n, hn⟩
    · exact .inl (List.mem_append_right _ (List.mem_singleton_self y))
    · have hshown := (hy.of_isPart hn).parent.2
      have hbranch := (mem_branches hl).2 ⟨n, rfl, hshown⟩
      exact .inr (Covers.append.2 (.inl ⟨t ++ [n], hbranch, hn⟩))
  · exact .inr (Covers.append.2 (.inr hc))

/-- A directory that is registered is annexed, and its subdirectories are to be tried. -/
theorem annex (h : Annexing A top holds (t :: rest) found told new s s') {machine : σ}
    (hm : holds machine) (hp : A.placed t = .ok ()) (hl : A.shown t = .ok l)
    (hc : Itemizes s.registry.root .created (top.below t)
      (TrackedDirectory.ofListing l).items.entries changes) :
    Annexing A top holds (branches t l ++ rest) (found ++ [t]) (told ++ row t l)
      (new ++ ([.watched (top.below t) (.ok ()), .listed (top.below t) (.ok l)] ++
        changes.map Change.told)) s
      (afterTelling .created changes { s' with registry := { s'.registry with
        directories := s'.registry.directories.insert (top.below t) (.ofListing l)
        machine
        journal := s'.registry.journal ++
          [.watched (top.below t) (.ok ()), .listed (top.below t) (.ok l)] } }) := by
  have hadoptable : A.Adoptable t := h.adoptable_head ⟨hp, l, hl⟩
  refine { machine := hm, apart := apart_branches h.apart, announced := h.announced_annex hl,
           complete := fun y hy => h.complete_annex hl hy,
           toAnnexed := ?annexed, fresh := ?fresh, shown := ?shown, calm := ?calm }
  case annexed =>
    exact h.toAnnexed.annex machine hadoptable hl h.notMem_head h.not_told
      (h.announced t List.mem_cons_self) hc
  case fresh =>
    intro y hy hcov
    obtain ⟨hcov, hne⟩ := Apart.covers_of_replace h.apart hcov
    rcases List.mem_append.1 hy with hy | hy
    · exact h.fresh y hy hcov
    · exact hne (List.mem_singleton.1 hy)
  case shown =>
    intro u hu
    rcases List.mem_append.1 hu with hu | hu
    · obtain ⟨n, rfl, hn⟩ := (mem_branches hl).1 hu
      exact .inr ⟨t, n, rfl, hadoptable, hn⟩
    · exact h.shown u (List.mem_cons_of_mem t hu)
  case calm =>
    intro p e hmem
    rcases List.mem_append.1 hmem with hmem | hmem
    · exact h.calm p e hmem
    · simp [Change.told] at hmem

end Annexing

/-! ## The loop -/

/-- A watch failed fatally, and none did before. -/
structure Stops (A : Standstill) (top : Path) (new : List Action) (e : Error) : Prop where
  fatal : e.isFatal = true
  asked : ∃ y, A.placed y = .error e ∧ .watched (top.below y) (.error e) ∈ new
  first : ∀ p e', .watched p (.error e') ∈ new → e'.isFatal = true → e' = e

/-- How far the loop has come. -/
inductive Underway (A : Standstill) (top : Path) (holds : σ → Prop) (s : Engine σ) :
    Except Error (List Path) × Engine σ → Prop
  | going {todo found : List (List Name)} {told : List (List Name × Bool)} {new : List Action}
      {s' : Engine σ} (annexing : Annexing A top holds todo found told new s s') :
      Underway A top holds s (.ok (todo.map top.below), s')
  | stopped {found : List (List Name)} {told : List (List Name × Bool)} {new : List Action}
      {s' : Engine σ} {e : Error} (annexed : Annexed A top found told new s s')
      (stops : Stops A top new e) : Underway A top holds s (.error e, s')

section Loop

variable {A : Standstill} {top : Path} {holds : σ → Prop} {s : Engine σ}
  {t : List Name} {rest found : List (List Name)} {told : List (List Name × Bool)}
  {new : List Action} {s' : Engine σ}

/-- The subdirectories of a listed directory, as they come onto the stack. -/
theorem stack_branches (top : Path) (t : List Name) (l : Listing Name)
    (rest : List (List Name)) :
    ((TrackedDirectory.ofListing l).subdirectories.map (top.below t).child).reverse ++
      rest.map top.below = (branches t l ++ rest).map top.below := by
  rw [branches, List.map_append, List.map_map, ← List.map_reverse]
  congr 2
  funext n
  exact (Path.below_concat top t n).symm

/-- A watch that fails fatally ends the loop. -/
theorem Annexing.stop (h : Annexing A top holds (t :: rest) found told new s s') {e : Error}
    (hp : A.placed t = .error e) (hf : e.isFatal = true) (machine : σ) :
    Underway A top holds s (.error e, { s' with registry := { s'.registry with
      machine, journal := s'.registry.journal ++ [.watched (top.below t) (.error e)] } }) := by
  refine .stopped (h.toAnnexed.refuse machine rfl (by simp)) ⟨hf, ⟨t, hp, by simp⟩, ?_⟩
  intro p e' hmem hf'
  rcases List.mem_append.1 hmem with hmem | hmem
  · simp [h.calm p e' hmem] at hf'
  · simp only [List.mem_singleton, Action.watched.injEq, Except.error.injEq] at hmem
    exact hmem.2

variable (hA : A.Given host s.registry.observes top holds)
  (hin : top.startsWith s.registry.root = true)
  (hnew : ∀ p, p.startsWith top = true → s.registry.contains p = false)
include hA hin hnew

/-- A round on the first of the directories that are to be tried. -/
theorem Annexing.round (h : Annexing A top holds (t :: rest) found told new s s') :
    Underway A top holds s
      (adoptRound host (.ok (top.below t :: rest.map top.below), s')) := by
  have hobs : s'.registry.observes = s.registry.observes := by
    funext dir n
    simp [Registry.observes, Registry.relative?, h.root, h.filter]
  have hbare : s'.registry.contains (top.below t) = false := by
    have hout := hnew (top.below t) (Path.at_below top t).startsWith
    rw [Registry.contains, OrderedMap.contains, ← Registry.get?] at hout ⊢
    rw [h.get?_of_notMem h.notMem_head, hout]
  rw [adoptRound]
  rcases register_answers hA hobs h.machine hbare with
    ⟨e, machine, asked, hr, hm, hnot, hasked⟩ | ⟨l, machine, hr, hm, hp, hl⟩ <;> rw [hr]
  · dsimp only
    -- A watch may fail fatally; a listing never does.
    rcases hasked with ⟨hp, rfl⟩ | ⟨hf, result, rfl⟩
    · cases hf : e.isFatal with
      | true => exact h.stop hp hf machine
      | false =>
          have hcalm : ∀ p e', .watched p (.error e') ∈ [Action.watched (top.below t) (.error e)] →
              e'.isFatal = false := by simp [hf]
          exact .going (h.refuse hm hnot rfl (by simp) hcalm)
    · rw [hf]
      have hcalm : ∀ p e', .watched p (.error e') ∈ [Action.watched (top.below t) (.ok ()),
          .listed (top.below t) (.error e), .unwatched (top.below t) result] →
          e'.isFatal = false := by simp
      exact .going (h.refuse hm hnot rfl (by simp) hcalm)
  · have hget : OrderedMap.get? (s'.registry.directories.insert (top.below t) (.ofListing l))
        (top.below t) = some (.ofListing l) := by simp
    have hroot : (top.below t).startsWith s'.registry.root = true := by
      have hbelow := Path.startsWith_iff.1 (Path.at_below top t).startsWith
      rw [h.root, Path.startsWith_iff]
      exact (Path.startsWith_iff.1 hin).trans hbelow
    simp only [Registry.get?, hget, Option.getD_some, stack_branches]
    obtain ⟨changes, hc, he⟩ := emitItems_eq (s := { s' with registry := { s'.registry with
        directories := s'.registry.directories.insert (top.below t) (.ofListing l)
        machine
        journal := s'.registry.journal ++
          [.watched (top.below t) (.ok ()), .listed (top.below t) (.ok l)] } }) hroot .created
      (TrackedDirectory.ofListing l).items.entries
    rw [he]
    simp only [h.root] at hc
    exact .going (h.annex hm hp hl hc)

/-- A round, whatever has come of the loop. -/
theorem Underway.round {x : Except Error (List Path) × Engine σ} (h : Underway A top holds s x) :
    Underway A top holds s (adoptRound host x) := by
  cases h with
  | @going todo _ _ _ _ h =>
      cases todo with
      | nil => exact .going h
      | cons t rest => exact h.round hA hin hnew
  | stopped h stops => exact .stopped h stops

/-- The loop goes on from the directory that is adopted. -/
theorem underway_rounds (hm : holds s.registry.machine) (k : Nat) :
    Underway A top holds s ((adoptRound host)^[k] (.ok [top], s)) := by
  induction k with
  | zero => exact .going (.start A top hm)
  | succ k ih =>
      rw [Function.iterate_succ_apply']
      exact ih.round hA hin hnew

/-- Adopting ends with everything annexed, or with the first fatal failure. -/
theorem annexed_or_stops (hm : holds s.registry.machine) :
    ∃ found told new, Annexed A top found told new s (adopt host top s).2 ∧
      (((adopt host top s).1 = .ok () ∧ (∀ y, A.Adoptable y → y ∈ found) ∧
          ∀ p e, .watched p (.error e) ∈ new → e.isFatal = false) ∨
        ∃ e, (adopt host top s).1 = .error e ∧ Stops A top new e) := by
  obtain ⟨k, hk⟩ := rounds_adopt host top s
  have h := underway_rounds hA hin hnew hm k
  -- The loop ends with an empty stack or a failure, so it is known which way it has gone.
  rw [hk] at h
  rcases hr : (adopt host top s).1 with e | _ <;> rw [hr] at h
  · generalize hx : (Except.error e : Except Error Unit).map (fun _ => ([] : List Path)) = x at h
    cases h with
    | going => cases hx
    | stopped annexed stops =>
        obtain rfl := Except.error.inj hx
        exact ⟨_, _, _, annexed, .inr ⟨e, rfl, stops⟩⟩
  · generalize hx : (Except.ok () : Except Error Unit).map (fun _ => ([] : List Path)) = x at h
    cases h with
    | @going todo found told new _ h =>
        obtain rfl : todo = [] := List.map_eq_nil_iff.1 (Except.ok.inj hx).symm
        refine ⟨_, _, _, h.toAnnexed, .inl ⟨rfl, fun y hy => ?_, h.calm⟩⟩
        exact (h.complete y hy).resolve_right (by simp [Covers])
    | stopped => cases hx

end Loop

/-- Nothing changes below a directory of which nothing is registered. Adopting it is a loop that
ends, and it stays within this directory. It annexes directories of the set, and all of them if it
ends well. It fails if a watch fails fatally, with that error. -/
theorem annexed_of_adopt {A : Standstill} {top : Path} {holds : σ → Prop} {s : Engine σ}
    (hA : A.Given host s.registry.observes top holds) (hm : holds s.registry.machine)
    (hin : top.startsWith s.registry.root = true)
    (hnew : ∀ p, p.startsWith top = true → s.registry.contains p = false) :
    let (result, s') := adopt host top s
    (∃ k, (adoptRound host)^[k] (.ok [top], s) = (result.map fun _ => [], s')) ∧
      Confined top.within top.beneath s s' ∧
      ((∀ y e, A.placed y = .error e → e.isFatal = false) → result = .ok ()) ∧
      ∃ found told new, Annexed A top found told new s s' ∧
        (result = .ok () → ∀ y, A.Adoptable y → y ∈ found) ∧
        ∀ e, result = .error e ↔
          e.isFatal = true ∧ ∃ y, .watched (top.below y) (.error e) ∈ new := by
  have hup := upkeep_confined host s fun p n (hp : p.components ∈ top.within) =>
    ⟨top.beneath_subset (Path.child_mem_beneath hp n), Path.child_mem_beneath hp n⟩
  have hconfined := hup.adopt top.self_mem_within (.refl s)
  have hrounds := rounds_adopt host top s
  obtain ⟨found, told, new, hannexed, hend⟩ := annexed_or_stops hA hin hnew hm
  rcases hr : adopt host top s with ⟨result, s'⟩
  simp only [hr] at hconfined hrounds hannexed hend ⊢
  refine ⟨hrounds, hconfined, ?_, found, told, new, hannexed, ?_⟩
  · intro hcalm
    rcases hend with ⟨hok, -⟩ | ⟨e, -, stops⟩
    · exact hok
    · obtain ⟨y, hp, -⟩ := stops.asked
      have hf := stops.fatal
      rw [hcalm y e hp] at hf
      cases hf
  rcases hend with ⟨rfl, hall, hcalm⟩ | ⟨e, rfl, stops⟩
  · refine ⟨fun _ => hall, fun e => ⟨fun h => (by cases h), ?_⟩⟩
    rintro ⟨hf, y, hmem⟩
    rw [hcalm _ e hmem] at hf
    cases hf
  · refine ⟨fun h => (by cases h), fun e' => ⟨?_, ?_⟩⟩
    · rintro ⟨⟩
      obtain ⟨y, -, hmem⟩ := stops.asked
      exact ⟨stops.fatal, y, hmem⟩
    · rintro ⟨hf, y, hmem⟩
      rw [stops.first _ e' hmem hf]

/-! ## A tree with a busy directory -/

/-- The tree of vaults, one level down. -/
def cellar : FileTree where
  top := .directory ⟨0, 8⟩ 0o755 [(nameA, Registry.vaults.top)]

theorem distinct_cellar : cellar.Distinct := by
  refine FileTree.distinct_directory (by simp) ?_
  intro e he
  rw [List.mem_singleton.1 he]
  exact Registry.distinct_vaults

/-- The directory in the open vault is busy. -/
def cellarMachine : ScriptedMachine where
  tree := cellar
  faults := (∅ : OrderedMap Path Fault).insert
    ((FileTree.pathOf []).below [nameA, nameA, nameX]) .transient

/-- What is answered about the vaults. -/
def cellarAnswers : Standstill where
  placed y := if [nameA] ++ y = [nameA, nameA, nameX] then .error (.watcher "busy") else .ok ()
  shown y := (cellar.scene [] {}).look ([nameA] ++ y)

theorem watch_cellar {m : ScriptedMachine} (hm : m.faults = cellarMachine.faults) (y : List Name) :
    (ScriptedMachine.host.watch ((FileTree.pathOf []).below y) m).1 =
      if y = [nameA, nameA, nameX] then .error (.watcher "busy") else .ok () := by
  change (ScriptedMachine.watch _ m).1 = _
  rw [ScriptedMachine.watch, hm, cellarMachine, OrderedMap.get?_insert]
  by_cases hy : y = [nameA, nameA, nameX]
  · rw [hy, if_pos Std.ReflCmp.compare_self, if_pos rfl]
  · have hne : compare ((FileTree.pathOf []).below y)
        ((FileTree.pathOf []).below [nameA, nameA, nameX]) ≠ .eq :=
      fun he => hy (components_below_inj (Path.compare_eq_iff.1 he))
    rw [if_neg hne, if_neg hy, OrderedMap.get?_empty]

/-- The open vault is adopted. The directory in it, which is busy, is not, and neither is the vault
that may not be read. -/
theorem annexed_of_adopt_cellar :
    let top := (FileTree.pathOf []).below [nameA]
    let s : Engine ScriptedMachine :=
      { registry := { root := FileTree.pathOf [], machine := cellarMachine } }
    let (result, s') := adopt ScriptedMachine.host top s
    result = .ok () ∧ (s'.registry.get? (top.below [nameA])).isSome ∧
      s'.registry.get? (top.below [nameB]) = none ∧
      s'.registry.get? (top.below [nameA, nameX]) = none := by
  intro top s
  have hvanish : ∀ p, cellarMachine.faults.get? p ≠ some .vanish := by
    intro p
    rw [cellarMachine, OrderedMap.get?_insert]
    split <;> simp
  have hA : cellarAnswers.Given ScriptedMachine.host s.registry.observes top fun m =>
      m.tree = cellar ∧ m.faults = cellarMachine.faults :=
    (ScriptedMachine.displays cellar [] {} hvanish).given (fun y m hm => watch_cellar hm.2 y)
      rfl rfl [nameA]
  have hin : top.startsWith s.registry.root = true := by decide +kernel
  have h := annexed_of_adopt hA ⟨rfl, rfl⟩ hin fun _ _ => rfl
  rcases hr : adopt ScriptedMachine.host top s with ⟨result, s'⟩
  rw [hr] at h
  obtain ⟨-, -, hok, found, told, new, hannexed, hall, -⟩ := h
  have hresult : result = .ok () := by
    apply hok
    intro y e he
    simp only [cellarAnswers] at he
    split at he <;> cases he
    rfl
  have ha : cellar.DirectoryAt [] [nameA] Registry.vaults.top := ⟨rfl, rfl⟩
  have hopen : cellarAnswers.Adoptable [nameA] := by
    have haa := ha.child (n := nameA) rfl rfl
    have hla : (cellar.scene [] {}).Listed [nameA] := (FileTree.listed_iff ha).2 (by decide +kernel)
    have hlaa : (cellar.scene [] {}).Listed [nameA, nameA] :=
      (FileTree.listed_iff haa).2 (by decide +kernel)
    have hleads : (cellar.scene [] {}).Leads [nameA] nameA :=
      (FileTree.leads_iff_child distinct_cellar ha hla).2
        ⟨Filter.allows_default _, rfl, _, rfl, haa.2⟩
    obtain ⟨e, he, hf⟩ := Option.map_eq_some_iff.1 hleads
    exact .entry (.top ⟨rfl, _, hla.look_eq⟩) ⟨_, e, hla.look_eq, he, hf⟩ ⟨rfl, _, hlaa.look_eq⟩
  have hunreadable : [nameB] ∉ found := by
    intro hb
    have hlisted := (hannexed.adoptable _ hb).registers.2
    have hab := ha.child (n := nameB) rfl rfl
    obtain ⟨-, -, hread⟩ := (FileTree.listed_iff hab).1 hlisted
    revert hread
    decide +kernel
  have hbusy : [nameA, nameX] ∉ found := by
    intro hx
    cases (hannexed.adoptable _ hx).registers.1
  obtain ⟨l, d, -, hd, -⟩ := hannexed.registered _ (hall hresult _ hopen)
  refine ⟨hresult, Option.isSome_of_eq_some hd, ?_, ?_⟩
  · exact hannexed.get?_of_notMem hunreadable
  · exact hannexed.get?_of_notMem hbusy

end Engine

end DirWatch
