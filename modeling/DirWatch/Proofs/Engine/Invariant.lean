import DirWatch.Proofs.Engine.Pass

/-! # The invariant of the engine

Whatever a machine answers, registered directories hang together from the root, items carry the
stamp of the last listing, and only registered directories are marked. -/

namespace DirWatch

variable {σ : Type}

/-! ## Anchored registries -/

/-- Every registered directory but the root hangs on an item of a registered directory, and every
item carries the stamp of the last listing. -/
structure Registry.Anchored (r : Registry σ) : Prop where
  hangs : ∀ p, r.contains p = true → p.same r.root = true ∨
    ∃ q n d i, p.same (q.child n) = true ∧ r.get? q = some d ∧ d.items.get? n = some i ∧
      i.isDirectory = true
  current : ∀ p d, r.get? p = some d → d.Current

/-- Every registered directory but the root hangs on an item of a registered directory. -/
def Registry.Hung (r : Registry σ) : Prop :=
  ∀ p, r.contains p = true → p.same r.root = true ∨
    ∃ q n d i, p.same (q.child n) = true ∧ r.get? q = some d ∧ d.items.get? n = some i ∧
      i.isDirectory = true

namespace Registry.Hung

variable {r : Registry σ}

/-- Going up from a registered directory comes to the root. -/
theorem inside (h : r.Hung) {p : Path} (hp : r.contains p = true) :
    ∃ ns, Path.At r.root p ns := by
  induction hl : p.components.length using Nat.strong_induction_on generalizing p with
  | _ l ih =>
      rcases h p hp with he | ⟨q, n, d, i, he, hq, -⟩
      · exact ⟨[], Path.at_root_iff.2 (Path.same_iff.1 he)⟩
      · have hc := Path.same_iff.1 he
        rw [Path.components_child] at hc
        have hlt : q.components.length < l := by
          rw [← hl, hc, List.length_append]
          exact Nat.lt_succ_self _
        obtain ⟨ns, hns⟩ := ih _ hlt (Option.isSome_of_eq_some hq) rfl
        refine ⟨ns ++ [n], ?_⟩
        rw [Path.At, hc, hns, List.map_append, List.append_assoc]
        rfl

theorem carries (h : r.Hung) {y : List Name} {n : Name} (hne : r.forest (y ++ [n]) ≠ none) :
    r.forest.Carries y n := by
  have hat := Path.at_below r.root (y ++ [n])
  rcases h _ ((r.contains_iff_forest hat).2 hne) with he | ⟨q, m, d, i, he, hq, hi⟩
  · have hroot := hat.unique (Path.at_root_iff.2 (Path.same_iff.1 he))
    simp at hroot
  · have hc := Path.same_iff.1 he
    rw [Path.components_child, hat, List.map_append, ← List.append_assoc] at hc
    obtain ⟨hqy, hm⟩ := List.append_singleton_inj.1 hc
    obtain rfl := Component.name.inj hm
    exact ⟨d, i, (r.get?_eq_forest hqy.symm).symm.trans hq, hi⟩

end Registry.Hung

namespace Registry.Anchored

variable {r : Registry σ}

theorem inside (h : r.Anchored) {p : Path} (hp : r.contains p = true) :
    ∃ ns, Path.At r.root p ns :=
  Hung.inside h.hangs hp

theorem sound (h : r.Anchored) : r.forest.Sound where
  hangs _ _ := Hung.carries h.hangs
  current _ d hd := h.current _ d hd

/-- A directory put below a registered one that has an item for it. -/
theorem insert (h : r.Anchored) {p q : Path} {n : Name} {e d : TrackedDirectory Name} {i : Item}
    (hp : p.same (q.child n) = true) (hq : r.get? q = some e) (hn : e.items.get? n = some i)
    (hi : i.isDirectory = true) (hnew : r.contains p = false) (hd : d.Current) :
    Registry.Anchored { r with directories := r.directories.insert p d } := by
  have hkept : ∀ k f, r.get? k = some f →
      Registry.get? { r with directories := r.directories.insert p d } k = some f := by
    intro k f hk
    rw [Registry.get?, OrderedMap.get?_insert, if_neg]
    · exact hk
    · intro heq
      have hkp : r.contains k = r.contains p := r.directories.contains_congr heq
      have hk' : r.contains k = true := Option.isSome_of_eq_some hk
      rw [hkp, hnew] at hk'
      cases hk'
  constructor
  · intro k hk
    rw [Registry.contains, OrderedMap.contains_insert, Bool.or_eq_true_iff] at hk
    rcases hk with hk | hk
    · right
      refine ⟨q, n, e, i, ?_, hkept q e hq, hn, hi⟩
      exact Path.same_iff.2 ((Path.compare_eq_iff.1 (beq_iff_eq.1 hk)).trans (Path.same_iff.1 hp))
    · rcases h.hangs k hk with hroot | ⟨q', n', e', i', hsame, hq', hn', hi'⟩
      · exact .inl hroot
      · exact .inr ⟨q', n', e', i', hsame, hkept q' e' hq', hn', hi'⟩
  · intro k f hk
    rw [Registry.get?, OrderedMap.get?_insert] at hk
    split at hk
    · obtain rfl := Option.some.inj hk
      exact hd
    · exact h.current k f hk

end Registry.Anchored

namespace Engine

/-! ## Reachable states -/

/-- States that come from a registry with nothing but the root in it. A pass may be over any path
and on any machine, and a machine may change at any time. -/
inductive Reachable : Engine σ → Prop
  | start {s : Engine σ} (l : Listing Name)
      (registry : s.registry.directories =
        (∅ : OrderedMap Path (TrackedDirectory Name)).insert s.registry.root (.ofListing l))
      (stale : s.stale = ∅) : Reachable s
  | diff {s : Engine σ} (h : Reachable s) (host : Host σ) (p : Path) : Reachable (s.diff host p).2
  | markStale {s : Engine σ} (h : Reachable s) (p : Path) : Reachable (s.markStale p)
  | change {s : Engine σ} (h : Reachable s) (machine : σ) :
      Reachable { s with registry := { s.registry with machine } }

/-- What holds in every state that can be reached. -/
structure Invariant (s : Engine σ) : Prop where
  /-- A registered directory is the root or an item of a registered directory. -/
  placed : ∀ p, s.registry.contains p = true →
    ∃ ns, p.same (s.registry.root.below ns) = true ∧ ∀ ms n, ns = ms ++ [n] →
      ∃ d i, s.registry.get? (s.registry.root.below ms) = some d ∧ d.items.get? n = some i ∧
        i.isDirectory = true
  /-- Nothing is registered without the root. -/
  rooted : s.registry.contains s.registry.root = false → s.registry.directories = ∅
  /-- Items carry the stamp of the last listing of their directory. -/
  stamped : ∀ p d n i, s.registry.get? p = some d → d.items.get? n = some i →
    i.seen = d.generation
  /-- Only registered directories are marked. -/
  marked : ∀ p, s.stale.contains p = true → s.registry.contains p = true

/-- A registry that hangs together from its root, with marks on registered directories alone. -/
theorem invariant_of_anchored {s : Engine σ} (h : s.registry.Anchored)
    (hm : ∀ q, s.stale.contains q = true → s.registry.contains q = true) : s.Invariant where
  placed p hp := by
    obtain ⟨ns, hns⟩ := h.inside hp
    have hne := (Registry.contains_iff_forest hns).1 hp
    refine ⟨ns, ?_, ?_⟩
    · rw [Path.same_iff, hns, Path.at_below]
    · rintro ms n rfl
      exact h.sound.hangs ms n hne
  rooted hroot := by
    have hn : s.forest [] = none := by
      by_contra hne
      have hat : Path.At s.registry.root s.registry.root [] := Path.at_root_iff.2 rfl
      rw [(Registry.contains_iff_forest hat).2 hne] at hroot
      cases hroot
    apply OrderedMap.eq_empty_of_contains
    intro p
    by_contra hp
    rw [Bool.not_eq_false] at hp
    obtain ⟨ns, hns⟩ := h.inside hp
    refine (Registry.contains_iff_forest hns).1 hp ?_
    exact Forest.none_below (fun z n _ => h.sound.hangs z n) hn List.nil_prefix
  stamped p d n i hd hi := h.current p d hd n i hi
  marked := hm

variable {host : Host σ} {root : Path} {filter : Filter} {L : HostLaws host root filter}

theorem Valid.anchored {s : Engine σ} (h : Valid L s) : s.registry.Anchored where
  hangs p hp := by
    obtain ⟨ns, hns⟩ := h.fits.inside p hp
    rcases List.eq_nil_or_concat' ns with rfl | ⟨ms, n, rfl⟩
    · left
      rw [h.fits.root_eq]
      exact Path.same_iff.2 (Path.at_root_iff.1 hns)
    · right
      obtain ⟨d, i, hd, hi⟩ := h.sound.hangs ms n ((contains_iff h.fits hns).1 hp)
      refine ⟨s.registry.root.below ms, n, d, i, ?_, hd, hi⟩
      rw [Path.same_iff, hns, Path.components_child, h.fits.root_eq, Path.at_below,
        List.map_append, List.append_assoc]
      rfl
  current p d hd := by
    obtain ⟨ns, hns⟩ := h.fits.inside p (Option.isSome_of_eq_some hd)
    exact h.sound.current ns d ((h.fits.get?_eq hns).symm.trans hd)

/-- A registry that hangs together makes a valid state. -/
theorem valid_of_anchored {s : Engine σ} (h : s.registry.Anchored)
    (hr : s.registry.root = root) (hf : s.registry.filter = filter)
    (hm : L.holds s.registry.machine)
    (hs : L.tidy → ∀ q, s.stale.contains q = true → s.registry.contains q = true) :
    Valid L s where
  fits := ⟨hr, hf, hm, fun _ hp => hr ▸ h.inside hp⟩
  sound := h.sound
  marked := hs

/-- A pass over any path keeps a state valid. -/
theorem valid_diff {tidy : Prop} {s : Engine σ} (h : Valid (HostLaws.any host root filter tidy) s)
    (p : Path) : Valid (HostLaws.any host root filter tidy) (s.diff host p).2 := by
  by_cases hp : ∃ y, Path.At root p y
  · obtain ⟨y, hy⟩ := hp
    obtain ⟨es, hes⟩ := passed_diff (p := p) ⟨hy, trivial⟩ h
    exact hes.valid
  · rw [diff_outside h fun y hy => hp ⟨y, hy⟩]
    exact ⟨h.fits.of_eq rfl rfl rfl trivial, h.sound, h.marked⟩

theorem marked_markStale {s : Engine σ}
    (h : ∀ q, s.stale.contains q = true → s.registry.contains q = true) (p q : Path)
    (hq : (s.markStale p).stale.contains q = true) :
    (s.markStale p).registry.contains q = true := by
  unfold markStale at hq ⊢
  split at hq
  · next hp =>
      rw [if_pos hp]
      rw [OrderedMap.contains_insert, Bool.or_eq_true_iff] at hq
      rcases hq with hq | hq
      · exact (s.registry.directories.contains_congr (beq_iff_eq.1 hq)).trans hp
      · exact h q hq
  · next hp =>
      rw [if_neg hp]
      exact h q hq

theorem registry_markStale (s : Engine σ) (p : Path) : (s.markStale p).registry = s.registry := by
  unfold markStale
  split <;> rfl

/-- The root alone hangs together. -/
theorem anchored_start {s : Engine σ} {l : Listing Name}
    (h : s.registry.directories =
      (∅ : OrderedMap Path (TrackedDirectory Name)).insert s.registry.root (.ofListing l)) :
    s.registry.Anchored where
  hangs p hp := by
    rw [Registry.contains, h, OrderedMap.contains_insert, Bool.or_eq_true_iff] at hp
    rcases hp with hp | hp
    · exact .inl (Path.same_iff.2 (Path.compare_eq_iff.1 (beq_iff_eq.1 hp)))
    · simp at hp
  current p d hd := by
    rw [Registry.get?, h, OrderedMap.get?_insert] at hd
    split at hd
    · obtain rfl := Option.some.inj hd
      exact TrackedDirectory.current_ofListing l
    · simp at hd

theorem Reachable.anchored {s : Engine σ} (h : Reachable s) :
    s.registry.Anchored ∧ ∀ q, s.stale.contains q = true → s.registry.contains q = true := by
  induction h with
  | start l registry stale =>
      refine ⟨anchored_start registry, ?_⟩
      intro q hq
      rw [stale] at hq
      simp at hq
  | @diff s h host p ih =>
      have hs : Valid (HostLaws.any host s.registry.root s.registry.filter True) s :=
        valid_of_anchored ih.1 rfl rfl trivial fun _ => ih.2
      have hv := valid_diff hs p
      exact ⟨hv.anchored, hv.marked trivial⟩
  | @markStale s h p ih =>
      refine ⟨?_, marked_markStale ih.2 p⟩
      rw [registry_markStale]
      exact ih.1
  | change h machine ih => exact ⟨⟨ih.1.hangs, ih.1.current⟩, ih.2⟩

/-- Registering the root is where runs begin. -/
theorem reachable_register {s s' : Engine σ} {host : Host σ}
    (h : s.register host s.registry.root = (.ok true, s')) (hd : s.registry.directories = ∅)
    (hs : s.stale = ∅) : Reachable s' := by
  have hc : s.registry.contains s.registry.root = false := by
    rw [Registry.contains, hd, OrderedMap.contains_empty]
  simp only [register, Registry.register, hc, Bool.false_eq_true, if_false] at h
  split at h
  · simp at h
  · next r hw =>
      obtain rfl : (s.registry.watch host s.registry.root).2 = r := congrArg Prod.snd hw
      split at h
      · simp at h
      · next l r hl =>
          obtain rfl : (Registry.list host _ s.registry.root).2 = r := congrArg Prod.snd hl
          obtain rfl := (Prod.mk.inj h).2
          refine .start l ?_ hs
          rw [← hd]
          rfl

/-- The invariant holds in every state that can be reached, also after passes that fail. -/
theorem invariant_of_reachable {s : Engine σ} (h : Reachable s) : s.Invariant :=
  invariant_of_anchored h.anchored.1 h.anchored.2

/-- A directory `a` and a file `b` in the root `/r`. -/
def shelfMetadata (p : Path) : Except IoFailure Metadata :=
  if p = .ofString "/r" ∨ p = .ofString "/r/a" then .ok { isDirectory := true }
  else if p = .ofString "/r/b" then .ok { isDirectory := false }
  else .error .notFound

def shelfEntries (p : Path) : Except IoFailure (List DirectoryEntry) :=
  if p = .ofString "/r" then
    .ok [⟨⟨[0x61], by decide⟩, true, .ok { isDirectory := true }⟩,
      ⟨⟨[0x62], by decide⟩, false, .ok { isDirectory := false }⟩]
  else if p = .ofString "/r/a" then .ok []
  else .error .notFound

/-- The names `a`, `b`, `r` and `x`. -/
def nameA : Name := ⟨[0x61], by decide⟩

def nameB : Name := ⟨[0x62], by decide⟩

def nameR : Name := ⟨[0x72], by decide⟩

def nameX : Name := ⟨[0x78], by decide⟩

/-- A machine that shows them, with or without a watch to spare. -/
def shelf (spare : Bool) : Host Unit where
  metadata p s := (shelfMetadata p, s)
  target p s := (shelfMetadata p, s)
  canonical p s := (.ok p, s)
  readDirectory p s := (shelfEntries p, s)
  watch _ s := (if spare then .ok () else .error (.watchService "no watch left"), s)
  unwatch _ s := (.ok (), s)

/-- A root that was registered while it was empty. -/
def emptyRoot : Engine Unit where
  registry :=
    { root := .ofString "/r"
      directories := (∅ : OrderedMap Path (TrackedDirectory Name)).insert (.ofString "/r")
        (.ofListing {})
      machine := () }

theorem anchored_emptyRoot : emptyRoot.registry.Anchored := anchored_start (l := {}) rfl

/-- A pass that fails half-way, between two marks. -/
theorem invariant_after_failure :
    let s := emptyRoot.markStale (.ofString "/r")
    let r := s.diff (shelf false) (.ofString "/r")
    r.1 = .error (.watchService "no watch left") ∧ (r.2.markStale (.ofString "/r/a")).Invariant :=
  ⟨by decide +kernel,
    invariant_of_reachable (.markStale (.diff (.markStale (.start {} rfl rfl) _) _ _) _)⟩

end Engine

end DirWatch
