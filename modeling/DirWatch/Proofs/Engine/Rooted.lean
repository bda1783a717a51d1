import DirWatch.Proofs.Engine.Stream
import DirWatch.Proofs.Engine.Upkeep
import DirWatch.Proofs.Registry.FirstWalk

/-! # Whether the root stays registered

A pass that can list the root leaves it registered, unless it finds the root replaced and cannot
place its watch anew. Then nothing is registered any more, and nothing ever will be: every other
directory is tried again by a pass over its parent, and the root has none. -/

namespace DirWatch.Engine

variable {σ : Type} {host : Host σ} {s : Engine σ} {p : Path}

/-! ## Passes that keep the root -/

/-- What is longer than the path of a registered directory can be dropped without it. -/
theorem upkeep_contains (host : Host σ) (q : Path) :
    Upkeep host (fun s => s.registry.contains q = true) (fun _ => True)
      (fun p => q.components.length < p.components.length) (fun _ _ _ => True) where
  emit s kind p f hs _ := by rwa [Registry.contains, emit_directories]
  unmark _ _ hs _ _ := hs
  cancel := by
    intro s p d hs hp hd
    have hdirs : (s.cancel host p).registry.directories = s.registry.directories.erase p := by
      rw [registry_cancel hd]
      rfl
    rw [Registry.contains, hdirs, OrderedMap.contains_erase]
    refine Bool.and_eq_true_iff.2 ⟨bne_iff_ne.2 fun he => ?_, hs⟩
    rw [Path.compare_eq_iff.1 he] at hp
    exact lt_irrefl _ hp
  left := by
    intro s p d n i _ hp _ _
    refine ⟨trivial, fun _ => ?_⟩
    rw [Path.components_child, List.length_append]
    exact Nat.lt_add_right _ hp
  register s p hs _ := Registry.contains_register host hs p
  entered _ _ _ _ _ _ _ _ _ _ _ := ⟨trivial, fun _ => trivial⟩

/-- A directory that takes a listing over stays registered. -/
theorem contains_absorb {d : TrackedDirectory Name} (hd : s.registry.get? p = some d)
    (l : Listing Name) : (s.absorb host p l).2.registry.contains p = true := by
  have hchild : ∀ n, p.components.length < (p.child n).components.length := by
    intro n
    rw [Path.components_child, List.length_append]
    exact Nat.lt_succ_self _
  refine (upkeep_contains host p).absorb hd ?_ ?_ ?_ ?_ ?_
  · change (s.registry.directories.insert p _).contains p = true
    rw [OrderedMap.contains_insert, (Std.ReflCmp.compare_self : compare p p = .eq)]
    rfl
  · exact fun e _ => ⟨trivial, fun _ => hchild e.name⟩
  · exact fun _ _ => ⟨trivial, fun _ => trivial⟩
  · exact fun _ _ => trivial
  · exact fun _ _ _ _ => trivial

/-! ## The pass that gives the root up -/

/-- A pass over the root finds it replaced, and cannot place its watch anew. -/
def GivesUp (host : Host σ) (p : Path) (s : Engine σ) : Prop :=
  p.same s.registry.root = true ∧ ∃ d l r e, s.registry.get? p = some d ∧
    (s.registry.record (.began p)).list host p = (.ok l, r) ∧ s.wasReplaced p d l = true ∧
    (r.rearm host p).1 = .error e

theorem registry_root_diff (h : s.registry.Anchored) (host : Host σ) (p : Path) :
    (s.diff host p).2.registry.root = s.registry.root ∧
      (s.diff host p).2.registry.filter = s.registry.filter := by
  have hs : Valid (HostLaws.any host s.registry.root s.registry.filter False) s :=
    valid_of_anchored h rfl rfl trivial False.elim
  have hv := valid_diff hs p
  exact ⟨hv.fits.root_eq, hv.fits.filter_eq⟩

/-- A pass over another directory leaves the root registered. -/
theorem contains_root_elsewhere (h : s.registry.Anchored)
    (hroot : s.registry.contains s.registry.root = true) (hp : ¬ p.same s.registry.root = true) :
    (s.diff host p).2.registry.contains s.registry.root = true := by
  have hs : Valid (HostLaws.any host s.registry.root s.registry.filter False) s :=
    valid_of_anchored h rfl rfl trivial False.elim
  by_cases hat : ∃ y, Path.At s.registry.root p y
  · obtain ⟨y, hy⟩ := hat
    have hne : ¬ y <+: [] := by
      intro hnil
      rw [List.prefix_nil.1 hnil] at hy
      exact hp (Path.same_iff.2 (Path.at_root_iff.1 hy))
    obtain ⟨es, hes⟩ := passed_diff (p := p) ⟨hy, trivial⟩ hs
    have hself : Path.At s.registry.root s.registry.root [] := Path.at_root_iff.2 rfl
    refine (hes.valid.fits.contains_iff hself).2 ?_
    rw [← forest, hes.drift.outside [] hne]
    exact (hs.fits.contains_iff hself).1 hroot
  · rw [diff_outside hs fun y hy => hat ⟨y, hy⟩]
    exact hroot

/-- Nothing of a registry that hangs together is left when its root is retired. -/
theorem contains_root_retire (h : s.registry.Anchored) (hp : p.same s.registry.root = true) :
    (s.retire host p).registry.contains p = false := by
  have hat : Path.At s.registry.root p [] := Path.at_root_iff.2 (Path.same_iff.1 hp)
  have hfits : (HostLaws.any host s.registry.root s.registry.filter False).Fits s.registry :=
    ⟨rfl, rfl, trivial, fun _ hq => h.inside hq⟩
  obtain ⟨es, hes⟩ := retired_retire hfits ⟨hat, trivial⟩ fun z n _ => h.sound.hangs z n
  rw [← Bool.not_eq_true, hes.fits.contains_iff hat, not_not]
  exact hes.gone [] (Covers.singleton.2 List.prefix_rfl)

/-- Once the root is listed, only a new watch that cannot be placed matters. -/
theorem contains_root_renew_iff (h : s.registry.Anchored) (hp : p.same s.registry.root = true)
    {d : TrackedDirectory Name} (hd : s.registry.get? p = some d) {l : Listing Name}
    {replaced : Bool} (hok : (s.renew host p l replaced).1 = .ok ()) :
    (s.renew host p l replaced).2.registry.contains p = true ↔
      ¬ (replaced = true ∧ ∃ e, (s.registry.rearm host p).1 = .error e) := by
  cases replaced with
  | false => exact iff_of_true (contains_absorb hd l) (by simp)
  | true =>
      simp only [renew, if_true] at hok ⊢
      rcases hr : s.registry.rearm host p with ⟨e | _, r⟩ <;> rw [hr] at hok
      · have hdirs : r.directories = s.registry.directories := congrArg (·.2.directories) hr.symm
        have hroot : r.root = s.registry.root := congrArg (·.2.root) hr.symm
        have hanchored : r.Anchored := by
          obtain ⟨root, filter, directories, machine, journal⟩ := r
          obtain rfl : directories = _ := hdirs
          obtain rfl : root = _ := hroot
          exact ⟨h.hangs, h.current⟩
        refine iff_of_false ?_ fun hn => hn ⟨trivial, e, rfl⟩
        dsimp only at hok ⊢
        split at hok
        · cases hok
        · next he =>
            rw [if_neg he, Bool.not_eq_true]
            exact contains_root_retire (s := { s with registry := r }) hanchored (hroot ▸ hp)
      · refine iff_of_true (contains_absorb (d := d) ?_ l) (by simp)
        exact (congrArg (fun a => a.2.get? p) hr).symm.trans hd

/-- A pass that can list the root and does not fail leaves the root registered, unless it gives the
root up. -/
theorem contains_root_diff_iff (h : s.registry.Anchored)
    (hroot : s.registry.contains s.registry.root = true)
    (hl : p.same s.registry.root = true → ∃ l, (s.registry.list host p).1 = .ok l)
    (hok : (s.diff host p).1 = .ok ()) :
    (s.diff host p).2.registry.contains s.registry.root = true ↔ ¬ s.GivesUp host p := by
  by_cases hp : p.same s.registry.root = true
  swap
  · exact iff_of_true (contains_root_elsewhere h hroot hp) fun hgives => hp hgives.1
  have hcompare : compare s.registry.root p = .eq := Path.compare_eq_iff.2 (Path.same_iff.1 hp).symm
  have hcontains : ∀ r : Registry σ, r.contains s.registry.root = r.contains p :=
    fun r => r.directories.contains_congr hcompare
  obtain ⟨d, hd⟩ := Option.isSome_iff_exists.1 ((hcontains s.registry).symm.trans hroot)
  obtain ⟨l, hl⟩ := hl hp
  have hl : ((s.registry.record (.began p)).list host p).1 = .ok l := hl
  have hgives : s.GivesUp host p ↔ s.wasReplaced p d l = true ∧
      ∃ e, (((s.registry.record (.began p)).list host p).2.rearm host p).1 = .error e := by
    constructor
    · rintro ⟨-, d', l', r, e, hd', hl', hrep, he⟩
      obtain rfl : d = d' := Option.some.inj (hd.symm.trans hd')
      rw [hl'] at hl ⊢
      obtain rfl := Except.ok.inj hl
      exact ⟨hrep, e, he⟩
    · rintro ⟨hrep, e, he⟩
      exact ⟨hp, d, l, _, e, hd, Prod.ext hl rfl, hrep, he⟩
  rw [hgives, hcontains]
  rw [diff_eq hd, hl] at hok ⊢
  let listed : Engine σ :=
    { s with registry := ((s.registry.record (.began p)).list host p).2 }
  exact contains_root_renew_iff (s := { listed.unmark p with
    counters := { s.counters with diffed := s.counters.diffed + 1 } })
    ⟨h.hangs, h.current⟩ hp hd hok

/-! ## Nothing is left -/

/-- Where nothing is registered, nothing is ever registered again. -/
theorem directories_inTurn_perform (hs : s.registry.directories = ∅) (tasks : List (Task σ)) :
    (inTurn perform tasks s).2.registry.directories = ∅ := by
  refine inTurn_keeps (I := fun s : Engine σ => s.registry.directories = ∅) ?_ hs
  rintro t - s hs
  cases t with
  | diff host p =>
      have hn : s.registry.get? p = none := by
        rw [Registry.get?, hs, OrderedMap.get?_empty]
      rw [perform, diff_none hn]
      exact hs
  | markStale p => rwa [perform, registry_markStale]
  | change machine => exact hs

end DirWatch.Engine
