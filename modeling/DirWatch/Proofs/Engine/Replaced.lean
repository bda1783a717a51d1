import DirWatch.Proofs.Engine.Guard
import DirWatch.Proofs.Engine.Invariant
import DirWatch.Proofs.Engine.Reached
import DirWatch.Proofs.Engine.Upkeep
import DirWatch.Proofs.FileTree.Scene

/-! # A pass over a replaced directory

A pass that finds another directory in the place of a registered one watches it anew and takes its
listing over. What is not shown any more is dropped, and what is shown and was not registered is
adopted. A subdirectory that was registered and is still shown under its name is left as it was,
with all that is registered below it. -/

namespace DirWatch

namespace TrackedDirectory

variable {ν : Type} [Ord ν] [Std.TransOrd ν] [Std.LawfulEqOrd ν] {d : TrackedDirectory ν}
  {l : Listing ν} {n : ν}

/-- What a listing shows is tracked afterwards. -/
theorem get?_items_of_listed {e : ListedEntry} (he : l.entries.get? n = some e) :
    (d.reconcile l).2.items.get? n = some (e.stamped (d.generation + 1)) := by
  simp only [reconcile, OrderedMap.get?_filter, get?_stamp, he]
  simp [ListedEntry.stamped, Option.filter]

/-- A tracked directory is deleted unless it is tracked as one afterwards. -/
theorem mem_deleted_iff_not_subdirectory {i : Item} (hi : d.items.get? n = some i)
    (hdir : i.isDirectory = true) :
    ⟨n, true⟩ ∈ (d.reconcile l).1.deleted ↔ n ∉ (d.reconcile l).2.subdirectories := by
  have hdeleted : ⟨n, true⟩ ∈ (d.reconcile l).1.deleted ↔
      (∃ e, l.entries.get? n = some e ∧ e.isDirectory = false) ∨
        ∃ k, (d.stamp l (d.generation + 1)).get? n = some k ∧ k.seen ≠ d.generation + 1 ∧
          k.isDirectory = true := by
    simp only [reconcile, List.mem_append, List.mem_map, Prod.exists, List.mem_filter,
      NamedEntry.mk.injEq, isRetyped, OrderedMap.mem_entries_iff]
    refine or_congr ⟨?_, ?_⟩ ⟨?_, ?_⟩
    · rintro ⟨m, e, ⟨he, -⟩, rfl, hkind⟩
      exact ⟨e, he, by simpa using hkind⟩
    · rintro ⟨e, he, hkind⟩
      exact ⟨n, e, ⟨he, by simp [hi, hdir, hkind]⟩, rfl, by simp [hkind]⟩
    · rintro ⟨m, k, ⟨hk, hseen⟩, rfl, hkind⟩
      exact ⟨k, hk, by simpa using hseen, hkind⟩
    · rintro ⟨k, hk, hseen, hkind⟩
      exact ⟨n, k, ⟨hk, by simpa using hseen⟩, rfl, hkind⟩
  rw [hdeleted, mem_subdirectories]
  cases hl : l.entries.get? n with
  | some e =>
      rw [get?_items_of_listed hl, get?_stamp, hl]
      simp [ListedEntry.stamped]
  | none =>
      have htracked : (d.reconcile l).2.items.get? n =
          if i.seen = d.generation + 1 then some i else none := by
        simp only [reconcile, OrderedMap.get?_filter, get?_stamp, hl, hi, Option.map_none,
          Option.none_or, Option.filter_some, beq_iff_eq]
      rw [htracked, get?_stamp, hl, hi]
      split <;> simp [*]

/-- What is created as a directory is tracked as one. -/
theorem mem_subdirectories_of_created (h : ⟨n, true⟩ ∈ (d.reconcile l).1.created) :
    n ∈ (d.reconcile l).2.subdirectories := by
  obtain ⟨e, he, hdir⟩ := Option.map_eq_some_iff.1 (mem_created.1 h).1
  exact mem_subdirectories.2 ⟨_, get?_items_of_listed he, hdir⟩

end TrackedDirectory

namespace Engine

variable {σ : Type} {host : Host σ} {root : Path} {filter : Filter} {L : HostLaws host root filter}

/-! ## Taking a listing over -/

/-- A place was adopted, and nothing below it has changed since. -/
def Regrown (L : HostLaws host root filter) (t : List Name) (s' : Engine σ) : Prop :=
  ∃ tops s r, t ∈ tops ∧ Spread L tops s r ∧ ∀ y, t <+: y → s'.forest y = r.2.forest y

/-- A listing of the directory at `x` is being taken over as `d'`. Below it, what was registered and
is still shown is kept, what is not shown is gone, and what is new may have been adopted. -/
structure Taken (L : HostLaws host root filter) (x : List Name) (d' : TrackedDirectory Name)
    (s s' : Engine σ) : Prop where
  fits : L.Fits s'.registry
  here : s'.forest x = some d'
  kept : ∀ n y, x ++ [n] <+: y → n ∈ d'.subdirectories → s.forest (x ++ [n]) ≠ none →
    s'.forest y = s.forest y
  gone : ∀ n y, x ++ [n] <+: y → n ∉ d'.subdirectories → s'.forest y = none
  grown : ∀ n, n ∈ d'.subdirectories → s.forest (x ++ [n]) = none →
    (∀ y, x ++ [n] <+: y → s'.forest y = none) ∨ Regrown L (x ++ [n]) s'

namespace Taken

variable {x : List Name} {d' : TrackedDirectory Name} {s s₁ s₂ : Engine σ}

/-- Nothing below a subdirectory that is not registered is registered. -/
theorem bare (h : Taken L x d' s s₁) {n : Name} (hn : n ∈ d'.subdirectories)
    (hnone : s₁.forest (x ++ [n]) = none) {y : List Name} (hy : x ++ [n] <+: y) :
    s₁.forest y = none := by
  have hold : s.forest (x ++ [n]) = none := by
    by_contra hne
    rw [h.kept n _ List.prefix_rfl hn hne] at hnone
    exact hne hnone
  rcases h.grown n hn hold with hbare | ⟨tops, s', r, ht, hr, heq⟩
  · exact hbare y hy
  · rw [heq _ List.prefix_rfl] at hnone
    rw [heq y hy]
    exact Forest.none_below (fun z m hz => hr.hangs z m ⟨_, ht, hz⟩) hnone hy

theorem of_forest (h : Taken L x d' s s₁) (hf : L.Fits s₂.registry)
    (he : s₂.forest = s₁.forest) : Taken L x d' s s₂ where
  fits := hf
  here := he ▸ h.here
  kept := he ▸ h.kept
  gone := he ▸ h.gone
  grown n hn hnone := by
    refine (h.grown n hn hnone).imp (by rw [he]; exact id) ?_
    rintro ⟨tops, s', r, ht, hr, heq⟩
    exact ⟨tops, s', r, ht, hr, by rwa [he]⟩

/-- Subdirectories that are shown are adopted. -/
theorem spread (h : Taken L x d' s s₁) {tops : List (List Name)} {r : Except Error Unit × Engine σ}
    (hr : Spread L tops s₁ r) (ht : ∀ t ∈ tops, ∃ n ∈ d'.subdirectories, t = x ++ [n]) :
    Taken L x d' s r.2 := by
  -- a place below a subdirectory is adopted with it or not at all
  have hcovers : ∀ n y, x ++ [n] <+: y → Covers tops y → x ++ [n] ∈ tops := by
    rintro n y hy ⟨t, htop, hty⟩
    obtain ⟨m, -, rfl⟩ := ht t htop
    obtain rfl := Covers.child_unique hty hy
    exact htop
  refine { fits := hr.fits, here := ?here, kept := ?kept, gone := ?gone, grown := ?grown }
  case here =>
    rw [hr.kept, h.here]
    rintro ⟨t, htop, htx⟩
    obtain ⟨m, -, rfl⟩ := ht t htop
    exact Covers.not_prefix_child htx
  case kept =>
    intro n y hy hn hne
    rw [hr.kept, h.kept n y hy hn hne]
    intro hc
    have hbare := hr.bare _ ⟨_, hcovers n y hy hc, List.prefix_rfl⟩
    rw [h.kept n _ List.prefix_rfl hn hne] at hbare
    exact hne hbare
  case gone =>
    intro n y hy hn
    rw [hr.kept, h.gone n y hy hn]
    intro hc
    obtain ⟨m, hm, he⟩ := ht _ (hcovers n y hy hc)
    obtain ⟨-, rfl⟩ := List.append_singleton_inj.1 he
    exact hn hm
  case grown =>
    intro n hn hnone
    by_cases hmem : x ++ [n] ∈ tops
    · exact .inr ⟨tops, s₁, r, hmem, hr, fun _ _ => rfl⟩
    · have hkept : ∀ y, x ++ [n] <+: y → r.2.forest y = s₁.forest y :=
        fun y hy => hr.kept y fun hc => hmem (hcovers n y hy hc)
      refine (h.grown n hn hnone).imp (fun hbare y hy => (hkept y hy).trans (hbare y hy)) ?_
      rintro ⟨tops', s', r', ht', hr', heq⟩
      exact ⟨tops', s', r', ht', hr', fun y hy => (hkept y hy).trans (heq y hy)⟩

end Taken

section Absorb

variable {p : Path} {x : List Name} {d : TrackedDirectory Name} {ls : Listing Name} {s : Engine σ}
  (hp : L.Names p x) (hfit : L.Fits s.registry)
  (hh : ∀ y n, s.forest (y ++ [n]) ≠ none → s.forest.Carries y n) (hd : s.forest x = some d)
include hp hfit hh hd

omit hp hfit in
/-- A registered subdirectory is deleted unless it is still shown. -/
theorem mem_kids_deleted {n : Name} (hne : s.forest (x ++ [n]) ≠ none) :
    x ++ [n] ∈ kids x (d.reconcile ls).1.deleted ↔ n ∉ (d.reconcile ls).2.subdirectories := by
  obtain ⟨d', i, hd', hi, hdir⟩ := hh x n hne
  obtain rfl : d = d' := Option.some.inj (hd.symm.trans hd')
  rw [mem_kids, TrackedDirectory.mem_deleted_iff_not_subdirectory hi hdir]

/-- First goes what is not shown any more. -/
theorem taken_reportDeleted : Taken L x (d.reconcile ls).2 s
      (reportDeleted host p (d.reconcile ls).1.deleted (s.put p (d.reconcile ls).2)) ∧
    ∀ n y, x ++ [n] <+: y → s.forest (x ++ [n]) = none →
      (reportDeleted host p (d.reconcile ls).1.deleted (s.put p (d.reconcile ls).2)).forest y =
        none := by
  have hforest : (s.put p (d.reconcile ls).2).forest =
      Function.update s.forest x (some (d.reconcile ls).2) := hfit.forest_insert hp.1 _
  have hold : ∀ y n, x ++ [n] <+: y → (s.put p (d.reconcile ls).2).forest y = s.forest y := by
    intro y n hy
    rw [hforest, Function.update_of_ne]
    rintro rfl
    exact Covers.not_prefix_child hy
  obtain ⟨es, hc⟩ := cleared_reportDeleted hp (d.nodup_deleted ls)
    (hfit.insert hp.1 (d.reconcile ls).2) (by
      intro t ht y n hy hne
      obtain ⟨m, -, rfl⟩ := List.mem_map.1 ht
      have hn := hold _ m (hy.trans (List.prefix_append y [n]))
      exact (hh y n (hn ▸ hne)).congr (hold y m hy).symm)
  -- what was not registered is not registered now
  have hbare : ∀ n y, x ++ [n] <+: y → s.forest (x ++ [n]) = none →
      (reportDeleted host p (d.reconcile ls).1.deleted (s.put p (d.reconcile ls).2)).forest y =
        none := by
    intro n y hy hnone
    by_cases hcovers : Covers (kids x (d.reconcile ls).1.deleted) y
    · exact hc.gone y hcovers
    · rw [hc.kept y hcovers, hold y n hy]
      exact Forest.none_below (fun z m _ => hh z m) hnone hy
  refine ⟨{ fits := hc.fits, here := ?here, kept := ?kept, gone := ?gone, grown := ?grown }, hbare⟩
  case here =>
    rw [hc.kept x not_covers_kids, hforest, Function.update_self]
  case kept =>
    intro n y hy hn hne
    rw [hc.kept, hold y n hy]
    rintro ⟨t, ht, hty⟩
    obtain ⟨m, -, rfl⟩ := List.mem_map.1 ht
    obtain rfl := Covers.child_unique hty hy
    exact (mem_kids_deleted hh hd hne).1 ht hn
  case gone =>
    intro n y hy hn
    by_cases hnone : s.forest (x ++ [n]) = none
    · exact hbare n y hy hnone
    · exact hc.gone y ⟨_, (mem_kids_deleted hh hd hnone).2 hn, hy⟩
  case grown => exact fun n _ hnone => .inl fun y hy => hbare n y hy hnone

omit hfit in
/-- Then comes what is new. -/
theorem taken_reportCreated (hl : L.lists x (.ok ls)) {s₁ : Engine σ}
    (h : Taken L x (d.reconcile ls).2 s s₁)
    (hbare : ∀ n, s.forest (x ++ [n]) = none → s₁.forest (x ++ [n]) = none) :
    Taken L x (d.reconcile ls).2 s (reportCreated host p (d.reconcile ls).1.created s₁).2 ∧
      ∀ e, (reportCreated host p (d.reconcile ls).1.created s₁).1 = .error e →
        ∃ y, L.watches y (.error e) := by
  obtain ⟨es, hg⟩ := grown_reportCreated hp hl (d.nodup_created ls)
    (fun a ha => (TrackedDirectory.mem_created.1 ha).1) h.fits (by
      rintro z ⟨t, ht, htz⟩
      obtain ⟨n, -, rfl⟩ := List.mem_map.1 ht
      have hcreated := mem_kids.1 ht
      refine h.bare (TrackedDirectory.mem_subdirectories_of_created hcreated) (hbare n ?_) htz
      by_contra hne
      obtain ⟨d', i, hd', hi, hdir⟩ := hh x n hne
      obtain rfl : d = d' := Option.some.inj (hd.symm.trans hd')
      refine (TrackedDirectory.mem_created.1 hcreated).2 ?_
      rw [hi, Option.map_some, hdir])
  refine ⟨h.spread hg.toSpread ?_, fun e he => (hg.failure e he).2⟩
  intro t ht
  obtain ⟨n, -, rfl⟩ := List.mem_map.1 ht
  exact ⟨n, TrackedDirectory.mem_subdirectories_of_created (mem_kids.1 ht), rfl⟩

omit hfit hh hd in
/-- And last what was known but not registered. -/
theorem taken_retryUnregistered {d' : TrackedDirectory Name} {s₃ : Engine σ}
    (h : Taken L x d' s s₃) :
    Taken L x d' s (retryUnregistered host p s₃).2 ∧
      (∀ n ∈ d'.subdirectories, s.forest (x ++ [n]) = none →
        Regrown L (x ++ [n]) (retryUnregistered host p s₃).2) ∧
      ∀ e, (retryUnregistered host p s₃).1 = .error e → ∃ y, L.watches y (.error e) := by
  obtain ⟨ns, hmem, es, ha⟩ := adopted_retryUnregistered hp h.fits h.here
    fun n hn hnone z hz => h.bare hn hnone hz
  have htaken := h.spread ha.toSpread (by
    intro t ht
    obtain ⟨n, hn, rfl⟩ := List.mem_map.1 ht
    exact ⟨n, ((hmem n).1 hn).1, rfl⟩)
  refine ⟨htaken, ?_, fun e he => (ha.failure e he).2⟩
  intro n hn hnone
  by_cases hregistered : s₃.forest (x ++ [n]) = none
  · exact ⟨_, _, _, List.mem_map.2 ⟨n, (hmem n).2 ⟨hn, hregistered⟩, rfl⟩, ha.toSpread,
      fun _ _ => rfl⟩
  · refine (htaken.grown n hn hnone).resolve_left fun hbare => ?_
    have hkept := ha.kept (x ++ [n]) fun hc => hregistered (ha.bare _ hc)
    exact hregistered (hkept.symm.trans (hbare _ List.prefix_rfl))

/-- When no watch fails, a listing is taken over as a whole. -/
theorem taken_absorb (hl : L.lists x (.ok ls)) (hspare : ∀ y e, ¬ L.watches y (.error e)) :
    (s.absorb host p ls).1 = .ok () ∧ Taken L x (d.reconcile ls).2 s (s.absorb host p ls).2 ∧
      ∀ n ∈ (d.reconcile ls).2.subdirectories, s.forest (x ++ [n]) = none →
        Regrown L (x ++ [n]) (s.absorb host p ls).2 := by
  have hget : s.registry.get? p = some d := (hfit.get?_eq hp.1).trans hd
  obtain ⟨hpruned, hbare⟩ := taken_reportDeleted hp hfit hh hd
  obtain ⟨hcreated, hfails⟩ := taken_reportCreated hp hh hd hl hpruned
    fun n hnone => hbare n _ List.prefix_rfl hnone
  rw [absorb, hget]
  dsimp only
  split
  · next e s₂ hc =>
      obtain ⟨y, hy⟩ := hfails e (congrArg Prod.fst hc)
      exact absurd hy (hspare y e)
  · next s₂ hc =>
      have hc : reportCreated host p (d.reconcile ls).1.created (reportDeleted host p
        (d.reconcile ls).1.deleted (s.put p (d.reconcile ls).2)) = (.ok (), s₂) := hc
      rw [hc] at hcreated
      have hviews : ∀ a ∈ (d.reconcile ls).1.updated,
          (Event.updated x a.name ((ls.entries.get? a.name).bind (·.modified))).view =
            (.updated, (x ++ [a.name]).map .name, a.isDirectory) := by
        intro a ha
        rw [Event.view, (TrackedDirectory.mem_updated.1 ha).1]
      have htold := told_reportUpdated hcreated.fits hp.1
        (fun a => .updated x a.name ((ls.entries.get? a.name).bind (·.modified))) hviews
      obtain ⟨htaken, hgrown, hfails⟩ := taken_retryUnregistered hp
        (hcreated.of_forest htold.fits htold.forest)
      refine ⟨?_, htaken, hgrown⟩
      rcases hr : (retryUnregistered host p (reportUpdated p (d.reconcile ls).1.updated s₂)).1
        with e | _
      · obtain ⟨y, hy⟩ := hfails e hr
        exact absurd hy (hspare y e)
      · rfl

end Absorb

end Engine

/-! ## Watches of what is new -/

namespace Registry

variable {σ : Type} {host : Host σ} {root : Path} {filter : Filter}

/-- What was not registered before was watched when it was registered, as is written down since a
journal. -/
structure Armed (L : HostLaws host root filter) (old : Forest) (base : List Action)
    (r : Registry σ) : Prop where
  fits : L.Fits r
  told : ∃ news, r.journal = base ++ news ∧ ∀ y, r.forest y ≠ none → old y = none →
    ∃ p, L.Names p y ∧ .watched p (.ok ()) ∈ news

namespace Armed

variable {L : HostLaws host root filter} {old : Forest} {base : List Action} {r : Registry σ}
  {p : Path} {y : List Name}

/-- One action more, and nothing else but the machine. -/
theorem record (h : r.Armed L old base) {machine : σ} (hm : L.holds machine) (a : Action) :
    ({ r with machine }.record a).Armed L old base where
  fits := h.fits.of_eq rfl rfl rfl hm
  told := by
    obtain ⟨news, hnews, hwatched⟩ := h.told
    refine ⟨news ++ [a], ?_, fun y hy hnone => ?_⟩
    · rw [← List.append_assoc, ← hnews]
      rfl
    · obtain ⟨p, hp, hin⟩ := hwatched y hy hnone
      exact ⟨p, hp, List.mem_append_left _ hin⟩

theorem list (h : r.Armed L old base) (hp : L.Names p y) :
    (r.list host p).2.Armed L old base :=
  h.record (h.fits.list hp).1.machine _

theorem watch (h : r.Armed L old base) (hp : L.Names p y) :
    (r.watch host p).2.Armed L old base :=
  h.record (h.fits.watch hp).1.machine _

theorem unwatch (h : r.Armed L old base) (hp : L.Names p y) :
    (r.unwatch host p).2.Armed L old base :=
  h.record (h.fits.unwatch hp).machine _

theorem erase (h : r.Armed L old base) (hp : L.Names p y) :
    Armed L old base { r with directories := r.directories.erase p } where
  fits := h.fits.erase p
  told := by
    obtain ⟨news, hnews, hwatched⟩ := h.told
    refine ⟨news, hnews, fun z hz hnone => hwatched z ?_ hnone⟩
    rw [h.fits.forest_erase hp.1, Function.update_apply] at hz
    split at hz
    · exact absurd rfl hz
    · exact hz

/-- A directory put into the registry that is old or was watched. -/
theorem insert (h : r.Armed L old base) (hp : L.Names p y) (d : TrackedDirectory Name)
    (hw : old y = none → ∃ news, r.journal = base ++ news ∧ .watched p (.ok ()) ∈ news) :
    Armed L old base { r with directories := r.directories.insert p d } where
  fits := h.fits.insert hp.1 d
  told := by
    obtain ⟨news, hnews, hwatched⟩ := h.told
    refine ⟨news, hnews, fun z hz hnone => ?_⟩
    by_cases hzy : z = y
    · subst hzy
      obtain ⟨news', hnews', hin⟩ := hw hnone
      obtain rfl := List.append_cancel_left (hnews.symm.trans hnews')
      exact ⟨p, hp, hin⟩
    · rw [h.fits.forest_insert hp.1, Function.update_of_ne hzy] at hz
      exact hwatched z hz hnone

theorem register (h : r.Armed L old base) (hp : L.Names p y) :
    (r.register host p).2.Armed L old base := by
  unfold Registry.register
  split
  · exact h
  have hwatch := h.watch hp
  have hjournal := journal_watch host r p
  split
  · next e r₁ hw =>
      rw [hw] at hwatch
      exact hwatch
  next r₁ hw =>
  rw [hw] at hwatch hjournal
  have hlist := hwatch.list hp
  have hjournal' := journal_list host r₁ p
  split
  · next e r₂ hl =>
      rw [hl] at hlist
      exact hlist.unwatch hp
  · next l r₂ hl =>
      rw [hl] at hlist hjournal'
      refine hlist.insert hp _ fun _ => ?_
      obtain ⟨news, hnews, -⟩ := h.told
      refine ⟨news ++ [.watched p (.ok ()), .listed p (.ok l)], ?_, by simp⟩
      rw [hjournal', hjournal, hnews]
      simp

end Armed

end Registry

namespace Engine

variable {σ : Type} {host : Host σ} {root : Path} {filter : Filter}

theorem upkeep_armed (L : HostLaws host root filter) (old : Forest) (base : List Action) :
    Upkeep host (fun s => s.registry.Armed L old base) (fun p => ∃ y, L.Names p y)
      (fun p => ∃ y, L.Names p y) (fun _ _ _ => True) where
  emit s kind p f hs _ := by
    unfold emit
    split
    · exact hs
    · exact hs.record hs.fits.machine _
  unmark _ _ hs _ _ := hs
  cancel := by
    rintro s p d hs ⟨y, hp⟩ hd
    rw [registry_cancel hd]
    exact (hs.erase hp).unwatch hp
  left _ _ _ n _ _ hp _ _ := by
    obtain ⟨y, hp⟩ := hp
    exact ⟨trivial, fun _ => ⟨y ++ [n], hp.child n⟩⟩
  register _ _ hs hp := by
    obtain ⟨y, hp⟩ := hp
    exact hs.register hp
  entered _ _ _ _ n _ _ hp _ _ _ := by
    obtain ⟨y, hp⟩ := hp
    exact ⟨trivial, fun _ => ⟨y ++ [n], hp.child n⟩⟩

/-! ## The pass -/

variable {sc : Scene} {holds : σ → Prop}

/-- What a pass has done that took a listing over as `d'` for the directory at `x`, and wrote down
`news`. -/
structure Resynced (sc : Scene) (x : List Name) (d' : TrackedDirectory Name) (s s' : Engine σ)
    (news : List Action) : Prop where
  here : s'.forest x = some d'
  /-- A subdirectory that was registered and is still tracked is left as it was. -/
  kept : ∀ n y, x ++ [n] <+: y → n ∈ d'.subdirectories → s.forest (x ++ [n]) ≠ none →
    s'.forest y = s.forest y
  /-- Below any other name is registered what listings lead to. -/
  registered : ∀ n y, x ++ [n] <+: y → (n ∈ d'.subdirectories → s.forest (x ++ [n]) = none) →
    (s'.forest y ≠ none ↔ n ∈ d'.subdirectories ∧ sc.Reached (x ++ [n]) y)
  /-- It is tracked as it is listed, and was watched on the way. -/
  current : ∀ n y e, x ++ [n] <+: y → (n ∈ d'.subdirectories → s.forest (x ++ [n]) = none) →
    s'.forest y = some e →
      e = .ofListing (sc.listing y) ∧ .watched (sc.root.below y) (.ok ()) ∈ news

section Absorbed

variable (h : host.Displays sc holds) (hw : ∀ p m, holds m → (host.watch p m).1 = .ok ())
  {s : Engine σ} {x : List Name} {d : TrackedDirectory Name}
include hw

/-- A listing that is taken over. -/
theorem resynced_absorb (hfit : (h.spareLaws hw).Fits s.registry)
    (hh : ∀ y n, s.forest (y ++ [n]) ≠ none → s.forest.Carries y n) (hd : s.forest x = some d)
    (hl : sc.Listed x) :
    let r := s.absorb host (sc.root.below x) (sc.listing x)
    r.1 = .ok () ∧ ∃ news, r.2.registry.journal = s.registry.journal ++ news ∧
      Resynced sc x (d.reconcile (sc.listing x)).2 s r.2 news := by
  intro r
  have hp : (h.spareLaws hw).Names (sc.root.below x) x := ⟨Path.at_below _ _, x, rfl⟩
  obtain ⟨hok, htaken, hgrown⟩ := taken_absorb hp hfit hh hd
    (show _ = sc.look x from hl.look_eq.symm) (by rintro y e ⟨⟩)
  have harmed : r.2.registry.Armed (h.spareLaws hw) s.forest s.registry.journal := by
    have hstart : s.registry.Armed (h.spareLaws hw) s.forest s.registry.journal :=
      ⟨hfit, [], by simp, fun y hne hnone => absurd hnone hne⟩
    refine (upkeep_armed (h.spareLaws hw) s.forest s.registry.journal).absorb
      ((hfit.get?_eq hp.1).trans hd) (hstart.insert hp _ fun hnone => ?_) ?_ ?_ ?_ ?_
    · rw [hd] at hnone
      cases hnone
    · exact fun a _ => ⟨trivial, fun _ => ⟨_, hp.child a.name⟩⟩
    · exact fun a _ => ⟨trivial, fun _ => ⟨_, hp.child a.name⟩⟩
    · exact fun _ _ => trivial
    · intro s' _ q hq
      unfold unregistered at hq
      split at hq
      · cases hq
      · obtain ⟨n, -, rfl⟩ := List.mem_map.1 (List.mem_filter.1 hq).1
        exact ⟨_, hp.child n⟩
  obtain ⟨news, hnews, hwatched⟩ := harmed.told
  refine ⟨hok, news, hnews, htaken.here, htaken.kept, ?_, ?_⟩
  · intro n y hy hnone
    by_cases hn : n ∈ (d.reconcile (sc.listing x)).2.subdirectories
    · obtain ⟨tops, s', r', ht, hr', heq⟩ := hgrown n hn (hnone hn)
      rw [heq y hy, hr'.registered_iff ht hy]
      simp [hn]
    · have hgone : r.2.forest y = none := htaken.gone n y hy hn
      simp [hgone, hn]
  · intro n y e hy hnone he
    have hn : n ∈ (d.reconcile (sc.listing x)).2.subdirectories := by
      by_contra hn
      rw [htaken.gone n y hy hn] at he
      cases he
    obtain ⟨tops, s', r', ht, hr', heq⟩ := hgrown n hn (hnone hn)
    have hold : s.forest y = none := Forest.none_below (fun z m _ => hh z m) (hnone hn) hy
    have hne : r.2.forest y ≠ none := by
      rw [he]
      simp
    obtain ⟨q, ⟨hq, ns, rfl⟩, hin⟩ := hwatched y hne hold
    obtain rfl := (Path.at_below sc.root ns).unique hq
    exact ⟨(hr'.eq_ofListing ⟨_, ht, hy⟩ ((heq ns hy).symm.trans he)).2, hin⟩

include h

/-- A pass that finds a directory replaced watches it anew and takes its listing over. -/
theorem diff_of_replaced (hfit : (h.spareLaws hw).Fits s.registry) (hd : s.forest x = some d)
    (hl : sc.Listed x)
    (hr : s.stale.contains (sc.root.below x) = true ∨
      d.identity.isSome = true ∧ (sc.listing x).identity ≠ d.identity) :
    ∃ s' : Engine σ,
      s.diff host (sc.root.below x) = s'.absorb host (sc.root.below x) (sc.listing x) ∧
      (h.spareLaws hw).Fits s'.registry ∧ s'.forest = s.forest ∧
      ∃ first, s'.registry.journal = s.registry.journal ++ first ∧
        .watched (sc.root.below x) (.ok ()) ∈ first := by
  set p := sc.root.below x with hpx
  have hp : (h.spareLaws hw).Names p x := ⟨Path.at_below _ _, x, rfl⟩
  obtain ⟨hlisted, hlook⟩ := quiet_listed hp hfit
  have hlook : ((s.registry.record (.began p)).list host p).1 = .ok (sc.listing x) :=
    hlook.trans hl.look_eq
  set s₁ : Engine σ :=
    { s with registry := ((s.registry.record (.began p)).list host p).2 } with hs₁
  set s₂ : Engine σ :=
    { s₁.unmark p with counters := { s₁.counters with diffed := s₁.counters.diffed + 1 } } with hs₂
  have hquiet := hlisted.trans (quiet_unmark (p := p) hlisted.fits s₂.counters)
  obtain ⟨hrearmed, hwatch⟩ := quiet_rearm hp hquiet.fits
  have hquiet := hquiet.trans hrearmed
  have hreplaced : s₁.wasReplaced p d (sc.listing x) = true := by
    rcases hr with hstale | ⟨hknown, hne⟩
    · simp [wasReplaced, hs₁, hstale]
    · simp [wasReplaced, hknown, hne]
  refine ⟨{ s₂ with registry := (s₂.registry.rearm host p).2 }, ?_, hquiet.fits, hquiet.forest,
    [.began p, .listed p (.ok (sc.listing x)), .unwatched p (s₂.registry.unwatch host p).1,
      .watched p (.ok ())], ?_, by simp⟩
  · have hget : s.registry.get? p = some d := (hfit.get?_eq hp.1).trans hd
    rw [diff_eq hget, hlook]
    change renew host p (sc.listing x) (s₁.wasReplaced p d (sc.listing x)) s₂ = _
    rw [hreplaced, renew, if_pos rfl]
    dsimp only
    rw [show (s₂.registry.rearm host p).1 = .ok () from hwatch]
  · have hwritten : (s₂.registry.rearm host p).2.journal = s.registry.journal ++ [.began p] ++
        [.listed p ((s.registry.record (.began p)).list host p).1] ++
        [.unwatched p (s₂.registry.unwatch host p).1] ++
        [.watched p (s₂.registry.rearm host p).1] := rfl
    rw [hwritten, hlook, show (s₂.registry.rearm host p).1 = .ok () from hwatch]
    simp only [List.append_assoc, List.cons_append, List.nil_append]

/-- When listings and watches succeed, a pass that finds a directory replaced watches it anew and
brings what is below it up to date, except for the subdirectories that it leaves as they were. -/
theorem resynced_of_replaced (hroot : s.registry.root = sc.root)
    (hfilter : s.registry.filter = sc.filter) (hm : holds s.registry.machine)
    (hs : s.registry.Hung) (hd : s.forest x = some d) (hl : sc.Listed x)
    (hr : s.stale.contains (sc.root.below x) = true ∨
      d.identity.isSome = true ∧ (sc.listing x).identity ≠ d.identity) :
    let r := s.diff host (sc.root.below x)
    r.1 = .ok () ∧ ∃ news, r.2.registry.journal = s.registry.journal ++ news ∧
      .watched (sc.root.below x) (.ok ()) ∈ news ∧
      Resynced sc x (d.reconcile (sc.listing x)).2 s r.2 news := by
  intro r
  have hfit : (h.spareLaws hw).Fits s.registry :=
    ⟨hroot, hfilter, hm, fun q hq => hroot ▸ hs.inside hq⟩
  obtain ⟨s', hrun, hfit', hforest, first, hfirst, hwatched⟩ := diff_of_replaced h hw hfit hd hl hr
  obtain ⟨hok, news, hnews, hsync⟩ := resynced_absorb h hw hfit'
    (hforest ▸ fun y n => hs.carries) (hforest ▸ hd) hl
  rw [← hrun] at hok hnews hsync
  refine ⟨hok, first ++ news, by rw [hnews, hfirst, List.append_assoc],
    List.mem_append_left _ hwatched, ?_⟩
  exact
    { here := hsync.here
      kept := hforest ▸ hsync.kept
      registered := hforest ▸ hsync.registered
      current := by
        intro n y e hy hnone he
        obtain ⟨hofListing, hin⟩ := hsync.current n y e hy (hforest ▸ hnone) he
        exact ⟨hofListing, List.mem_append_right _ hin⟩ }

end Absorbed

/-! ## A directory with an old one in it -/

/-- A tree with a directory `a` that holds an empty directory `b`, and maybe more. -/
def replacedTree (more : List (Name × Node)) : FileTree where
  top := .directory ⟨0, 1⟩ 0o755 [(nameA, .directory ⟨0, 5⟩ 0o755
    ((nameB, .directory ⟨0, 6⟩ 0o755 []) :: more))]

/-- Other directories `a` and `b`, as they were listed before, and a file in `b`. -/
def oldParent : TrackedDirectory Name := .ofListing ⟨some ⟨0, 2⟩, .ofList [(nameB, ⟨true, none⟩)]⟩

def oldChild : TrackedDirectory Name :=
  .ofListing ⟨some ⟨0, 3⟩, .ofList [(nameX, ⟨false, some ⟨1000, 0⟩⟩)]⟩

/-- These are registered on a machine that has the tree. -/
def outdated (more : List (Name × Node)) : Engine ScriptedMachine where
  registry :=
    { root := .ofString "/"
      directories := (((∅ : OrderedMap Path (TrackedDirectory Name)).insert (.ofString "/")
        (.ofListing ⟨some ⟨0, 1⟩, .ofList [(nameA, ⟨true, none⟩)]⟩)).insert (.ofString "/a")
        oldParent).insert (.ofString "/a/b") oldChild
      machine := { tree := replacedTree more } }

theorem hung_outdated (more : List (Name × Node)) : (outdated more).registry.Hung := by
  let top : OrderedMap Path (TrackedDirectory Name) := (∅ : OrderedMap Path _).insert
    (.ofString "/") (.ofListing ⟨some ⟨0, 1⟩, .ofList [(nameA, ⟨true, none⟩)]⟩)
  have htop : Registry.Anchored { (outdated more).registry with directories := top } :=
    anchored_start (s := { registry := _ }) rfl
  have hnewParent : top.contains (.ofString "/a") = false := by decide +kernel
  have hparent := htop.insert (q := .ofString "/") (n := nameA) (i := ⟨true, none, 1⟩)
    (by decide +kernel) rfl (by decide +kernel) rfl hnewParent
    (TrackedDirectory.current_ofListing ⟨some ⟨0, 2⟩, .ofList [(nameB, ⟨true, none⟩)]⟩)
  have hnewChild : (top.insert (.ofString "/a") oldParent).contains (.ofString "/a/b") = false := by
    decide +kernel
  exact (hparent.insert (q := .ofString "/a") (n := nameB) (i := ⟨true, none, 1⟩)
    (e := oldParent) (by decide +kernel) rfl (by decide +kernel) rfl hnewChild
    (TrackedDirectory.current_ofListing _)).hangs

/-- The directory next to the old one is adopted. -/
theorem resynced_of_replaced_outdated :
    let more : List (Name × Node) := [(nameX, .directory ⟨0, 7⟩ 0o755 [])]
    let r := (outdated more).diff ScriptedMachine.host (.ofString "/a")
    r.1 = .ok () ∧ r.2.forest [nameA, nameB] = some oldChild ∧ r.2.forest [nameA, nameX] =
      some (.ofListing (((replacedTree more).scene [] {}).listing [nameA, nameX])) := by
  intro more r
  set sc := (replacedTree more).scene [] {}
  have hlisted : sc.Listed [nameA] := (FileTree.listed_iff ⟨rfl, rfl⟩).2
    ⟨by decide +kernel, by decide +kernel, by decide +kernel⟩
  have hnew : sc.Listed [nameA, nameX] := (FileTree.listed_iff ⟨rfl, rfl⟩).2
    ⟨by decide +kernel, by decide +kernel, by decide +kernel⟩
  have hlisting : sc.listing [nameA] = _ := FileTree.listing_eq ⟨rfl, rfl⟩ (by decide +kernel)
    (by decide +kernel) (by decide +kernel)
  have hsubdirectories : ∀ n ∈ [nameB, nameX],
      n ∈ (oldParent.reconcile (sc.listing [nameA])).2.subdirectories := by
    rw [hlisting]
    decide +kernel
  obtain ⟨hok, news, -, -, hsync⟩ := resynced_of_replaced (s := outdated more) (x := [nameA])
    (d := oldParent) (ScriptedMachine.displays_faultless (replacedTree more) [] {})
    (fun p m hm => ScriptedMachine.watch_eq_ok hm.2 p) rfl rfl ⟨rfl, rfl⟩ (hung_outdated more)
    (by decide +kernel) hlisted (.inr ⟨rfl, by rw [hlisting]; decide +kernel⟩)
  have hkept := hsync.kept nameB [nameA, nameB] List.prefix_rfl (hsubdirectories _ (by simp))
    (by decide +kernel)
  have hnone : (outdated more).forest [nameA, nameX] = none := by decide +kernel
  have hregistered := (hsync.registered nameX [nameA, nameX] List.prefix_rfl fun _ => hnone).2
    ⟨hsubdirectories _ (by simp), .here hnew⟩
  obtain ⟨e, he⟩ := Option.ne_none_iff_exists'.1 hregistered
  have hcurrent := hsync.current nameX [nameA, nameX] e List.prefix_rfl (fun _ => hnone) he
  refine ⟨hok, hkept.trans (by decide +kernel), ?_⟩
  rw [← hcurrent.1]
  exact he

/-- The old directory in the replaced one stays as it was, and is not watched anew. -/
theorem outdated_after_pass :
    let r := (outdated []).diff ScriptedMachine.host (.ofString "/a")
    let sc := (replacedTree []).scene [] {}
    (outdated []).registry.Hung ∧ (∀ y, y <+: [nameA, nameB] → sc.Listed y) ∧
      (∀ p, (ScriptedMachine.host.watch p (outdated []).registry.machine).1 = .ok ()) ∧
      ((outdated []).forest [nameA]).map (·.identity) ≠ some (sc.listing [nameA]).identity ∧
      r.1 = .ok () ∧ r.2.forest [nameA, nameB] = some oldChild ∧
      oldChild.identity ≠ (sc.listing [nameA, nameB]).identity ∧
      oldChild.items.keys ≠ (sc.listing [nameA, nameB]).entries.keys ∧
      ∀ result, .watched (.ofString "/a/b") result ∉ r.2.registry.journal := by
  intro r sc
  have hr : r = _ := ScriptedMachine.diff_below [] [nameA]
    (r := (outdated []).registry) (by decide +kernel) ⟨rfl, rfl⟩ (by decide +kernel)
    (by decide +kernel) (by decide +kernel) rfl (e := oldParent) (by decide +kernel)
  have hdone : r.1 = .ok () ∧ r.2.forest [nameA, nameB] = some oldChild ∧
      (r.2.registry.journal.all fun
        | .watched p _ => p != .ofString "/a/b"
        | _ => true) = true := by
    rw [hr]
    decide +kernel
  have hparent : sc.listing [nameA] = _ := FileTree.listing_eq ⟨rfl, rfl⟩ (by decide +kernel)
    (by decide +kernel) (by decide +kernel)
  have hchild : sc.listing [nameA, nameB] = _ := FileTree.listing_eq ⟨rfl, rfl⟩ (by decide +kernel)
    (by decide +kernel) (by decide +kernel)
  refine ⟨hung_outdated [], ?_, ScriptedMachine.watch_eq_ok rfl, ?_, hdone.1, hdone.2.1, ?_, ?_, ?_⟩
  · intro y hy
    have hcases : y = [] ∨ y = [nameA] ∨ y = [nameA, nameB] := by
      simpa using (List.mem_inits _ _).2 hy
    rcases hcases with rfl | rfl | rfl
    all_goals
      refine (FileTree.listed_iff ⟨rfl, rfl⟩).2 ?_
      exact ⟨by decide +kernel, by decide +kernel, by decide +kernel⟩
  · rw [hparent]
    decide +kernel
  · rw [hchild]
    decide +kernel
  · rw [hchild]
    decide +kernel
  · intro result hin
    have hother := List.all_eq_true.1 hdone.2.2 _ hin
    simp at hother

end Engine

end DirWatch
