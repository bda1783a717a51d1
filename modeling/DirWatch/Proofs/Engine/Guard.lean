import DirWatch.Proofs.Engine.Invariant
import DirWatch.Proofs.Engine.Upkeep

/-! # Watches and the listings they guard

A directory is watched before it is listed, so that what changes in between is noticed. This holds
of every directory that a call registers, whatever placing a watch does to the machine. It does not
hold of a directory whose watch a pass places anew: the pass has listed it before. -/

namespace DirWatch

variable {σ : Type} {host : Host σ}

deriving instance DecidableEq for Action

/-- An action that asked for the watch of a directory. -/
def Action.AsksFor (p : Path) (a : Action) : Prop :=
  ∃ q result, a = .watched q result ∧ q.same p = true

/-- An action that placed the watch of a directory. -/
def Action.Places (p : Path) (a : Action) : Prop := ∃ q, a = .watched q (.ok ()) ∧ q.same p = true

theorem Action.Places.asksFor {p : Path} {a : Action} (h : a.Places p) : a.AsksFor p := by
  obtain ⟨q, rfl, hq⟩ := h
  exact ⟨q, .ok (), rfl, hq⟩

theorem Path.same_congr {p p' : Path} (h : p.same p' = true) (q : Path) :
    q.same p = q.same p' := by
  rw [Path.same, Path.same, Path.same_iff.1 h]

/-- A directory was listed after its watch was placed, and the watch was not placed again. -/
def ListedUnderWatch (actions : List Action) (p : Path) (l : Listing Name) : Prop :=
  ∃ before q after, actions = before ++ .listed q (.ok l) :: after ∧ q.same p = true ∧
    (∃ a ∈ before, a.Places p) ∧ ∀ a ∈ after, ¬ a.Places p

theorem ListedUnderWatch.concat {actions : List Action} {p : Path} {l : Listing Name} {a : Action}
    (h : ListedUnderWatch actions p l) (ha : ¬ a.Places p) :
    ListedUnderWatch (actions ++ [a]) p l := by
  obtain ⟨before, q, after, rfl, hq, hplaced, hafter⟩ := h
  refine ⟨before, q, after ++ [a], by simp, hq, hplaced, ?_⟩
  intro b hb
  rcases List.mem_append.1 hb with hb | hb
  · exact hafter b hb
  · exact List.mem_singleton.1 hb ▸ ha

/-- Paths with the same components lead to the same directory. -/
theorem ListedUnderWatch.of_same {actions : List Action} {p p' : Path} {l : Listing Name}
    (h : ListedUnderWatch actions p l) (hp : p.same p' = true) :
    ListedUnderWatch actions p' l := by
  simpa only [ListedUnderWatch, Action.Places, Path.same_congr hp] using h

/-- A directory that was watched and listed just now. -/
theorem ListedUnderWatch.last {actions : List Action} {p : Path} {l : Listing Name} :
    ListedUnderWatch (actions ++ [.watched p (.ok ())] ++ [.listed p (.ok l)]) p l :=
  ⟨actions ++ [.watched p (.ok ())], p, [], rfl, Path.same_iff.2 rfl,
    ⟨_, List.mem_append_right _ (List.mem_singleton_self _), p, rfl, Path.same_iff.2 rfl⟩, by simp⟩

/-- Nothing was listed under a watch that was placed last of all. -/
theorem not_listedUnderWatch {actions : List Action} {p : Path} {l : Listing Name} {a : Action}
    (h : actions.getLast? = some a) (ha : a.Places p) : ¬ ListedUnderWatch actions p l := by
  rintro ⟨before, q, after, rfl, -, -, hafter⟩
  rcases List.eq_nil_or_concat' after with rfl | ⟨after, b, rfl⟩
  · obtain ⟨_, rfl, -⟩ := ha
    simp at h
  · rw [← List.cons_append, ← List.append_assoc, List.getLast?_concat] at h
    obtain rfl := Option.some.inj h
    exact hafter b (by simp) ha

namespace Registry

/-- Since a journal, every registered directory whose watch was asked for, but for some, shows what
was listed after its watch was placed. -/
def Guarded (written : List Action) (but : Path → Prop) (r : Registry σ) : Prop :=
  ∃ new, r.journal = written ++ new ∧ ∀ p d, r.get? p = some d → ¬ but p →
    (∃ a ∈ new, a.AsksFor p) → ∃ l, ListedUnderWatch new p l ∧ d = .ofListing l

namespace Guarded

variable {written : List Action} {but : Path → Prop} {r : Registry σ}

theorem start (r : Registry σ) (but : Path → Prop) : Guarded r.journal but r :=
  ⟨[], (List.append_nil _).symm, fun _ _ _ _ ⟨_, ha, _⟩ => absurd ha List.not_mem_nil⟩

/-- Fewer directories are as well guarded. -/
theorem of_sub {r' : Registry σ} (h : Guarded written but r) (hj : r'.journal = r.journal)
    (hd : ∀ p d, r'.get? p = some d → but p ∨ r.get? p = some d) : Guarded written but r' := by
  obtain ⟨new, hnew, hg⟩ := h
  refine ⟨new, hj.trans hnew, fun p d hp hb => ?_⟩
  exact hg p d ((hd p d hp).resolve_left hb) hb

/-- An action that places no watch of a registered directory. -/
theorem record (h : Guarded written but r) {a : Action}
    (ha : ∀ p, r.contains p = true → ¬ but p → ¬ a.AsksFor p) (machine : σ) :
    Guarded written but ({ r with machine }.record a) := by
  obtain ⟨new, hnew, hg⟩ := h
  refine ⟨new ++ [a], ?_, ?_⟩
  · rw [← List.append_assoc, ← hnew]
    rfl
  · rintro p d hp hb ⟨b, hmem, hasks⟩
    have hfree := ha p (Option.isSome_of_eq_some hp) hb
    rcases List.mem_append.1 hmem with hmem | hmem
    · obtain ⟨l, hl, rfl⟩ := hg p d hp hb ⟨b, hmem, hasks⟩
      exact ⟨l, hl.concat fun hplaces => hfree hplaces.asksFor, rfl⟩
    · obtain rfl := List.mem_singleton.1 hmem
      exact absurd hasks hfree

theorem list (h : Guarded written but r) (p : Path) : Guarded written but (r.list host p).2 :=
  h.record (fun _ _ _ ⟨_, _, he, _⟩ => by cases he) _

theorem unwatch (h : Guarded written but r) (p : Path) : Guarded written but (r.unwatch host p).2 :=
  h.record (fun _ _ _ ⟨_, _, he, _⟩ => by cases he) _

/-- The watch of a directory that is not registered, or does not count. -/
theorem watch (h : Guarded written but r) {p : Path}
    (hp : ∀ q, p.same q = true → r.contains q = true → but q) :
    Guarded written but (r.watch host p).2 := by
  refine h.record ?_ _
  rintro q hq hb ⟨p', result, he, hsame⟩
  obtain ⟨rfl, -⟩ := Action.watched.inj he
  exact hb (hp q hsame hq)

/-- Registering places the watch first, and then takes the listing. -/
theorem register (h : Guarded written but r) (p : Path) :
    Guarded written but (r.register host p).2 := by
  unfold Registry.register
  split
  · exact h
  next hc =>
  have habsent : ∀ q, p.same q = true → r.contains q = false := by
    intro q hq
    rw [← Bool.not_eq_true]
    exact fun hq' => hc ((r.directories.contains_congr
      (Path.compare_eq_iff.2 (Path.same_iff.1 hq))).trans hq')
  have hw : Guarded written but (r.watch host p).2 := by
    refine h.watch fun q hq hq' => ?_
    rw [habsent q hq] at hq'
    cases hq'
  split
  · next e r₁ hwatch =>
      rw [hwatch] at hw
      exact hw
  next r₁ hwatch =>
  rw [hwatch] at hw
  have hl : Guarded written but (r₁.list host p).2 := hw.list p
  split
  · next e r₂ hlist =>
      rw [hlist] at hl
      exact hl.unwatch p
  · next l r₂ hlist =>
      rw [hlist] at hl
      have hj : r₂.journal = r.journal ++ [.watched p (.ok ())] ++ [.listed p (.ok l)] := by
        have hj₁ := journal_watch host r p
        have hj₂ := journal_list host r₁ p
        rw [hwatch] at hj₁
        rw [hlist] at hj₂
        exact hj₂.trans (congrArg (· ++ _) hj₁)
      obtain ⟨new, hnew, hg⟩ := hl
      obtain ⟨old, hold, -⟩ := h
      obtain rfl : new = old ++ [.watched p (.ok ())] ++ [.listed p (.ok l)] := by
        rw [hj, hold, List.append_assoc, List.append_assoc] at hnew
        rw [List.append_assoc]
        exact (List.append_cancel_left hnew).symm
      refine ⟨_, hnew, fun q d hq hb hasks => ?_⟩
      change (r₂.directories.insert p (.ofListing l)).get? q = some d at hq
      rw [OrderedMap.get?_insert] at hq
      split at hq
      · next hqp =>
          obtain rfl := Option.some.inj hq
          have hpq : p.same q = true := Path.same_iff.2 (Path.compare_eq_iff.1 hqp).symm
          exact ⟨l, ListedUnderWatch.last.of_same hpq, rfl⟩
      · exact hg q d hq hb hasks

end Guarded

end Registry

namespace Engine

/-! ## Calls -/

/-- The steps of a pass keep directories guarded. -/
theorem upkeep_guarded (host : Host σ) (written : List Action) (but : Path → Prop) :
    Upkeep host (fun s : Engine σ => s.registry.Guarded written but) (fun _ => True)
      (fun _ => True) (fun _ _ _ => True) where
  emit s kind p f hs _ := by
    unfold emit
    split
    · exact hs
    · exact hs.record (fun _ _ _ ⟨_, _, he, _⟩ => by cases he) s.registry.machine
  unmark s p hs _ _ := hs
  cancel s p d hs _ hd := by
    have hdrop : Registry.Guarded written but
        { s.registry with directories := s.registry.directories.erase p } := by
      refine hs.of_sub rfl fun q d' hq => .inr ?_
      change (s.registry.directories.erase p).get? q = some d' at hq
      rw [OrderedMap.get?_erase] at hq
      split at hq
      · cases hq
      · exact hq
    rw [registry_cancel hd]
    exact hdrop.unwatch p
  left _ _ _ _ _ _ _ _ _ := ⟨trivial, fun _ => trivial⟩
  register s p hs _ := hs.register p
  entered _ _ _ _ _ _ _ _ _ _ _ := ⟨trivial, fun _ => trivial⟩

section Pass

variable {written : List Action} {p : Path} {s : Engine σ}

/-- Taking a listing over changes what is known of one directory alone. -/
theorem guarded_absorb (hs : s.registry.Guarded written (p.same ·)) (l : Listing Name) :
    (s.absorb host p l).2.registry.Guarded written (p.same ·) := by
  cases hd : s.registry.get? p with
  | none =>
      rw [absorb, hd]
      exact hs
  | some d =>
      refine (upkeep_guarded host written (p.same ·)).absorb hd ?_
        (fun _ _ => ⟨trivial, fun _ => trivial⟩) (fun _ _ => ⟨trivial, fun _ => trivial⟩)
        (fun _ _ => trivial) (fun _ _ _ _ => trivial)
      refine hs.of_sub rfl fun q d' hq => ?_
      change (s.registry.directories.insert p (d.reconcile l).2).get? q = some d' at hq
      rw [OrderedMap.get?_insert] at hq
      split at hq
      · next hqp => exact .inl (Path.same_iff.2 (Path.compare_eq_iff.1 hqp).symm)
      · exact .inr hq

theorem guarded_renew (hs : s.registry.Guarded written (p.same ·)) (l : Listing Name)
    (replaced : Bool) : (s.renew host p l replaced).2.registry.Guarded written (p.same ·) := by
  unfold renew
  split
  · have hr : (s.registry.rearm host p).2.Guarded written (p.same ·) :=
      (hs.unwatch p).watch fun _ hq _ => hq
    dsimp only
    split
    · split
      · exact hr
      · exact (upkeep_guarded host written (p.same ·)).retire trivial hr
    · exact guarded_absorb (s := { s with registry := (s.registry.rearm host p).2 }) hr l
  · exact guarded_absorb hs l

theorem guarded_diff (host : Host σ) (p : Path) (s : Engine σ) :
    (s.diff host p).2.registry.Guarded s.registry.journal (p.same ·) := by
  have hb : (s.registry.record (.began p)).Guarded s.registry.journal (p.same ·) :=
    (Registry.Guarded.start s.registry _).record (fun _ _ _ ⟨_, _, he, _⟩ => by cases he)
      s.registry.machine
  cases hd : s.registry.get? p with
  | none =>
      rw [diff_none hd]
      exact hb
  | some d =>
      have hl : ((s.registry.record (.began p)).list host p).2.Guarded s.registry.journal
          (p.same ·) := hb.list p
      rw [diff_eq hd]
      unfold resume
      split
      · exact (upkeep_guarded host _ (p.same ·)).retire trivial hl
      · exact hl
      · exact guarded_renew (s := { unmark _ p with counters := _ }) hl _ _

end Pass

/-- Whatever placing a watch does to the machine, every directory that a call watches and leaves
registered shows what was listed after its watch was placed: each one that is registered or adopted,
and each one below the directory of a pass. -/
theorem guarded_of_call (host : Host σ) (s : Engine σ) (p : Path) :
    (s.register host p).2.registry.Guarded s.registry.journal (fun _ => False) ∧
      (s.adopt host p).2.registry.Guarded s.registry.journal (fun _ => False) ∧
      (s.diff host p).2.registry.Guarded s.registry.journal (p.same ·) :=
  ⟨(Registry.Guarded.start s.registry _).register p,
    (upkeep_guarded host _ _).adopt trivial (Registry.Guarded.start s.registry _),
    guarded_diff host p s⟩

/-- A directory `a` with a file in the root `/r`, until it is gone. -/
def passingMetadata (gone : Bool) (p : Path) : Except IoFailure Metadata :=
  if p = .ofString "/r" ∨ (p = .ofString "/r/a" ∧ gone = false) then .ok { isDirectory := true }
  else .error .notFound

def passingEntries (gone : Bool) (p : Path) : Except IoFailure (List DirectoryEntry) :=
  if p = .ofString "/r" ∧ gone = false then .ok [⟨nameA, true, .ok { isDirectory := true }⟩]
  else if p = .ofString "/r" then .ok []
  else if p = .ofString "/r/a" ∧ gone = false then
    .ok [⟨nameX, false, .ok { isDirectory := false }⟩]
  else .error .notFound

/-- A machine on which a watch can be placed on the directory so many times; someone removes it
while the last of these watches is placed. Nothing else changes. -/
def passing : Host Nat where
  metadata p n := (passingMetadata (n == 0) p, n)
  target p n := (passingMetadata (n == 0) p, n)
  canonical p n := (.ok p, n)
  readDirectory p n := (passingEntries (n == 0) p, n)
  watch p n := (.ok (), if p = .ofString "/r/a" then n - 1 else n)
  unwatch _ n := (.ok (), n)

/-- A root that was registered while it was empty. -/
def vacant : Engine Nat where
  registry :=
    { root := .ofString "/r"
      directories := (∅ : OrderedMap Path (TrackedDirectory Name)).insert (.ofString "/r")
        (.ofListing {})
      machine := 2 }

/-- A pass has registered the directory, and then its watch was reported to be gone. -/
def haunted : Engine Nat :=
  (vacant.diff passing (.ofString "/r")).2.markStale (.ofString "/r/a")

/-- What a pass has listed may be gone once the watch is placed anew, and goes unnoticed: the
directory stays registered with its file, and nothing was listed under the new watch. -/
theorem unguarded_after_rearm :
    let r := haunted.diff passing (.ofString "/r/a")
    Reachable haunted ∧ r.1 = .ok () ∧
      (r.2.registry.get? (.ofString "/r/a")).map (·.items.keys) = some [nameX] ∧
      (r.2.registry.list passing (.ofString "/r/a")).1 =
        .error (.pathVanished (.ofString "/r/a")) ∧
      ¬ r.2.registry.Guarded haunted.registry.journal (fun _ => False) := by
  intro r
  refine ⟨.markStale (.diff (.start {} rfl rfl) _ _) _, by decide +kernel, by decide +kernel,
    by decide +kernel, ?_⟩
  rintro ⟨new, hnew, hg⟩
  have hlast : r.2.registry.journal.getLast? = some (.watched (.ofString "/r/a") (.ok ())) := by
    decide +kernel
  have hgrown : haunted.registry.journal.length < r.2.registry.journal.length := by decide +kernel
  have hnil : new ≠ [] := by
    rintro rfl
    rw [hnew, List.append_nil] at hgrown
    exact Nat.lt_irrefl _ hgrown
  rw [hnew, List.getLast?_append_of_ne_nil _ hnil] at hlast
  have hplaces : (Action.watched (.ofString "/r/a") (.ok ())).Places (.ofString "/r/a") :=
    ⟨_, rfl, Path.same_iff.2 rfl⟩
  have hregistered : (r.2.registry.get? (.ofString "/r/a")).isSome = true := by decide +kernel
  obtain ⟨d, hd⟩ := Option.isSome_iff_exists.1 hregistered
  obtain ⟨l, hl, -⟩ := hg _ d hd id ⟨_, List.mem_of_getLast? hlast, hplaces.asksFor⟩
  exact not_listedUnderWatch hlast hplaces hl

end Engine

end DirWatch
