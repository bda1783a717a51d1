import DirWatch.Proofs.Walk
import DirWatch.Watcher

/-! # Opening a tree

A tree is opened by registering what a walk yields, each directory before the walk goes on, and if
that fails all of them are given up. What the walk and the requests on single directories keep is
kept by all of it. -/

namespace DirWatch.Registry

variable {σ γ : Type} {host : Host σ}

theorem cancelAll_keeps {I : Registry σ → Prop} (forget : ∀ r, I r → I { r with directories := ∅ })
    (unwatch : ∀ r p, I r → I (r.unwatch host p).2) {r : Registry σ} (hr : I r) :
    I (r.cancelAll host).2 := by
  have hempty := forget r hr
  unfold cancelAll
  generalize r.paths = ps
  generalize { r with directories := ∅ } = r₀ at hempty
  induction ps generalizing r₀ with
  | nil => exact hempty
  | cons p ps ih => exact ih _ (unwatch r₀ p hempty)

/-- A walk over the directories of a tree, and the registration of what it yields. -/
def openTree (host : Host σ) (root : Path) (f : Filter) (machine : σ) :
    Except Error Unit × Registry σ :=
  let w : Walk := { root, filter := f, directoriesOnly := true, includeRoot := true }
  registerTree host (w.traverse host machine) { root, filter := f, machine }

/-! ## What comes of a walk -/

/-- What registering the rest of a walk comes to, when `I` is what is known of the visits so far, of
the rest and of the registry: the walk ends, with or without the root, or an attempt is fatal. -/
inductive Opened (host : Host σ) (I : List Visit → Traversal σ → Registry σ → Prop) :
    Except Error Unit × Registry σ → Prop
  | opened {visits : List Visit} {machine : σ} {r : Registry σ}
      (known : I visits (.finished machine) r) (rooted : r.contains r.root = true) :
      Opened host I (.ok (), { r with machine })
  | rootless {visits : List Visit} {machine : σ} {r : Registry σ}
      (known : I visits (.finished machine) r) (bare : r.contains r.root = false) :
      Opened host I (.error (.watcher ("Failed to watch root " ++ r.root.quoted)),
        (cancelAll host { r with machine }).2)
  | broken {visits : List Visit} {v : Visit} {machine : σ} {resume : σ → Traversal σ}
      {r r' : Registry σ} {e : Error} (known : I visits (.yielded v machine resume) r)
      (failed : { r with machine }.register host v.path = (.error e, r'))
      (fatal : e.isFatal = true) :
      Opened host I (.error e, (r'.cancelAll host).2)

/-- The directories of a walk are registered one by one. -/
theorem opened_registerTree {I : List Visit → Traversal σ → Registry σ → Prop}
    (step : ∀ visits v machine resume r, I visits (.yielded v machine resume) r →
      let r' := ({ r with machine }.register host v.path).2
      I (visits ++ [v]) (resume r'.machine) r')
    {visits : List Visit} {t : Traversal σ} {r : Registry σ} (h : I visits t r) :
    Opened host I (r.registerTree host t) := by
  induction t generalizing visits r with
  | finished machine =>
      unfold registerTree
      dsimp only
      split
      · next hc => exact .opened h hc
      · next hc => exact .rootless h ((Bool.not_eq_true _).mp hc)
  | yielded v machine resume ih =>
      have hnext := step visits v machine resume r h
      unfold registerTree
      split
      · next he =>
          rw [he] at hnext
          exact ih _ hnext
      · next he =>
          rw [he] at hnext
          split
          · next hfatal => exact .broken h he hfatal
          · exact ih _ hnext

section Keeps

variable {K : γ → σ → Prop} {t : Traversal σ} {c : γ} {r : Registry σ}

/-- What the walk and the registrations keep between them is known until the end. -/
theorem opened_of_keeps {P : List Visit → Visit → Prop} {J : List Visit → Registry σ → Prop}
    (ht : t.Keeps K P [] c) (hc : K c r.machine)
    (classed : ∀ visits r, J visits r → ∃ c, K c r.machine)
    (walked : ∀ visits c machine r, J visits r → K c r.machine → K c machine →
      J visits { r with machine })
    (register : ∀ visits v r, J visits r → P visits v →
      J (visits ++ [v]) (r.register host v.path).2)
    (hr : J [] r) :
    Opened host (fun visits t r => J visits r ∧ ∃ c, K c r.machine ∧ t.Keeps K P visits c)
      (r.registerTree host t) := by
  refine opened_registerTree ?_ ⟨hr, c, hc, ht⟩
  rintro visits v machine resume r ⟨hr, c, hc, ht⟩
  cases ht with
  | yielded kept visit rest =>
      have hnext := register visits v _ (walked visits c machine r hr hc kept) visit
      obtain ⟨c', hc'⟩ := classed _ _ hnext
      exact ⟨hnext, c', hc', rest c' _ hc'⟩

theorem registerTree_keeps {P : Visit → Prop} {J : Registry σ → Prop}
    (ht : t.Keeps K (fun _ => P) [] c) (hc : K c r.machine)
    (classed : ∀ r, J r → ∃ c, K c r.machine)
    (walked : ∀ c machine r, J r → K c r.machine → K c machine → J { r with machine })
    (register : ∀ v r, J r → P v → J (r.register host v.path).2)
    (cancelAll : ∀ r, J r → J (r.cancelAll host).2) (hr : J r) : J (r.registerTree host t).2 := by
  have hopened := opened_of_keeps (J := fun _ => J) ht hc (fun _ => classed) (fun _ => walked)
    (fun _ => register) hr
  generalize r.registerTree host t = opened at hopened
  cases hopened with
  | opened known rooted =>
      obtain ⟨hr, c, hc, ht⟩ := known
      cases ht with
      | finished kept => exact walked c _ _ hr hc kept
  | rootless known bare =>
      obtain ⟨hr, c, hc, ht⟩ := known
      cases ht with
      | finished kept => exact cancelAll _ (walked c _ _ hr hc kept)
  | @broken _ v machine _ r _ _ known failed fatal =>
      obtain ⟨hr, c, hc, ht⟩ := known
      cases ht with
      | yielded kept visit rest =>
          have hnext := register v _ (walked c machine r hr hc kept) visit
          rw [failed] at hnext
          exact cancelAll _ hnext

/-- What does not depend on the machine only has to be kept by the registrations. -/
theorem registerTree_keeps_of_yields {P : Visit → Prop} {J : Registry σ → Prop} (ht : t.Yields P)
    (walked : ∀ machine r, J r → J { r with machine })
    (register : ∀ v r, J r → P v → J (r.register host v.path).2)
    (cancelAll : ∀ r, J r → J (r.cancelAll host).2) (hr : J r) : J (r.registerTree host t).2 :=
  registerTree_keeps ht trivial (fun _ _ => ⟨(), trivial⟩)
    (fun _ machine r hr _ _ => walked machine r hr) register cancelAll hr

end Keeps

end DirWatch.Registry
