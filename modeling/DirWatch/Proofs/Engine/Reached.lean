import DirWatch.Proofs.Engine.Adopt
import DirWatch.Proofs.Engine.Steady

/-! # What adopting reaches

On a machine that answers from a scene and places every watch, adopting a directory registers it and
what listings lead to from it, each directory from its listing. -/

namespace DirWatch

namespace Scene

/-- The listing of a directory shows an entry as a directory. -/
def Leads (sc : Scene) (y : List Name) (n : Name) : Prop :=
  ((sc.listing y).entries.get? n).map (·.isDirectory) = some true

/-- The places that listings lead to from a place on, all of which can be listed. -/
inductive Reached (sc : Scene) (t : List Name) : List Name → Prop
  | here (listed : sc.Listed t) : Reached sc t t
  | child {y : List Name} {n : Name} (parent : Reached sc t y) (leads : sc.Leads y n)
      (listed : sc.Listed (y ++ [n])) : Reached sc t (y ++ [n])

variable {sc : Scene} {t y : List Name} {n : Name}

theorem Reached.listed (h : sc.Reached t y) : sc.Listed y := by
  cases h with
  | here listed => exact listed
  | child _ _ listed => exact listed

theorem Reached.isPart (h : sc.Reached t y) : t <+: y := by
  induction h with
  | here => exact List.prefix_rfl
  | child _ _ _ ih => exact ih.trans (List.prefix_append _ _)

theorem leads_iff {d : TrackedDirectory Name} (hd : d = .ofListing (sc.listing y)) :
    sc.Leads y n ↔ ∃ i, d.items.get? n = some i ∧ i.isDirectory = true := by
  rw [hd, TrackedDirectory.get?_items_ofListing, Leads]
  cases (sc.listing y).entries.get? n with
  | none => simp
  | some e => simp [ListedEntry.stamped]

end Scene

namespace Host.Displays

variable {σ : Type} {host : Host σ} {sc : Scene} {holds : σ → Prop}

/-- What is known of a machine that answers from a scene and places every watch. -/
abbrev spareLaws (h : host.Displays sc holds) (hw : ∀ p s, holds s → (host.watch p s).1 = .ok ()) :
    HostLaws host sc.root sc.filter :=
  h.laws (· = .ok ()) hw

variable {h : host.Displays sc holds} {hw : ∀ p s, holds s → (host.watch p s).1 = .ok ()}

theorem mayFail_iff {y : List Name} : (h.spareLaws hw).MayFail y ↔ ¬ sc.Listed y := by
  constructor
  · rintro (⟨e, he⟩ | ⟨e, he⟩) ⟨l, hl⟩
    · cases he
    · cases he.trans hl
  · intro hn
    cases hl : sc.look y with
    | error e => exact .inr ⟨e, hl.symm⟩
    | ok l => exact absurd ⟨l, hl⟩ hn

end Host.Displays

namespace Engine.Spread

variable {σ : Type} {host : Host σ} {sc : Scene} {holds : σ → Prop}
  {h : host.Displays sc holds} {hw : ∀ p s, holds s → (host.watch p s).1 = .ok ()}
  {tops : List (List Name)} {s : Engine σ} {r : Except Error Unit × Engine σ} {t y : List Name}

/-- No watch fails, so nothing does. -/
theorem ok (ha : Spread (h.spareLaws hw) tops s r) : r.1 = .ok () := by
  rcases hr : r.1 with e | _
  · obtain ⟨-, z, hz⟩ := ha.failure e hr
    cases hz
  · rfl

/-- What is registered below the adopted places comes from listings. -/
theorem eq_ofListing (ha : Spread (h.spareLaws hw) tops s r) (hy : Covers tops y)
    {d : TrackedDirectory Name} (hd : r.2.forest y = some d) :
    sc.Listed y ∧ d = .ofListing (sc.listing y) := by
  obtain ⟨l, hl, rfl⟩ := ha.fresh y d hy hd
  obtain ⟨rfl, -⟩ := Scene.of_look_eq_ok hl.symm
  exact ⟨⟨_, hl.symm⟩, rfl⟩

/-- Below an adopted place is registered what is reached from it. -/
theorem registered_iff (ha : Spread (h.spareLaws hw) tops s r) (ht : t ∈ tops) (hy : t <+: y) :
    r.2.forest y ≠ none ↔ sc.Reached t y := by
  obtain ⟨hplaced, hwhole⟩ := ha.whole ha.ok
  constructor
  · induction y using List.reverseRecOn with
    | nil =>
        obtain rfl := List.prefix_nil.1 hy
        intro hne
        obtain ⟨d, hd⟩ := Option.ne_none_iff_exists'.1 hne
        exact .here (ha.eq_ofListing ⟨_, ht, hy⟩ hd).1
    | append_singleton y n ih =>
        intro hne
        obtain ⟨d, hd⟩ := Option.ne_none_iff_exists'.1 hne
        have hlisted := (ha.eq_ofListing ⟨t, ht, hy⟩ hd).1
        rcases List.prefix_concat_iff.1 hy with rfl | hty
        · exact .here hlisted
        · obtain ⟨e, i, he, hi⟩ := ha.hangs y n ⟨t, ht, hty⟩ hne
          have hofListing := (ha.eq_ofListing ⟨t, ht, hty⟩ he).2
          exact .child (ih hty (by rw [he]; simp)) ((Scene.leads_iff hofListing).2 ⟨i, hi⟩) hlisted
  · intro hreached
    induction hreached with
    | here listed =>
        exact (hplaced t ht).resolve_right fun hm => Host.Displays.mayFail_iff.1 hm listed
    | @child y n parent leads listed ih =>
        obtain ⟨e, he⟩ := Option.ne_none_iff_exists'.1 (ih parent.isPart)
        have hcovered : Covers tops y := ⟨t, ht, parent.isPart⟩
        have hofListing := (ha.eq_ofListing hcovered he).2
        obtain ⟨i, hi⟩ := (Scene.leads_iff hofListing).1 leads
        exact (hwhole y n hcovered ⟨e, i, he, hi⟩).resolve_right fun hm =>
          Host.Displays.mayFail_iff.1 hm listed

end Engine.Spread

end DirWatch
