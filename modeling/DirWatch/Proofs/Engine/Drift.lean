import DirWatch.Proofs.Engine.Entries

/-! # What a pass leaves alone

A pass over a directory changes nothing elsewhere, apart from what it retires and adopts below the
directory. Nothing is marked by it, and marks stay on registered directories. -/

namespace DirWatch.Engine

variable {σ : Type} {host : Host σ} {root : Path} {filter : Filter} {L : HostLaws host root filter}

/-! ## Valid states -/

/-- A state as passes leave it. -/
structure Valid (L : HostLaws host root filter) (s : Engine σ) : Prop where
  fits : L.Fits s.registry
  sound : s.forest.Sound
  marked : L.tidy → ∀ q, s.stale.contains q = true → s.registry.contains q = true

theorem contains_iff {s : Engine σ} (h : L.Fits s.registry) {q : Path} {y : List Name}
    (hq : Path.At root q y) : s.registry.contains q = true ↔ s.forest y ≠ none :=
  h.contains_iff hq

/-- A marked path leads to a registered directory. -/
theorem Valid.at_marked {s : Engine σ} (h : Valid L s) (ht : L.tidy) {q : Path}
    (hq : s.stale.contains q = true) : ∃ y, Path.At root q y ∧ s.forest y ≠ none := by
  have hc := h.marked ht q hq
  obtain ⟨y, hy⟩ := h.fits.inside q hc
  exact ⟨y, hy, (contains_iff h.fits hy).1 hc⟩

/-- News of requests and reports alone. -/
theorem Told.valid {s s' : Engine σ} {es : List Event} (h : Told L s s' es) (hs : Valid L s) :
    Valid L s' where
  fits := h.fits
  sound := h.forest ▸ hs.sound
  marked ht q hq := by
    rw [h.stale] at hq
    obtain ⟨y, hy, hne⟩ := hs.at_marked ht hq
    rwa [contains_iff h.fits hy, h.forest]

theorem Shrunk.valid {tops : List (List Name)} {s s' : Engine σ} (h : Shrunk L tops s s')
    (hh : ∀ y n, ¬ Covers tops (y ++ [n]) → s.forest (y ++ [n]) ≠ none → s.forest.Carries y n)
    (hc : ∀ y d, s.forest y = some d → d.Current)
    (hm : L.tidy → ∀ q, s.stale.contains q = true → ∃ y, Path.At root q y ∧ s.forest y ≠ none) :
    Valid L s' where
  fits := h.fits
  sound := h.sound hh hc
  marked ht q hq := by
    obtain ⟨y, hy, hne⟩ := hm ht q (h.marks q hq)
    have hn : ¬ Covers tops y := by
      intro hcov
      rw [h.unmarked q y hy hcov hne] at hq
      cases hq
    rwa [contains_iff h.fits hy, h.kept y hn]

theorem Spread.valid {tops : List (List Name)} {s : Engine σ} {r : Except Error Unit × Engine σ}
    (h : Spread L tops s r) (hs : Valid L s)
    (hp : ∀ t ∈ tops, ∀ y n, t = y ++ [n] → s.forest.Carries y n) : Valid L r.2 where
  fits := h.fits
  sound := h.sound hs.sound hp
  marked ht q hq := by
    rw [h.stale] at hq
    obtain ⟨y, hy, hne⟩ := hs.at_marked ht hq
    rwa [contains_iff h.fits hy, h.kept y fun hc => hne (h.bare y hc)]

/-! ## Everything but one directory -/

/-- A directory stays as it was, and its registered subdirectories stay registered unless they
fail. -/
def Kept (L : HostLaws host root filter) (F F' : Forest) (z : List Name) : Prop :=
  F' z = F z ∧ ∀ n, F (z ++ [n]) ≠ none → F' (z ++ [n]) ≠ none ∨ L.MayFail (z ++ [n])

/-- Unless a pass fails, the known subdirectories of a directory are registered or fail. -/
def Whole (L : HostLaws host root filter) (r : Except Error Unit × Engine σ)
    (z : List Name) : Prop :=
  r.1 = .ok () → ∀ n, r.2.forest.Carries z n → r.2.forest (z ++ [n]) ≠ none ∨ L.MayFail (z ++ [n])

/-- A directory was adopted with its subdirectories, as far as they did not fail. -/
def Fresh (L : HostLaws host root filter) (r : Except Error Unit × Engine σ)
    (z : List Name) : Prop :=
  (∃ l, L.lists z (.ok l) ∧ r.2.forest z = some (.ofListing l)) ∧
    (L.tidy → ∀ q, Path.At root q z → r.2.stale.contains q = false) ∧ Whole L r z

/-- Nothing is marked, nothing changes elsewhere, and all that is registered but the directory `y`
was registered before or is fresh. -/
structure Drift (L : HostLaws host root filter) (y : List Name) (s : Engine σ)
    (r : Except Error Unit × Engine σ) : Prop where
  marks : ∀ q, r.2.stale.contains q = true → s.stale.contains q = true
  outside : ∀ z, ¬ y <+: z → r.2.forest z = s.forest z
  others : ∀ z, z ≠ y → r.2.forest z ≠ none → Kept L s.forest r.2.forest z ∨ Fresh L r z

namespace Drift

variable {y : List Name} {s s' : Engine σ} {r : Except Error Unit × Engine σ}

theorem unmarked (h : Drift L y s r) {q : Path} (hq : s.stale.contains q = false) :
    r.2.stale.contains q = false := by
  by_contra hm
  rw [h.marks q ((Bool.not_eq_false _).mp hm)] at hq
  cases hq

theorem trans (h : Drift L y s (.ok (), s')) (h' : Drift L y s' r) : Drift L y s r where
  marks q hq := h.marks q (h'.marks q hq)
  outside z hz := (h'.outside z hz).trans (h.outside z hz)
  others z hz hne := by
    rcases h'.others z hz hne with ⟨he, hk⟩ | hf
    · rw [he] at hne
      rcases h.others z hz hne with ⟨he', hk'⟩ | ⟨⟨l, hl, hd⟩, hu, hw⟩
      · refine .inl ⟨he.trans he', ?_⟩
        intro n hn
        rcases hk' n hn with hn | hn
        · exact hk n hn
        · exact .inr hn
      · refine .inr ⟨⟨l, hl, he.trans hd⟩, ?_, ?_⟩
        · exact fun ht q hq => h'.unmarked (hu ht q hq)
        · intro hok n hc
          rcases hw rfl n (hc.congr he) with hn | hn
          · exact hk n hn
          · exact .inr hn
    · exact .inr hf

/-- Only the directory itself is changed. -/
theorem of_eq (hm : ∀ q, r.2.stale.contains q = true → s.stale.contains q = true)
    (hf : ∀ z, z ≠ y → r.2.forest z = s.forest z)
    (hy : s.forest y ≠ none → r.2.forest y ≠ none) : Drift L y s r where
  marks := hm
  outside z hz := by
    refine hf z ?_
    rintro rfl
    exact hz List.prefix_rfl
  others z hz _ := by
    refine .inl ⟨hf z hz, ?_⟩
    intro n hn
    left
    by_cases he : z ++ [n] = y
    · rw [he] at hn ⊢
      exact hy hn
    · rwa [hf _ he]

theorem of_told {es : List Event} {result : Except Error Unit} (h : Told L s s' es) :
    Drift L y s (result, s') := by
  refine of_eq ?_ (fun z _ => congrFun h.forest z) ?_
  · intro q hq
    rwa [← h.stale]
  · intro hne
    rwa [← h.forest] at hne

/-- Directories that are retired below the directory, or because they fail. -/
theorem of_shrunk {tops : List (List Name)} (h : Shrunk L tops s s') (hy : ∀ t ∈ tops, y <+: t)
    (ht : ∀ t ∈ tops, ∀ z n, t = z ++ [n] → z = y ∨ L.MayFail t) : Drift L y s (.ok (), s') where
  marks := h.marks
  outside z hz := by
    refine h.kept z ?_
    rintro ⟨t, htop, htz⟩
    exact hz ((hy t htop).trans htz)
  others z hz hne := by
    have hc : ¬ Covers tops z := fun hc => hne (h.gone z hc)
    refine .inl ⟨h.kept z hc, ?_⟩
    intro n hn
    by_cases hcn : Covers tops (z ++ [n])
    · obtain ⟨t, htop, htn⟩ := hcn
      rcases List.prefix_concat_iff.1 htn with rfl | htz
      · exact .inr ((ht _ htop z n rfl).resolve_left hz)
      · exact absurd ⟨t, htop, htz⟩ hc
    · left
      dsimp only
      rwa [h.kept _ hcn]

theorem of_spread {tops : List (List Name)} (h : Spread L tops s r) (hy : ∀ t ∈ tops, y <+: t)
    (hs : Valid L s) : Drift L y s r where
  marks q hq := by rwa [h.stale] at hq
  outside z hz := by
    refine h.kept z ?_
    rintro ⟨t, htop, htz⟩
    exact hz ((hy t htop).trans htz)
  others z _ hne := by
    by_cases hc : Covers tops z
    · right
      obtain ⟨d, hd⟩ := Option.ne_none_iff_exists'.1 hne
      obtain ⟨l, hl, rfl⟩ := h.fresh z d hc hd
      refine ⟨⟨l, hl, hd⟩, ?_, fun hok n => (h.whole hok).2 z n hc⟩
      intro ht q hq
      by_contra hm
      rw [Bool.not_eq_false, h.stale] at hm
      obtain ⟨x, hx, hne'⟩ := hs.at_marked ht hm
      exact hne' (h.bare x (hq.unique hx ▸ hc))
    · refine .inl ⟨h.kept z hc, ?_⟩
      intro n hn
      left
      rwa [h.kept _ fun hcn => hn (h.bare _ hcn)]

end Drift

end DirWatch.Engine
