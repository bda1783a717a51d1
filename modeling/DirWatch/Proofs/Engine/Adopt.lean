import DirWatch.Engine.Adopt
import DirWatch.Proofs.Engine.Laws

/-! # What adopting a directory does

Everything found below the adopted directories is registered from its first listing, and exactly
what is then known there is reported as created. A failure leaves a part of this, which is sound as
far as it goes. -/

namespace DirWatch.Engine

variable {σ : Type} {host : Host σ} {root : Path} {filter : Filter} {L : HostLaws host root filter}

/-- A run that starts with nothing registered below the places `tops` has adopted them. -/
structure Spread (L : HostLaws host root filter) (tops : List (List Name)) (s : Engine σ)
    (r : Except Error Unit × Engine σ) : Prop where
  bare : ∀ y, Covers tops y → s.forest y = none
  fits : L.Fits r.2.registry
  stale : r.2.stale = s.stale
  kept : ∀ y, ¬ Covers tops y → r.2.forest y = s.forest y
  fresh : ∀ y d, Covers tops y → r.2.forest y = some d →
    ∃ l, L.lists y (.ok l) ∧ d = .ofListing l
  hangs : r.2.forest.Hangs (Covers tops)
  whole : r.1 = .ok () → (∀ t ∈ tops, r.2.forest t ≠ none ∨ L.MayFail t) ∧
    ∀ y n, Covers tops y → r.2.forest.Carries y n →
      r.2.forest (y ++ [n]) ≠ none ∨ L.MayFail (y ++ [n])
  failure : ∀ e, r.1 = .error e → e.isFatal = true ∧ ∃ y, L.watches y (.error e)

/-- What was found below the places `tops` was reported, each entry from a listing. -/
structure Adopted (L : HostLaws host root filter) (tops : List (List Name)) (s : Engine σ)
    (r : Except Error Unit × Engine σ) (es : List Event) : Prop extends Spread L tops s r where
  reports : s.registry.Reports r.2.registry es
  grounded : ∀ e ∈ es, L.Grounded e
  plays : ∀ M : Mirror, (∀ y, Covers tops y → M y = fun _ => none) →
    (∀ t ∈ tops, ∀ z m, t = z ++ [m] → M z m = some .directory) →
    ∃ M', Mirror.Plays M es M' ∧ (∀ y, Covers tops y → M' y = r.2.forest.known y) ∧
      ∀ y, ¬ Covers tops y → M' y = M y

namespace Spread

/-- Nothing has happened at some places, because there are none or because of a failure. -/
theorem idle {tops : List (List Name)} {s : Engine σ} {result : Except Error Unit}
    (h : L.Fits s.registry) (hn : ∀ y, Covers tops y → s.forest y = none)
    (hw : result = .ok () → ∀ t ∈ tops, L.MayFail t)
    (hf : ∀ e, result = .error e → e.isFatal = true ∧ ∃ y, L.watches y (.error e)) :
    Spread L tops s (result, s) where
  bare := hn
  fits := h
  stale := rfl
  kept _ _ := rfl
  fresh y d hy hd := by
    rw [hn y hy] at hd
    cases hd
  hangs y n hy hne := absurd (hn _ (hy.trans (List.prefix_append y [n]))) hne
  whole hr := by
    refine ⟨fun t ht => .inr (hw hr t ht), ?_⟩
    rintro y n hy ⟨d, i, hd, -⟩
    rw [hn y hy] at hd
    cases hd
  failure := hf

theorem nil {s : Engine σ} (h : L.Fits s.registry) : Spread L [] s (.ok (), s) :=
  idle h (fun y hy => absurd hy (Covers.not_nil y)) (by simp) (by simp)

theorem of_told {tops : List (List Name)} {s s₁ : Engine σ} {r : Except Error Unit × Engine σ}
    {es : List Event} (ht : Told L s s₁ es) (h : Spread L tops s₁ r) : Spread L tops s r where
  bare y hy := ht.forest ▸ h.bare y hy
  fits := h.fits
  stale := h.stale.trans ht.stale
  kept y hy := by rw [h.kept y hy, ht.forest]
  fresh := h.fresh
  hangs := h.hangs
  whole := h.whole
  failure := h.failure

/-- One place after another. -/
theorem append {t : List Name} {tops : List (List Name)} {s s' s'' : Engine σ}
    {result result' : Except Error Unit} (ha : (t :: tops).Pairwise Apart)
    (h : Spread L [t] s (result', s')) (h' : Spread L tops s' (result, s''))
    (hr : result = .ok () → result' = .ok ()) : Spread L (t :: tops) s (result, s'') := by
  have hfirst : ∀ y, t <+: y → s''.forest y = s'.forest y :=
    fun y hy => h'.kept y (Apart.not_covers ha hy)
  have hone : ∀ y, t <+: y → Covers [t] y := fun y hy => Covers.singleton.2 hy
  refine { bare := ?bare, fits := h'.fits, stale := h'.stale.trans h.stale, kept := ?kept,
           fresh := ?fresh, hangs := ?hangs, whole := ?whole, failure := h'.failure }
  case bare =>
    intro y hy
    by_cases hc : t <+: y
    · exact h.bare y (hone y hc)
    · rw [← h.kept y fun hc' => hc (Covers.singleton.1 hc')]
      exact h'.bare y ((Covers.cons.1 hy).resolve_left hc)
  case kept =>
    intro y hy
    rw [Covers.cons, not_or] at hy
    rw [h'.kept y hy.2]
    exact h.kept y fun hc => hy.1 (Covers.singleton.1 hc)
  case fresh =>
    intro y d hy hd
    rcases Covers.cons.1 hy with hy | hy
    · exact h.fresh y d (hone y hy) ((hfirst y hy).symm.trans hd)
    · exact h'.fresh y d hy hd
  case hangs =>
    intro y n hy hne
    rcases Covers.cons.1 hy with hy | hy
    · dsimp only at hne ⊢
      rw [hfirst _ (hy.trans (List.prefix_append y [n]))] at hne
      exact (h.hangs y n (hone y hy) hne).congr (hfirst y hy).symm
    · exact h'.hangs y n hy hne
  case whole =>
    intro hok
    obtain ⟨ht, hc⟩ := h.whole (hr hok)
    obtain ⟨ht', hc'⟩ := h'.whole hok
    dsimp only at ht hc ⊢
    constructor
    · intro u hu
      rcases List.mem_cons.1 hu with rfl | hu
      · rw [hfirst u List.prefix_rfl]
        exact ht u List.mem_cons_self
      · exact ht' u hu
    · intro y n hy hn
      rcases Covers.cons.1 hy with hy | hy
      · rw [hfirst _ (hy.trans (List.prefix_append y [n]))]
        exact hc y n (hone y hy) (hn.congr (hfirst y hy))
      · exact hc' y n hy hn

/-- What was adopted hangs together with the rest. -/
theorem sound {tops : List (List Name)} {s : Engine σ} {r : Except Error Unit × Engine σ}
    (h : Spread L tops s r) (hs : s.forest.Sound)
    (hp : ∀ t ∈ tops, ∀ y n, t = y ++ [n] → s.forest.Carries y n) : r.2.forest.Sound where
  hangs y n hne := by
    by_cases hy : Covers tops y
    · exact h.hangs y n hy hne
    refine Forest.Carries.congr ?_ (h.kept y hy).symm
    by_cases hc : Covers tops (y ++ [n])
    · obtain ⟨t, ht, htn⟩ := hc
      rcases List.prefix_concat_iff.1 htn with rfl | hty
      · exact hp _ ht y n rfl
      · exact absurd ⟨t, ht, hty⟩ hy
    · rw [h.kept _ hc] at hne
      exact hs.hangs y n hne
  current y d hd := by
    by_cases hy : Covers tops y
    · obtain ⟨l, -, rfl⟩ := h.fresh y d hy hd
      exact TrackedDirectory.current_ofListing l
    · exact hs.current y d ((h.kept y hy).symm.trans hd)

end Spread

namespace Adopted

/-- Nothing has happened at some places, because there are none or because of a failure. -/
theorem idle {tops : List (List Name)} {s s' : Engine σ} {result : Except Error Unit}
    (hs : Told L s s' []) (hn : ∀ y, Covers tops y → s.forest y = none)
    (hw : result = .ok () → ∀ t ∈ tops, L.MayFail t)
    (hf : ∀ e, result = .error e → e.isFatal = true ∧ ∃ y, L.watches y (.error e)) :
    Adopted L tops s (result, s') [] where
  toSpread := .of_told hs (.idle hs.fits (by rwa [hs.forest]) hw hf)
  reports := hs.reports
  grounded := by simp
  plays M hM _ := by
    refine ⟨M, .nil M, ?_, fun _ _ => rfl⟩
    intro y hy
    rw [hM y hy, hs.forest, Forest.known_none (hn y hy)]

theorem nil {s : Engine σ} (h : L.Fits s.registry) : Adopted L [] s (.ok (), s) [] := by
  refine idle ⟨h, .nil rfl, rfl, rfl⟩ ?_ (by simp) (by simp)
  intro y hy
  exact absurd hy (Covers.not_nil y)

/-- One place after another. -/
theorem append {t : List Name} {tops : List (List Name)} {s s' s'' : Engine σ}
    {result result' : Except Error Unit} {es fs : List Event}
    (ha : (t :: tops).Pairwise Apart) (h : Adopted L [t] s (result', s') es)
    (h' : Adopted L tops s' (result, s'') fs) (hr : result = .ok () → result' = .ok ()) :
    Adopted L (t :: tops) s (result, s'') (es ++ fs) where
  toSpread := h.toSpread.append ha h'.toSpread hr
  reports := h.reports.append h'.reports
  grounded e he := by
    rcases List.mem_append.1 he with he | he
    · exact h.grounded e he
    · exact h'.grounded e he
  plays M hM hp := by
    have hsep : ∀ y, t <+: y → ¬ Covers tops y := fun y hy => Apart.not_covers ha hy
    obtain ⟨M₁, hplays, hin, hout⟩ := h.plays M
      (fun y hy => hM y (Covers.cons.2 (.inl (Covers.singleton.1 hy))))
      (fun u hu => hp u (List.mem_cons.2 (.inl (List.mem_singleton.1 hu))))
    obtain ⟨M₂, hplays', hin', hout'⟩ := h'.plays M₁
      (by
        intro y hy
        rw [hout y fun hc => hsep y (Covers.singleton.1 hc) hy]
        exact hM y (Covers.cons.2 (.inr hy)))
      (by
        -- the parent of a place is not below a place that is apart from it
        rintro u hu z m rfl
        rw [hout z]
        · exact hp _ (List.mem_cons_of_mem t hu) z m rfl
        · intro hz
          exact ((List.pairwise_cons.1 ha).1 _ hu).1
            ((Covers.singleton.1 hz).trans (List.prefix_append z [m])))
    refine ⟨M₂, hplays.append hplays', ?_, ?_⟩
    · intro y hy
      rcases Covers.cons.1 hy with hy | hy
      · rw [hout' y (hsep y hy), hin y (Covers.singleton.2 hy)]
        exact Forest.known_congr (h'.kept y (hsep y hy)).symm
      · exact hin' y hy
    · intro y hy
      rw [Covers.cons, not_or] at hy
      rw [hout' y hy.2, hout y fun hc => hy.1 (Covers.singleton.1 hc)]

end Adopted

/-- A step that adopts one place, used on paths to several places in turn. -/
theorem adopted_inTurn {α : Type} {step : α → Engine σ → Except Error Unit × Engine σ}
    {Leads : α → List Name → Prop}
    (hstep : ∀ a t s, Leads a t → L.Fits s.registry → (∀ y, t <+: y → s.forest y = none) →
      ∃ es, Adopted L [t] s (step a s) es)
    {l : List α} {tops : List (List Name)} (hl : List.Forall₂ Leads l tops)
    (ha : tops.Pairwise Apart) {s : Engine σ} (h : L.Fits s.registry)
    (hn : ∀ y, Covers tops y → s.forest y = none) :
    ∃ es, Adopted L tops s (inTurn step l s) es := by
  induction hl generalizing s with
  | nil => exact ⟨[], .nil h⟩
  | @cons a t l tops hat hl ih =>
      obtain ⟨es, hes⟩ := hstep a t s hat h fun y hy => hn y (Covers.cons.2 (.inl hy))
      have hn' : ∀ y, Covers tops y → (step a s).2.forest y = none := by
        rintro y ⟨u, hu, huy⟩
        rw [hes.kept y]
        · exact hn y (Covers.cons.2 (.inr ⟨u, hu, huy⟩))
        · intro hy
          exact ((List.pairwise_cons.1 ha).1 u hu).not_both (Covers.singleton.1 hy) huy
      rw [inTurn]
      rcases hs : step a s with ⟨e | _, s'⟩
      · rw [hs] at hes hn'
        have hidle : Adopted L tops s' (.error e, s') [] := by
          refine .idle ⟨hes.fits, .nil rfl, rfl, rfl⟩ hn' (by simp) ?_
          rintro e' ⟨⟩
          exact hes.failure e rfl
        exact ⟨_, hes.append ha hidle (by simp)⟩
      · rw [hs] at hes hn'
        obtain ⟨fs, hfs⟩ := ih (List.pairwise_cons.1 ha).2 hes.fits hn'
        exact ⟨_, hes.append ha hfs fun _ => rfl⟩

section Round

variable {s s₁ : Engine σ} {r : Except Error Unit × Engine σ} {t : List Name} {l : Listing Name}
  {es : List Event}

/-- A listener that knows nothing of a directory is told that its entries are created. -/
theorem plays_ofListing {M : Mirror} (l : Listing Name) (hM : M t = fun _ => none)
    (hp : ∀ z m, t = z ++ [m] → M z m = some .directory) :
    ∃ M', Mirror.Plays M ((TrackedDirectory.ofListing l).items.entries.map fun e =>
        .created t e.1 e.2.known) M' ∧
      (M' t = fun n => ((TrackedDirectory.ofListing l).items.get? n).map (·.known)) ∧
      ∀ y, y ≠ t → M' y = M y := by
  obtain ⟨M', hplays, hin, hout, hf⟩ := Mirror.plays_created (y := t) (M := M)
    (TrackedDirectory.ofListing l).items.nodup_keys hp (by
      intro e _
      rw [hM])
  refine ⟨M', hplays, ?_, hf⟩
  funext n
  cases hg : (TrackedDirectory.ofListing l).items.get? n with
  | some i => exact hin _ (OrderedMap.mem_entries_iff.2 hg)
  | none =>
      rw [hout n, hM, Option.map_none]
      intro hn
      obtain ⟨⟨n', i⟩, hi, rfl⟩ := List.mem_map.1 hn
      rw [OrderedMap.mem_entries_iff, hg] at hi
      cases hi

/-- The directory of a round stays as it was listed. -/
theorem Spread.round_top {ns : List Name}
    (hf : s₁.forest = Function.update s.forest t (some (.ofListing l)))
    (h : Spread L (ns.map fun n => t ++ [n]) s₁ r) : r.2.forest t = some (.ofListing l) := by
  rw [h.kept t fun hc => (Apart.covers_of_children hc).2 rfl, hf, Function.update_self]

/-- Below the directory of a round, a place is the directory, below a subdirectory, or bare. -/
theorem Spread.round_cases {ns : List Name} (hn : ∀ y, t <+: y → s.forest y = none)
    (hf : s₁.forest = Function.update s.forest t (some (.ofListing l)))
    (h : Spread L (ns.map fun n => t ++ [n]) s₁ r) {y : List Name} (hy : t <+: y) :
    y = t ∨ Covers (ns.map fun n => t ++ [n]) y ∨ ∀ z, y <+: z → r.2.forest z = none := by
  rcases Covers.below_cases hy with hyt | ⟨n, hny⟩
  · exact .inl hyt
  refine .inr ?_
  by_cases hc : Covers (ns.map fun n => t ++ [n]) y
  · exact .inl hc
  refine .inr fun z hz => ?_
  have hnz := hny.trans hz
  have hcz : ¬ Covers (ns.map fun n => t ++ [n]) z := by
    rintro ⟨c, hc', hcz⟩
    obtain ⟨m, -, rfl⟩ := List.mem_map.1 hc'
    obtain rfl := Covers.child_unique hcz hnz
    exact hc ⟨_, hc', hny⟩
  have hzt : z ≠ t := by
    rintro rfl
    exact Covers.not_prefix_child hnz
  rw [h.kept z hcz, hf, Function.update_of_ne hzt, hn z (Covers.of_child hnz)]

/-- A round registers a directory, and its subdirectories are adopted in some order. -/
theorem Spread.round {ns : List Name}
    (hns : ∀ n, n ∈ ns ↔ n ∈ (TrackedDirectory.ofListing l).subdirectories)
    (hl : L.lists t (.ok l)) (hn : ∀ y, t <+: y → s.forest y = none)
    (hf : s₁.forest = Function.update s.forest t (some (.ofListing l))) (hs : s₁.stale = s.stale)
    (h : Spread L (ns.map fun n => t ++ [n]) s₁ r) : Spread L [t] s r := by
  have htop := h.round_top hf
  have hcases : ∀ y, Covers [t] y →
      y = t ∨ Covers (ns.map fun n => t ++ [n]) y ∨ ∀ z, y <+: z → r.2.forest z = none :=
    fun y hy => h.round_cases hn hf (Covers.singleton.1 hy)
  have hcarries : ∀ n, r.2.forest.Carries t n ↔ n ∈ ns := by
    intro n
    rw [hns, TrackedDirectory.mem_subdirectories, Forest.Carries, htop]
    simp
  refine { bare := fun y hy => hn y (Covers.singleton.1 hy), fits := h.fits,
           stale := h.stale.trans hs, kept := ?kept, fresh := ?fresh, hangs := ?hangs,
           whole := ?whole, failure := h.failure }
  case kept =>
    intro y hy
    rw [Covers.singleton] at hy
    rw [h.kept y fun hc => hy (Apart.covers_of_children hc).1, hf, Function.update_of_ne]
    rintro rfl
    exact hy List.prefix_rfl
  case fresh =>
    intro y d' hy hd'
    rcases hcases y hy with rfl | hc | hc
    · rw [htop] at hd'
      exact ⟨l, hl, (Option.some.inj hd').symm⟩
    · exact h.fresh y d' hc hd'
    · rw [hc y List.prefix_rfl] at hd'
      cases hd'
  case hangs =>
    intro y n hy hne
    rcases hcases y hy with rfl | hc | hc
    · rw [hcarries]
      rcases hcases (y ++ [n]) (hy.trans (List.prefix_append y [n])) with he | ⟨c, hc, hcn⟩ | hc
      · simp at he
      · obtain ⟨m, hm, rfl⟩ := List.mem_map.1 hc
        obtain rfl := Covers.child_unique hcn List.prefix_rfl
        exact hm
      · exact absurd (hc _ List.prefix_rfl) hne
    · exact h.hangs y n hc hne
    · exact absurd (hc _ (List.prefix_append y [n])) hne
  case whole =>
    intro hok
    obtain ⟨ht, hc⟩ := h.whole hok
    refine ⟨?_, ?_⟩
    · intro u hu
      rw [List.mem_singleton.1 hu, htop]
      exact .inl (by simp)
    · intro y n hy hcar
      rcases hcases y hy with rfl | hcy | hcy
      · exact ht _ (List.mem_map.2 ⟨n, (hcarries n).1 hcar, rfl⟩)
      · exact hc y n hcy hcar
      · obtain ⟨d', i, hd', -⟩ := hcar
        rw [hcy y List.prefix_rfl] at hd'
        cases hd'

/-- A round registers a directory and goes on with its subdirectories. -/
theorem Adopted.round (hl : L.lists t (.ok l)) (hn : ∀ y, t <+: y → s.forest y = none)
    (hr : s.registry.Reports s₁.registry
      ((TrackedDirectory.ofListing l).items.entries.map fun e => .created t e.1 e.2.known))
    (hf : s₁.forest = Function.update s.forest t (some (.ofListing l)))
    (hs : s₁.stale = s.stale)
    (h : Adopted L ((TrackedDirectory.ofListing l).subdirectories.reverse.map fun n => t ++ [n])
      s₁ r es) :
    Adopted L [t] s r
      (((TrackedDirectory.ofListing l).items.entries.map fun e => .created t e.1 e.2.known) ++
        es) := by
  set d := TrackedDirectory.ofListing l with hd
  set under := d.subdirectories.reverse.map fun n => t ++ [n] with hunder
  have hsub : ∀ y, Covers under y → t <+: y ∧ y ≠ t := fun y hy => Apart.covers_of_children hy
  have htop : r.2.forest t = some d := h.toSpread.round_top hf
  refine { toSpread := .round (fun n => List.mem_reverse) hl hn hf hs h.toSpread,
           reports := hr.append h.reports, grounded := ?grounded, plays := ?plays }
  case grounded =>
    intro e he
    rcases List.mem_append.1 he with he | he
    · obtain ⟨⟨n, i⟩, hi, rfl⟩ := List.mem_map.1 he
      rw [OrderedMap.mem_entries_iff, hd, TrackedDirectory.get?_items_ofListing] at hi
      obtain ⟨i', hi', rfl⟩ := Option.map_eq_some_iff.1 hi
      exact ⟨l, i', hl, hi', rfl⟩
    · exact h.grounded e he
  case plays =>
    intro M hM hp
    obtain ⟨M₁, hp₁, ht₁, hf₁⟩ := plays_ofListing (t := t) l
      (hM t (Covers.singleton.2 List.prefix_rfl)) (hp t (List.mem_singleton.2 rfl))
    obtain ⟨M₂, hp₂, hi₂, ho₂⟩ := h.plays M₁
      (by
        intro y hy
        rw [hf₁ y (hsub y hy).2]
        exact hM y (Covers.singleton.2 (hsub y hy).1))
      (by
        intro u hu z m he
        obtain ⟨n, hn', rfl⟩ := List.mem_map.1 hu
        obtain ⟨rfl, rfl⟩ := List.append_singleton_inj.1 he
        obtain ⟨i, hi, hdir⟩ := TrackedDirectory.mem_subdirectories.1 (List.mem_reverse.1 hn')
        rw [ht₁]
        change (d.items.get? n).map (·.known) = _
        rw [hi, Option.map_some, ← Known.isDirectory_iff.1 ((Item.isDirectory_known i).trans hdir)])
    refine ⟨M₂, hp₁.append hp₂, ?_, ?_⟩
    · intro y hy
      rcases h.toSpread.round_cases hn hf (Covers.singleton.1 hy) with rfl | hc | hc
      · rw [ho₂ y fun hc => (hsub y hc).2 rfl, ht₁]
        funext n
        rw [Forest.known, htop, Option.bind_some]
      · exact hi₂ y hc
      · by_cases hcy : Covers under y
        · exact hi₂ y hcy
        rw [Forest.known_none (hc y List.prefix_rfl), ho₂ y hcy, hf₁ y, hM y hy]
        rintro rfl
        simp [hc y List.prefix_rfl] at htop
    · intro y hy
      rw [Covers.singleton] at hy
      rw [ho₂ y fun hc => hy (hsub y hc).1, hf₁ y]
      rintro rfl
      exact hy List.prefix_rfl

end Round

/-- A directory that cannot be registered is passed over, unless the failure is fatal. -/
theorem adopted_refused {room : Nat} {p : Path} {t : List Name} {s s' : Engine σ} {e : Error}
    (hreg : s.register host p = (.error e, s')) (hn : ∀ y, t <+: y → s.forest y = none)
    (hmay : L.MayFail t) (hfatal : e.isFatal = true → L.watches t (.error e))
    (htold : Told L s s' []) : Adopted L [t] s (adoptWithin host room p s) [] := by
  have hn' : ∀ y, Covers [t] y → s.forest y = none :=
    fun y hy => hn y (Covers.singleton.1 hy)
  unfold adoptWithin
  rw [hreg]
  dsimp only
  by_cases he : e.isFatal = true
  · rw [if_pos he]
    refine .idle htold hn' (by simp) ?_
    rintro e' ⟨⟩
    exact ⟨he, t, hfatal he⟩
  · rw [if_neg he]
    refine .idle htold hn' ?_ (by simp)
    intro _ u hu
    rwa [List.mem_singleton.1 hu]

/-- Adopting a directory below which nothing is registered. Paths grow on the way down, so the room
is never used up before a directory has no path that can be looked up. -/
theorem adopted_adoptWithin (room : Nat) {p : Path} {t : List Name} {s : Engine σ}
    (h : L.Fits s.registry) (hp : L.Names p t) (hroom : Path.limit ≤ room + p.text.length)
    (hn : ∀ y, t <+: y → s.forest y = none) :
    ∃ es, Adopted L [t] s (adoptWithin host room p s) es := by
  induction room generalizing p t s with
  | zero =>
      rcases register_cases h hp (hn t List.prefix_rfl) with
        ⟨e, s', hreg, hmay, hfatal, htold⟩ | ⟨l, s', hreg, -, hlt, -⟩
      · exact ⟨[], adopted_refused hreg hn hmay hfatal htold⟩
      · omega
  | succ room ih =>
      rcases register_cases h hp (hn t List.prefix_rfl) with
        ⟨e, s', hreg, hmay, hfatal, htold⟩ | ⟨l, s', hreg, hl, -, hfit, hf, hc, hst⟩
      · exact ⟨[], adopted_refused hreg hn hmay hfatal htold⟩
      unfold adoptWithin
      rw [hreg]
      dsimp only
      rw [hfit.get?_eq hp.1, show s'.registry.forest t = some (.ofListing l) by
        rw [← forest, hf, Function.update_self], Option.getD_some]
      set d := TrackedDirectory.ofListing l
      have htold := told_emitItems hfit hp.1 .created
        (fun e => .created t e.1 e.2.known) (fun a => by simp [Event.view])
        d.items.entries
      have hforest := htold.forest.trans hf
      have hsub : List.Forall₂ (fun q u => L.Names q u ∧ p.text.length < q.text.length)
          (d.subdirectories.map p.child).reverse
          (d.subdirectories.reverse.map fun n => t ++ [n]) := by
        rw [← List.map_reverse]
        exact List.forall₂_map_left_iff.2 (List.forall₂_map_right_iff.2
          (List.forall₂_same.2 fun n _ => ⟨hp.child n, Path.length_lt_child p n⟩))
      have hpair := Apart.pairwise_children (t := t) (List.nodup_reverse.2 d.nodup_subdirectories)
      obtain ⟨es, hes⟩ := adopted_inTurn
        (fun q u s hq hs hu => ih hs hq.1 (by omega) hu) hsub hpair htold.fits (by
          intro y hy
          have hcy := Apart.covers_of_children hy
          rw [hforest, Function.update_of_ne hcy.2]
          exact hn y hcy.1)
      exact ⟨_, .round hl hn ((Registry.Reports.nil hc).append htold.reports) hforest
        (htold.stale.trans hst) hes⟩

/-- Adopting a directory below which nothing is registered. -/
theorem adopted_adopt {p : Path} {t : List Name} {s : Engine σ} (h : L.Fits s.registry)
    (hp : L.Names p t) (hn : ∀ y, t <+: y → s.forest y = none) :
    ∃ es, Adopted L [t] s (s.adopt host p) es :=
  adopted_adoptWithin _ h hp (by omega) hn

/-- Adopting subdirectories in turn, below which nothing is registered. -/
theorem adopted_children {p : Path} {t : List Name} {s : Engine σ} (h : L.Fits s.registry)
    (hp : L.Names p t) {ns : List Name} (hns : ns.Nodup)
    (hn : ∀ y, Covers (ns.map fun n => t ++ [n]) y → s.forest y = none) :
    ∃ es, Adopted L (ns.map fun n => t ++ [n]) s (inTurn (adopt host) (ns.map p.child) s) es := by
  have hleads : List.Forall₂ L.Names (ns.map p.child) (ns.map fun n => t ++ [n]) :=
    List.forall₂_map_left_iff.2 (List.forall₂_map_right_iff.2
      (List.forall₂_same.2 fun n _ => hp.child n))
  exact adopted_inTurn (fun q u s (hq : L.Names q u) hs hu => adopted_adopt hs hq hu) hleads
    (Apart.pairwise_children hns) h hn

end DirWatch.Engine
