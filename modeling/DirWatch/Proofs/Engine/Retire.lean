import DirWatch.Engine.Retire
import DirWatch.Proofs.Engine.Laws

/-! # What retiring a directory does

Everything registered below the retired directories is dropped with its marks, and exactly what was
known there is reported as deleted. -/

namespace DirWatch.Engine

variable {σ : Type} {host : Host σ} {root : Path} {filter : Filter} {L : HostLaws host root filter}

/-- Everything registered below the places `tops` was dropped with its marks. -/
structure Shrunk (L : HostLaws host root filter) (tops : List (List Name)) (s s' : Engine σ) :
    Prop where
  fits : L.Fits s'.registry
  gone : ∀ y, Covers tops y → s'.forest y = none
  kept : ∀ y, ¬ Covers tops y → s'.forest y = s.forest y
  marks : ∀ p, s'.stale.contains p = true → s.stale.contains p = true
  unmarked : ∀ p y, Path.At root p y → Covers tops y → s.forest y ≠ none →
    s'.stale.contains p = false

/-- The places `tops` were retired, and the events were reported. -/
structure Retired (L : HostLaws host root filter) (tops : List (List Name)) (s s' : Engine σ)
    (es : List Event) : Prop extends Shrunk L tops s s' where
  reports : s.registry.Reports s'.registry es
  deletes : ∀ e ∈ es, ∃ y n f, e = .deleted y n f ∧ Covers tops y
  plays : ∀ M : Mirror, (∀ y, Covers tops y → M y = s.forest.known y) →
    ∃ M', Mirror.Plays M es M' ∧ (∀ y, Covers tops y → M' y = fun _ => none) ∧
      ∀ y, ¬ Covers tops y → M' y = M y

namespace Shrunk

theorem of_told {tops : List (List Name)} {s s₁ s' : Engine σ} {es : List Event}
    (ht : Told L s s₁ es) (h : Shrunk L tops s₁ s') : Shrunk L tops s s' where
  fits := h.fits
  gone := h.gone
  kept y hy := by rw [h.kept y hy, ht.forest]
  marks p hp := ht.stale ▸ h.marks p hp
  unmarked p y hp hy hne := h.unmarked p y hp hy (by rwa [ht.forest])

theorem nil {s : Engine σ} (h : L.Fits s.registry) : Shrunk L [] s s where
  fits := h
  gone y hy := absurd hy (Covers.not_nil y)
  kept _ _ := rfl
  marks _ hp := hp
  unmarked _ y _ hy := absurd hy (Covers.not_nil y)

/-- One place after another. -/
theorem append {t : List Name} {tops : List (List Name)} {s s' s'' : Engine σ}
    (h : Shrunk L [t] s s') (h' : Shrunk L tops s' s'') : Shrunk L (t :: tops) s s'' where
  fits := h'.fits
  gone y hy := by
    by_cases hc : Covers tops y
    · exact h'.gone y hc
    · rw [h'.kept y hc]
      exact h.gone y (Covers.singleton.2 ((Covers.cons.1 hy).resolve_right hc))
  kept y hy := by
    rw [Covers.cons, not_or] at hy
    rw [h'.kept y hy.2]
    exact h.kept y fun hc => hy.1 (Covers.singleton.1 hc)
  marks p hp := h.marks p (h'.marks p hp)
  unmarked p y hp hy hne := by
    by_cases hc : t <+: y
    · have hm := h.unmarked p y hp (Covers.singleton.2 hc) hne
      by_contra hm'
      rw [h'.marks p ((Bool.not_eq_false _).mp hm')] at hm
      cases hm
    · refine h'.unmarked p y hp ((Covers.cons.1 hy).resolve_left hc) ?_
      rwa [h.kept y fun hc' => hc (Covers.singleton.1 hc')]

/-- What is left hangs together if it did before. -/
theorem sound {tops : List (List Name)} {s s' : Engine σ} (h : Shrunk L tops s s')
    (hh : ∀ y n, ¬ Covers tops (y ++ [n]) → s.forest (y ++ [n]) ≠ none → s.forest.Carries y n)
    (hc : ∀ y d, s.forest y = some d → d.Current) : s'.forest.Sound where
  hangs y n hne := by
    have hn : ¬ Covers tops (y ++ [n]) := fun hc => hne (h.gone _ hc)
    have hy : ¬ Covers tops y := fun hc => hn (hc.trans (List.prefix_append y [n]))
    rw [h.kept _ hn] at hne
    exact (hh y n hn hne).congr (h.kept y hy).symm
  current y d hd := by
    by_cases hy : Covers tops y
    · rw [h.gone y hy] at hd
      cases hd
    · exact hc y d ((h.kept y hy).symm.trans hd)

end Shrunk

namespace Retired

theorem nil {s : Engine σ} (h : L.Fits s.registry) : Retired L [] s s [] where
  toShrunk := .nil h
  reports := .nil rfl
  deletes := by simp
  plays M _ := ⟨M, .nil M, fun y hy => absurd hy (Covers.not_nil y), fun _ _ => rfl⟩

/-- A place that is not registered needs no retiring, but its mark may go. -/
theorem skip {s s' : Engine σ} {t : List Name} {tops : List (List Name)} {es : List Event}
    {p : Path} (ht : ∀ y, t <+: y → s.forest y = none)
    (h : Retired L tops (s.unmark p) s' es) : Retired L (t :: tops) s s' es where
  fits := h.fits
  reports := h.reports
  gone y hy := by
    by_cases hc : Covers tops y
    · exact h.gone y hc
    · rw [h.kept y hc]
      exact ht y ((Covers.cons.1 hy).resolve_right hc)
  kept y hy := h.kept y fun hc => hy (Covers.cons.2 (.inr hc))
  marks q hq := by
    have hm := h.marks q hq
    rw [unmark, OrderedMap.contains_erase, Bool.and_eq_true] at hm
    exact hm.2
  unmarked q y hq hy hne := by
    refine h.unmarked q y hq ((Covers.cons.1 hy).resolve_left ?_) hne
    exact fun hty => hne (ht y hty)
  deletes e he := by
    obtain ⟨y, n, f, rfl, hc⟩ := h.deletes e he
    exact ⟨y, n, f, rfl, Covers.cons.2 (.inr hc)⟩
  plays M hM := by
    obtain ⟨M', hplays, hin, hout⟩ := h.plays M fun y hy => hM y (Covers.cons.2 (.inr hy))
    refine ⟨M', hplays, ?_, fun y hy => hout y fun hc => hy (Covers.cons.2 (.inr hc))⟩
    intro y hy
    by_cases hc : Covers tops y
    · exact hin y hc
    · rw [hout y hc, hM y hy]
      exact Forest.known_none (ht y ((Covers.cons.1 hy).resolve_right hc))

end Retired

/-- What is registered below a directory and is not the directory is below one of its
subdirectories. -/
theorem covers_subdirectories {F : Forest} {t y : List Name} {d : TrackedDirectory Name}
    (hh : F.Hangs (t <+: ·)) (hd : F t = some d) (hy : t <+: y) (hne : y ≠ t)
    (hr : F y ≠ none) : Covers (d.subdirectories.reverse.map fun n => t ++ [n]) y := by
  obtain ⟨n, hn⟩ := (Covers.below_cases hy).resolve_left hne
  have hc : F (t ++ [n]) ≠ none := by
    intro he
    refine hr (Forest.none_below ?_ he hn)
    exact fun z m hz => hh z m (Covers.of_child hz)
  obtain ⟨d', i, hd', hi⟩ := hh t n List.prefix_rfl hc
  obtain rfl : d = d' := Option.some.inj (hd.symm.trans hd')
  refine ⟨t ++ [n], List.mem_map.2 ⟨n, ?_, rfl⟩, hn⟩
  exact List.mem_reverse.2 (TrackedDirectory.mem_subdirectories.2 ⟨i, hi⟩)

section Round

variable {s s₁ s₂ : Engine σ} {t : List Name} {tops : List (List Name)}
  {d : TrackedDirectory Name} {es : List Event} {p : Path}

/-- What stays below a dropped directory without being retired was never registered. -/
theorem bare_of_round (hh : s.forest.Hangs (t <+: ·)) (hd : s.forest t = some d)
    (hf : s₁.forest = Function.update s.forest t none) {y : List Name}
    (hy : Covers (t :: tops) y)
    (hc : ¬ Covers (d.subdirectories.reverse.map (fun n => t ++ [n]) ++ tops) y) :
    s₁.forest y = none := by
  rw [Covers.append, not_or] at hc
  have hty := (Covers.cons.1 hy).resolve_right hc.2
  rw [hf]
  by_cases he : y = t
  · rw [he, Function.update_self]
  · rw [Function.update_of_ne he]
    by_contra hne
    exact hc.1 (covers_subdirectories hh hd hty he hne)

/-- A listener that knows the entries of a directory is told that they are deleted. -/
theorem plays_drop (d : TrackedDirectory Name) {M : Mirror}
    (hM : M t = fun n => (d.items.get? n).map (·.known)) :
    ∃ M', Mirror.Plays M (d.items.entries.map fun e => .deleted t e.1 e.2.isDirectory) M' ∧
      (M' t = fun _ => none) ∧ ∀ y, y ≠ t → M' y = M y := by
  obtain ⟨M', hp, hin, hout, hf⟩ :=
    Mirror.plays_deleted (y := t) (M := M) d.items.nodup_keys (by
      intro e he
      rw [hM]
      dsimp only
      rw [OrderedMap.mem_entries_iff.1 he, Option.map_some])
  refine ⟨M', hp, ?_, hf⟩
  funext n
  by_cases hn : n ∈ d.items.entries.map (·.1)
  · obtain ⟨e, he, rfl⟩ := List.mem_map.1 hn
    exact hin e he
  · rw [hout n hn, hM]
    cases hg : d.items.get? n with
    | none => simp [hg]
    | some i => exact absurd (List.mem_map.2 ⟨_, OrderedMap.mem_entries_iff.2 hg, rfl⟩) hn

/-- A round drops a directory and puts its subdirectories in its place. -/
theorem Retired.round (hp : Path.At root p t) (ha : (t :: tops).Pairwise Apart)
    (hh : s.forest.Hangs (t <+: ·)) (hd : s.forest t = some d)
    (hr : s.registry.Reports s₁.registry
      (d.items.entries.map fun e => .deleted t e.1 e.2.isDirectory))
    (hf : s₁.forest = Function.update s.forest t none) (hs : s₁.stale = s.stale.erase p)
    (h : Retired L (d.subdirectories.reverse.map (fun n => t ++ [n]) ++ tops) s₁ s₂ es) :
    Retired L (t :: tops) s s₂
      ((d.items.entries.map fun e => .deleted t e.1 e.2.isDirectory) ++ es) := by
  set under := d.subdirectories.reverse.map (fun n => t ++ [n]) ++ tops with hunder
  have hsub : ∀ y, Covers under y → Covers (t :: tops) y ∧ y ≠ t :=
    fun y hy => Apart.covers_of_replace ha hy
  have hold : ∀ y, y ≠ t → s₁.forest y = s.forest y := by
    intro y hy
    rw [hf, Function.update_of_ne hy]
  have hbare : ∀ y, Covers (t :: tops) y → ¬ Covers under y → s₁.forest y = none :=
    fun y => bare_of_round hh hd hf
  have hself : Covers (t :: tops) t := Covers.cons.2 (.inl List.prefix_rfl)
  have hout : ∀ y, ¬ Covers (t :: tops) y → ¬ Covers under y ∧ y ≠ t := by
    intro y hy
    refine ⟨fun hc => hy (hsub y hc).1, ?_⟩
    rintro rfl
    exact hy hself
  have hmark : ∀ q, s₂.stale.contains q = true → compare q p ≠ .eq ∧ s.stale.contains q = true := by
    intro q hq
    have hm := h.marks q hq
    rw [hs, OrderedMap.contains_erase, Bool.and_eq_true, bne_iff_ne] at hm
    exact hm
  refine { fits := h.fits, reports := hr.append h.reports, gone := ?gone, kept := ?kept,
           marks := fun q hq => (hmark q hq).2, unmarked := ?unmarked, deletes := ?deletes,
           plays := ?plays }
  case gone =>
    intro y hy
    by_cases hc : Covers under y
    · exact h.gone y hc
    · rw [h.kept y hc]
      exact hbare y hy hc
  case kept =>
    intro y hy
    rw [h.kept y (hout y hy).1, hold y (hout y hy).2]
  case unmarked =>
    intro q y hq hy hreg
    by_cases hc : Covers under y
    · exact h.unmarked q y hq hc (by rwa [hold y (hsub y hc).2])
    · by_contra hm
      rw [Bool.not_eq_false] at hm
      refine hreg ((hold y ?_).symm.trans (hbare y hy hc))
      rintro rfl
      exact (hmark q hm).1 (hq.compare_eq hp)
  case deletes =>
    intro e he
    rcases List.mem_append.1 he with he | he
    · obtain ⟨a, -, rfl⟩ := List.mem_map.1 he
      exact ⟨t, _, _, rfl, hself⟩
    · obtain ⟨y, n, f, rfl, hc⟩ := h.deletes e he
      exact ⟨y, n, f, rfl, (hsub y hc).1⟩
  case plays =>
    intro M hM
    obtain ⟨M₁, hp₁, ht₁, hf₁⟩ := plays_drop (t := t) (M := M) d (by
      rw [hM t hself]
      funext n
      rw [Forest.known, hd, Option.bind_some])
    obtain ⟨M₂, hp₂, hi₂, ho₂⟩ := h.plays M₁ (by
      intro y hy
      obtain ⟨hc, hne⟩ := hsub y hy
      rw [hf₁ y hne, Forest.known_congr (hold y hne)]
      exact hM y hc)
    refine ⟨M₂, hp₁.append hp₂, ?_, ?_⟩
    · intro y hy
      by_cases hc : Covers under y
      · exact hi₂ y hc
      rw [ho₂ y hc]
      by_cases he : y = t
      · rw [he, ht₁]
      · rw [hf₁ y he, hM y hy, ← Forest.known_congr (hold y he)]
        exact Forest.known_none (hbare y hy hc)
    · intro y hy
      rw [ho₂ y (hout y hy).1, hf₁ y (hout y hy).2]

end Round

/-- Retiring the directories of a stack, none below another one. -/
theorem retired_retireAll {stack : List Path} {s : Engine σ} (h : L.Fits s.registry)
    {tops : List (List Name)} (hs : List.Forall₂ L.Names stack tops)
    (ha : tops.Pairwise Apart) (hh : ∀ t ∈ tops, s.forest.Hangs (t <+: ·)) :
    ∃ es, Retired L tops s (retireAll host stack s) es := by
  induction stack, s using retireAll.induct host generalizing tops with
  | case1 s =>
      obtain rfl := List.forall₂_nil_left_iff.1 hs
      rw [retireAll_nil]
      exact ⟨[], .nil h⟩
  | case2 dir rest s hd ih =>
      obtain ⟨t, tops, ht, hrest, rfl⟩ := List.forall₂_cons_left_iff.1 hs
      have hn : s.forest t = none := (h.get?_eq ht.1).symm.trans hd
      obtain ⟨es, hes⟩ := ih h hrest (List.pairwise_cons.1 ha).2
        fun u hu => hh u (List.mem_cons_of_mem t hu)
      rw [retireAll_skip hd]
      exact ⟨es, .skip (fun y hy => Forest.none_below (hh t List.mem_cons_self) hn hy) hes⟩
  | case3 dir rest s d hd ih =>
      obtain ⟨t, tops, ht, hrest, rfl⟩ := List.forall₂_cons_left_iff.1 hs
      have hn : s.forest t = some d := (h.get?_eq ht.1).symm.trans hd
      obtain ⟨hfit, hforest, hchanges, hstale⟩ := cancel_spec h ht hd
      have htold := told_emitItems hfit ht.1 .deleted
        (fun e => .deleted t e.1 e.2.isDirectory) (fun _ => rfl) d.items.entries
      have hf := htold.forest.trans hforest
      have hsub : List.Forall₂ L.Names ((d.subdirectories.map dir.child).reverse ++ rest)
          (d.subdirectories.reverse.map (fun n => t ++ [n]) ++ tops) := by
        rw [← List.map_reverse]
        refine List.rel_append ?_ hrest
        exact List.forall₂_map_left_iff.2 (List.forall₂_map_right_iff.2
          (List.forall₂_same.2 fun n _ => ht.child n))
      obtain ⟨es, hes⟩ := ih htold.fits hsub
        (Apart.replace (List.nodup_reverse.2 d.nodup_subdirectories) ha) (by
          -- a place below a subdirectory, or apart, is not the directory that was dropped
          intro u hu y n hy hne
          have hc := Apart.covers_of_replace ha ⟨u, hu, hy⟩
          have hc' := Apart.covers_of_replace ha ⟨u, hu, hy.trans (List.prefix_append y [n])⟩
          rw [hf, Function.update_of_ne hc'.2] at hne
          obtain ⟨v, hv, hvy⟩ := hc.1
          refine (hh v hv y n hvy hne).congr ?_
          rw [hf, Function.update_of_ne hc.2])
      have hr : s.registry.Reports
          ((s.cancel host dir).emitItems .deleted dir d.items.entries).registry
          (d.items.entries.map fun e => .deleted t e.1 e.2.isDirectory) :=
        (Registry.Reports.nil hchanges).append htold.reports
      rw [retireAll_cons hd]
      exact ⟨_, .round ht.1 ha (hh t List.mem_cons_self) hn hr hf
        (htold.stale.trans hstale) hes⟩

/-- Retiring one directory. -/
theorem retired_retire {s : Engine σ} (h : L.Fits s.registry) {p : Path} {y : List Name}
    (hp : L.Names p y) (hh : s.forest.Hangs (y <+: ·)) :
    ∃ es, Retired L [y] s (s.retire host p) es := by
  refine retired_retireAll h (.cons hp .nil) (List.pairwise_singleton _ y) ?_
  rintro t ht
  rwa [List.mem_singleton.1 ht]

end DirWatch.Engine
