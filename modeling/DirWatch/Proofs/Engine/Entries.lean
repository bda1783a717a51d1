import DirWatch.Engine.Pass
import DirWatch.Proofs.Engine.Adopt
import DirWatch.Proofs.Engine.Retire

/-! # Reporting the entries of one directory

A pass goes through the entries that a listing takes away, adds and changes. Each is reported, and
the directories among them are retired or adopted on the way. -/

namespace DirWatch.Engine

variable {σ : Type} {host : Host σ} {root : Path} {filter : Filter} {L : HostLaws host root filter}

/-- The places of the directories among some entries. -/
def kids (y : List Name) (l : List (NamedEntry Name)) : List (List Name) :=
  ((l.filter (·.isDirectory)).map (·.name)).map fun n => y ++ [n]

section Kids

variable {y z : List Name} {a : NamedEntry Name} {l : List (NamedEntry Name)}

theorem kids_cons_directory (ha : a.isDirectory = true) :
    kids y (a :: l) = (y ++ [a.name]) :: kids y l := by
  simp [kids, ha]

theorem kids_cons_file (ha : a.isDirectory = false) : kids y (a :: l) = kids y l := by
  simp [kids, ha]

theorem pairwise_kids (hl : (l.map (·.name)).Nodup) : (kids y l).Pairwise Apart :=
  Apart.pairwise_children (hl.sublist (List.filter_sublist.map _))

theorem covers_kids (h : Covers (kids y l) z) : y <+: z ∧ z ≠ y := Apart.covers_of_children h

theorem prefix_kids : ∀ t ∈ kids y l, y <+: t := by
  intro t ht
  obtain ⟨n, -, rfl⟩ := List.mem_map.1 ht
  exact List.prefix_append y [n]

theorem not_covers_kids : ¬ Covers (kids y l) y := fun h => (covers_kids h).2 rfl

theorem mem_kids {n : Name} : y ++ [n] ∈ kids y l ↔ ⟨n, true⟩ ∈ l := by
  simp only [kids, List.mem_map, List.mem_filter, List.append_cancel_left_eq, List.cons.injEq,
    and_true, exists_eq_right]
  constructor
  · rintro ⟨⟨m, f⟩, ⟨hm, hf⟩, rfl⟩
    rwa [← show f = true from hf]
  · exact fun h => ⟨_, ⟨h, rfl⟩, rfl⟩

end Kids

/-- A listener knows what is registered, one directory aside. -/
def Follows (M : Mirror) (s : Engine σ) (y : List Name) : Prop :=
  ∀ z, z ≠ y → M z = s.forest.known z

/-! ## Deleted entries -/

/-- The entries of a directory were reported as deleted, and the directories among them retired. -/
structure Cleared (L : HostLaws host root filter) (y : List Name) (l : List (NamedEntry Name))
    (s s' : Engine σ) (es : List Event) : Prop extends Shrunk L (kids y l) s s' where
  reports : s.registry.Reports s'.registry es
  deletes : ∀ e ∈ es, ∃ z n f, e = .deleted z n f ∧ ((z = y ∧ ⟨n, f⟩ ∈ l) ∨ Covers (kids y l) z)
  plays : ∀ M : Mirror, Follows M s y →
    (∀ a ∈ l, (M y a.name).map (·.isDirectory) = some a.isDirectory) →
    ∃ M', Mirror.Plays M es M' ∧ Follows M' s' y ∧
      ∀ n, M' y n = if n ∈ l.map (·.name) then none else M y n

namespace Cleared

variable {y : List Name} {a : NamedEntry Name} {l : List (NamedEntry Name)}
  {s s₁ s₂ s₃ : Engine σ} {es fs : List Event}

theorem nil (h : L.Fits s.registry) : Cleared L y [] s s [] where
  toShrunk := .nil h
  reports := .nil rfl
  deletes := by simp
  plays M hM _ := ⟨M, .nil M, hM, by simp⟩

/-- The entry itself is deleted first. -/
theorem plays_head {M : Mirror} (hM : Follows M s y)
    (hk : (M y a.name).map (·.isDirectory) = some a.isDirectory) :
    Mirror.Step M (.deleted y a.name a.isDirectory) (M.set y a.name none) ∧
      Follows (M.set y a.name none) s y := by
  obtain ⟨k, hk, he⟩ := Option.map_eq_some_iff.1 hk
  refine ⟨he ▸ .deleted hk, ?_⟩
  intro z hz
  rw [Mirror.set_other _ _ _ hz, hM z hz]

theorem rest_known {M N : Mirror} (hl : ((a :: l).map (·.name)).Nodup)
    (hN : N y = M.set y a.name none y)
    (hk : ∀ b ∈ a :: l, (M y b.name).map (·.isDirectory) = some b.isDirectory) :
    ∀ b ∈ l, (N y b.name).map (·.isDirectory) = some b.isDirectory := by
  intro b hb
  rw [hN, Mirror.set_entry]
  · exact hk b (List.mem_cons_of_mem a hb)
  · intro he
    exact (List.nodup_cons.1 hl).1 (List.mem_map.2 ⟨b, hb, he⟩)

theorem row_cons {M N M' : Mirror} (hN : N y = M.set y a.name none y)
    (hM' : ∀ n, M' y n = if n ∈ l.map (·.name) then none else N y n) (n : Name) :
    M' y n = if n ∈ (a :: l).map (·.name) then none else M y n := by
  rw [hM' n, hN]
  by_cases hn : n = a.name
  · simp [hn]
  · simp [hn, Mirror.set_entry]

/-- A file comes first. -/
theorem cons_file (ha : a.isDirectory = false) (hl : ((a :: l).map (·.name)).Nodup)
    (ht : Told L s s₁ [.deleted y a.name a.isDirectory]) (h : Cleared L y l s₁ s₂ es) :
    Cleared L y (a :: l) s s₂ (.deleted y a.name a.isDirectory :: es) where
  toShrunk := by
    rw [kids_cons_file ha]
    exact .of_told ht h.toShrunk
  reports := ht.reports.append h.reports
  deletes e he := by
    rcases List.mem_cons.1 he with rfl | he
    · exact ⟨y, _, _, rfl, .inl ⟨rfl, List.mem_cons_self⟩⟩
    · obtain ⟨z, n, f, rfl, ⟨rfl, hm⟩ | hc⟩ := h.deletes e he
      · exact ⟨z, n, f, rfl, .inl ⟨rfl, List.mem_cons_of_mem a hm⟩⟩
      · exact ⟨z, n, f, rfl, .inr (by rwa [kids_cons_file ha])⟩
  plays M hM hk := by
    obtain ⟨hstep, hf⟩ := plays_head hM (hk a List.mem_cons_self)
    obtain ⟨M', hp, hfol, hrow⟩ := h.plays _
      (by rwa [Follows, ht.forest]) (rest_known hl rfl hk)
    exact ⟨M', .cons hstep hp, hfol, row_cons rfl hrow⟩

/-- A directory comes first and is retired. -/
theorem cons_directory (ha : a.isDirectory = true) (hl : ((a :: l).map (·.name)).Nodup)
    (ht : Told L s s₁ [.deleted y a.name a.isDirectory])
    (hr : Retired L [y ++ [a.name]] s₁ s₂ es) (h : Cleared L y l s₂ s₃ fs) :
    Cleared L y (a :: l) s s₃ (.deleted y a.name a.isDirectory :: es ++ fs) where
  toShrunk := by
    rw [kids_cons_directory ha]
    exact .append (.of_told ht hr.toShrunk) h.toShrunk
  reports := (ht.reports.append hr.reports).append h.reports
  deletes e he := by
    rw [kids_cons_directory ha]
    rcases List.mem_append.1 he with he | he
    · rcases List.mem_cons.1 he with rfl | he
      · exact ⟨y, _, _, rfl, .inl ⟨rfl, List.mem_cons_self⟩⟩
      · obtain ⟨z, n, f, rfl, hc⟩ := hr.deletes e he
        exact ⟨z, n, f, rfl, .inr (Covers.cons.2 (.inl (Covers.singleton.1 hc)))⟩
    · obtain ⟨z, n, f, rfl, ⟨rfl, hm⟩ | hc⟩ := h.deletes e he
      · exact ⟨z, n, f, rfl, .inl ⟨rfl, List.mem_cons_of_mem a hm⟩⟩
      · exact ⟨z, n, f, rfl, .inr (Covers.cons.2 (.inr hc))⟩
  plays M hM hk := by
    have hne : ∀ z, y ++ [a.name] <+: z → z ≠ y := by
      rintro z hz rfl
      exact Covers.not_prefix_child hz
    obtain ⟨hstep, hf⟩ := plays_head hM (hk a List.mem_cons_self)
    obtain ⟨M₂, hp₂, hin, hout⟩ := hr.plays (M.set y a.name none) (by
      intro z hz
      rw [hf z (hne z (Covers.singleton.1 hz)), ht.forest])
    have hrow : M₂ y = M.set y a.name none y :=
      hout y fun hc => hne y (Covers.singleton.1 hc) rfl
    obtain ⟨M₃, hp₃, hfol, hrow₃⟩ := h.plays M₂
      (by
        intro z hz
        by_cases hc : Covers [y ++ [a.name]] z
        · rw [hin z hc, Forest.known_none (hr.gone z hc)]
        · rw [hout z hc, hf z hz, ← ht.forest]
          exact Forest.known_congr (hr.kept z hc).symm)
      (rest_known hl hrow hk)
    exact ⟨M₃, (Mirror.Plays.cons hstep hp₂).append hp₃, hfol, row_cons hrow hrow₃⟩

end Cleared

/-- Reporting the deleted entries of a directory. -/
theorem cleared_reportDeleted {p : Path} {y : List Name} (hp : L.Names p y)
    {l : List (NamedEntry Name)} (hl : (l.map (·.name)).Nodup) {s : Engine σ}
    (h : L.Fits s.registry) (hh : ∀ t ∈ kids y l, s.forest.Hangs (t <+: ·)) :
    ∃ es, Cleared L y l s (reportDeleted host p l s) es := by
  induction l generalizing s with
  | nil => exact ⟨[], .nil h⟩
  | cons a l ih =>
      have hl' := (List.nodup_cons.1 hl).2
      have ht : Told L s (s.emit .deleted (p.child a.name) a.isDirectory)
          [.deleted y a.name a.isDirectory] := told_emit h (hp.child a.name).1 rfl
      have hcons : reportDeleted host p (a :: l) s = reportDeleted host p l
          (if a.isDirectory then
            (s.emit .deleted (p.child a.name) a.isDirectory).retire host (p.child a.name)
          else s.emit .deleted (p.child a.name) a.isDirectory) := rfl
      rw [hcons]
      by_cases ha : a.isDirectory = true
      · rw [if_pos ha]
        have hpair := pairwise_kids (y := y) hl
        rw [kids_cons_directory ha] at hh hpair
        obtain ⟨es, hr⟩ := retired_retire ht.fits (hp.child a.name) (by
          rw [ht.forest]
          exact hh _ List.mem_cons_self)
        obtain ⟨fs, hc⟩ := ih hl' hr.fits (by
          -- the places of the other directories are apart from the one that was retired
          intro u hu z n hz hne
          have hnot : ∀ x, u <+: x → ¬ Covers [y ++ [a.name]] x := by
            intro x hx hc
            exact Apart.not_covers hpair (Covers.singleton.1 hc) ⟨u, hu, hx⟩
          have hkept : ∀ x, u <+: x → _ := fun x hx =>
            (hr.kept x (hnot x hx)).trans (congrFun ht.forest x)
          rw [hkept _ (hz.trans (List.prefix_append z [n]))] at hne
          exact (hh u (List.mem_cons_of_mem _ hu) z n hz hne).congr (hkept z hz).symm)
        exact ⟨_, .cons_directory ha hl ht hr hc⟩
      · rw [if_neg ha]
        rw [Bool.not_eq_true] at ha
        rw [kids_cons_file ha] at hh
        obtain ⟨es, hc⟩ := ih hl' ht.fits (by rwa [ht.forest])
        exact ⟨_, .cons_file ha hl ht hc⟩

/-! ## Created entries -/

/-- The entries of a directory were reported as created, as a listing shows them, and the
directories among them adopted. -/
structure Grown (L : HostLaws host root filter) (y : List Name) (ls : Listing Name)
    (l : List (NamedEntry Name)) (s : Engine σ) (r : Except Error Unit × Engine σ)
    (es : List Event) : Prop extends Spread L (kids y l) s r where
  reports : s.registry.Reports r.2.registry es
  grounded : ∀ e ∈ es, L.Grounded e
  plays : ∀ M : Mirror, Follows M s y → (∀ a ∈ l, M y a.name = none) →
    (∀ z m, y = z ++ [m] → M z m = some .directory) →
    ∃ M', Mirror.Plays M es M' ∧ (r.1 = .ok () → Follows M' r.2 y ∧
      ∀ n, M' y n = if n ∈ l.map (·.name) then (ls.entries.get? n).map (·.known) else M y n)

namespace Grown

variable {y : List Name} {ls : Listing Name} {a : NamedEntry Name} {i : ListedEntry}
  {l : List (NamedEntry Name)} {s s₁ s₂ s₃ : Engine σ} {r : Except Error Unit × Engine σ}
  {result result' : Except Error Unit} {es fs : List Event}

theorem nil (h : L.Fits s.registry) : Grown L y ls [] s (.ok (), s) [] where
  toSpread := .nil h
  reports := .nil rfl
  grounded := by simp
  plays M hM _ _ := ⟨M, .nil M, fun _ => ⟨hM, by simp⟩⟩

/-- After a failure nothing more happens. -/
theorem stop {e : Error} (h : L.Fits s.registry)
    (hn : ∀ z, Covers (kids y l) z → s.forest z = none)
    (he : e.isFatal = true ∧ ∃ z, L.watches z (.error e)) :
    Grown L y ls l s (.error e, s) [] where
  toSpread := by
    refine .idle h hn (by simp) ?_
    rintro e' ⟨⟩
    exact he
  reports := .nil rfl
  grounded := by simp
  plays M _ _ _ := ⟨M, .nil M, by simp⟩

/-- The entry itself is created first. -/
theorem plays_head {M : Mirror} {k : Known} (hM : Follows M s y) (hk : M y a.name = none)
    (hp : ∀ z m, y = z ++ [m] → M z m = some .directory) :
    Mirror.Step M (.created y a.name k) (M.set y a.name (some k)) ∧
      Follows (M.set y a.name (some k)) s y ∧
      ∀ z m, y = z ++ [m] → M.set y a.name (some k) z m = some .directory := by
  refine ⟨.created hk hp, ?_, ?_⟩
  · intro z hz
    rw [Mirror.set_other _ _ _ hz, hM z hz]
  · intro z m he
    rw [Mirror.set_other _ _ _ (Mirror.ne_of_eq_concat he), hp z m he]

theorem rest_unknown {M N : Mirror} {k : Option Known} (hl : ((a :: l).map (·.name)).Nodup)
    (hN : N y = M.set y a.name k y) (hk : ∀ b ∈ a :: l, M y b.name = none) :
    ∀ b ∈ l, N y b.name = none := by
  intro b hb
  rw [hN, Mirror.set_entry]
  · exact hk b (List.mem_cons_of_mem a hb)
  · intro he
    exact (List.nodup_cons.1 hl).1 (List.mem_map.2 ⟨b, hb, he⟩)

theorem row_cons {M N M' : Mirror} (hi : ls.entries.get? a.name = some i)
    (hN : N y = M.set y a.name (some i.known) y)
    (hM' : ∀ n, M' y n =
      if n ∈ l.map (·.name) then (ls.entries.get? n).map (·.known) else N y n) (n : Name) :
    M' y n =
      if n ∈ (a :: l).map (·.name) then (ls.entries.get? n).map (·.known) else M y n := by
  rw [hM' n, hN]
  by_cases hn : n = a.name
  · simp [hn, hi]
  · simp [hn, Mirror.set_entry]

/-- A file comes first. -/
theorem cons_file (ha : a.isDirectory = false) (hl : ((a :: l).map (·.name)).Nodup)
    (hi : ls.entries.get? a.name = some i) (hg : L.lists y (.ok ls))
    (ht : Told L s s₁ [.created y a.name i.known]) (h : Grown L y ls l s₁ r es) :
    Grown L y ls (a :: l) s r (.created y a.name i.known :: es) where
  toSpread := by
    rw [kids_cons_file ha]
    exact .of_told ht h.toSpread
  reports := ht.reports.append h.reports
  grounded := List.forall_mem_cons.2 ⟨⟨ls, i, hg, hi, rfl⟩, h.grounded⟩
  plays M hM hk hp := by
    obtain ⟨hstep, hf, hp'⟩ := plays_head (k := i.known) hM (hk a List.mem_cons_self) hp
    obtain ⟨M', hplays, hdone⟩ := h.plays _ (by rwa [Follows, ht.forest])
      (rest_unknown hl rfl hk) hp'
    refine ⟨M', .cons hstep hplays, ?_⟩
    intro hok
    obtain ⟨hfol, hrow⟩ := hdone hok
    exact ⟨hfol, row_cons hi rfl hrow⟩

/-- A directory comes first and is adopted. -/
theorem cons_directory (ha : a.isDirectory = true) (hl : ((a :: l).map (·.name)).Nodup)
    (hi : ls.entries.get? a.name = some i) (hd : i.isDirectory = true) (hg : L.lists y (.ok ls))
    (ht : Told L s s₁ [.created y a.name i.known])
    (hr : Adopted L [y ++ [a.name]] s₁ (result', s₂) es)
    (h : Grown L y ls l s₂ (result, s₃) fs) (hok : result = .ok () → result' = .ok ()) :
    Grown L y ls (a :: l) s (result, s₃) (.created y a.name i.known :: es ++ fs) where
  toSpread := by
    rw [kids_cons_directory ha]
    refine .append ?_ (.of_told ht hr.toSpread) h.toSpread hok
    rw [← kids_cons_directory ha]
    exact pairwise_kids hl
  reports := (ht.reports.append hr.reports).append h.reports
  grounded := by
    refine List.forall_mem_append.2 ⟨List.forall_mem_cons.2 ⟨?_, hr.grounded⟩, h.grounded⟩
    exact ⟨ls, i, hg, hi, rfl⟩
  plays M hM hk hp := by
    have hne : ∀ z, y ++ [a.name] <+: z → z ≠ y := by
      rintro z hz rfl
      exact Covers.not_prefix_child hz
    obtain ⟨hstep, hf, hp'⟩ := plays_head (k := i.known) hM (hk a List.mem_cons_self) hp
    obtain ⟨M₂, hp₂, hin, hout⟩ := hr.plays (M.set y a.name (some i.known))
      (by
        intro z hz
        rw [hf z (hne z (Covers.singleton.1 hz)), ← ht.forest, Forest.known_none (hr.bare z hz)])
      (by
        intro u hu z m he
        obtain ⟨rfl, rfl⟩ := List.append_singleton_inj.1 ((List.mem_singleton.1 hu).symm.trans he)
        rw [Mirror.set_self,
          ← Known.isDirectory_iff.1 ((ListedEntry.isDirectory_known i).trans hd)])
    have hnot : ∀ z, z = y ∨ (∃ m, y = z ++ [m]) → ¬ Covers [y ++ [a.name]] z := by
      intro z hz hc
      have hlen := (Covers.singleton.1 hc).length_le
      rcases hz with rfl | ⟨m, rfl⟩
      · exact hne z (Covers.singleton.1 hc) rfl
      · rw [List.length_append, List.length_append, List.length_singleton] at hlen
        omega
    have hrow : M₂ y = M.set y a.name (some i.known) y := hout y (hnot y (.inl rfl))
    obtain ⟨M₃, hp₃, hdone⟩ := h.plays M₂
      (by
        intro z hz
        by_cases hc : Covers [y ++ [a.name]] z
        · exact hin z hc
        · rw [hout z hc, hf z hz, ← ht.forest]
          exact Forest.known_congr (hr.kept z hc).symm)
      (rest_unknown hl hrow hk)
      (by
        intro z m he
        rw [hout z (hnot z (.inr ⟨m, he⟩)), hp' z m he])
    refine ⟨M₃, (Mirror.Plays.cons hstep hp₂).append hp₃, ?_⟩
    intro hok'
    obtain ⟨hfol, hrow₃⟩ := hdone hok'
    exact ⟨hfol, row_cons hi hrow hrow₃⟩

end Grown

/-- Reporting the created entries of a directory. -/
theorem grown_reportCreated {p : Path} {y : List Name} (hp : L.Names p y) {ls : Listing Name}
    (hg : L.lists y (.ok ls)) {l : List (NamedEntry Name)} (hl : (l.map (·.name)).Nodup)
    (hls : ∀ a ∈ l, (ls.entries.get? a.name).map (·.isDirectory) = some a.isDirectory)
    {s : Engine σ} (h : L.Fits s.registry)
    (hn : ∀ z, Covers (kids y l) z → s.forest z = none) :
    ∃ es, Grown L y ls l s (reportCreated host p l s) es := by
  induction l generalizing s with
  | nil => exact ⟨[], .nil h⟩
  | cons a l ih =>
      have hl' := (List.nodup_cons.1 hl).2
      have hls' := fun b hb => hls b (List.mem_cons_of_mem a hb)
      obtain ⟨i, hi, hd⟩ := Option.map_eq_some_iff.1 (hls a List.mem_cons_self)
      have ht : Told L s (s.emit .created (p.child a.name) a.isDirectory)
          [.created y a.name i.known] :=
        told_emit h (hp.child a.name).1 (by rw [Event.view, ListedEntry.isDirectory_known, hd])
      rw [reportCreated, inTurn]
      by_cases ha : a.isDirectory = true
      · have hpair := pairwise_kids (y := y) hl
        rw [kids_cons_directory ha] at hn hpair
        obtain ⟨es, hr⟩ := adopted_adopt ht.fits (hp.child a.name) (by
          intro z hz
          rw [ht.forest]
          exact hn z (Covers.cons.2 (.inl hz)))
        have hn' : ∀ z, Covers (kids y l) z →
            ((s.emit .created (p.child a.name) a.isDirectory).adopt host (p.child a.name)).2.forest
              z = none := by
          intro z hz
          rw [hr.kept z, ht.forest]
          · exact hn z (Covers.cons.2 (.inr hz))
          · exact fun hc => Apart.not_covers hpair (Covers.singleton.1 hc) hz
        rw [if_pos ha]
        rcases hs : (s.emit .created (p.child a.name) a.isDirectory).adopt host (p.child a.name)
          with ⟨e | _, s'⟩
        · rw [hs] at hr hn'
          exact ⟨_, .cons_directory ha hl hi (hd.trans ha) hg ht hr
            (.stop hr.fits hn' (hr.failure e rfl)) (by simp)⟩
        · rw [hs] at hr hn'
          obtain ⟨fs, hf⟩ := ih hl' hls' hr.fits hn'
          exact ⟨_, .cons_directory ha hl hi (hd.trans ha) hg ht hr hf fun _ => rfl⟩
      · rw [if_neg ha]
        rw [Bool.not_eq_true] at ha
        rw [kids_cons_file ha] at hn
        obtain ⟨es, hf⟩ := ih hl' hls' ht.fits (by rwa [ht.forest])
        exact ⟨_, .cons_file ha hl hi hg ht hf⟩

/-! ## All entries -/

section Rows

variable {d : TrackedDirectory Name} {ls : Listing Name} {n : Name}

theorem mem_names {l : List (NamedEntry Name)} :
    n ∈ l.map (·.name) ↔ ∃ f, (⟨n, f⟩ : NamedEntry Name) ∈ l := by
  rw [List.mem_map]
  constructor
  · rintro ⟨⟨m, f⟩, hm, rfl⟩
    exact ⟨f, hm⟩
  · rintro ⟨f, hf⟩
    exact ⟨_, hf, rfl⟩

/-- What is created was not known, or is deleted before. -/
theorem unknown_of_created (hd : d.Current) (h : n ∈ (d.reconcile ls).1.created.map (·.name)) :
    n ∈ (d.reconcile ls).1.deleted.map (·.name) ∨ d.items.get? n = none := by
  obtain ⟨f, hf⟩ := mem_names.1 h
  obtain ⟨hl, hn⟩ := TrackedDirectory.mem_created.1 hf
  cases hi : d.items.get? n with
  | none => exact .inr rfl
  | some i =>
      refine .inl (mem_names.2 ⟨i.isDirectory, (TrackedDirectory.mem_deleted hd).2 ⟨?_, ?_⟩⟩)
      · rw [hi, Option.map_some]
      · rw [hl]
        intro he
        rw [hi, Option.map_some] at hn
        exact hn he.symm

/-- What is updated is neither created nor deleted. -/
theorem only_updated (hd : d.Current) (h : n ∈ (d.reconcile ls).1.updated.map (·.name)) :
    n ∉ (d.reconcile ls).1.created.map (·.name) ∧
      n ∉ (d.reconcile ls).1.deleted.map (·.name) := by
  obtain ⟨f, hf⟩ := mem_names.1 h
  obtain ⟨-, i, e, hi, he, hif, hef, -⟩ := TrackedDirectory.mem_updated.1 hf
  constructor
  · intro hc
    obtain ⟨g, hg⟩ := mem_names.1 hc
    obtain ⟨hl, hn⟩ := TrackedDirectory.mem_created.1 hg
    simp_all
  · intro hc
    obtain ⟨g, hg⟩ := mem_names.1 hc
    obtain ⟨hl, hn⟩ := (TrackedDirectory.mem_deleted hd).1 hg
    simp_all

/-- What is neither created, updated nor deleted is known as the listing shows it, and what is only
deleted is not shown. -/
theorem row_reconcile (hd : d.Current) (ls : Listing Name) (n : Name) :
    (if n ∈ (d.reconcile ls).1.updated.map (·.name) then (ls.entries.get? n).map (·.known)
      else if n ∈ (d.reconcile ls).1.created.map (·.name) then (ls.entries.get? n).map (·.known)
      else if n ∈ (d.reconcile ls).1.deleted.map (·.name) then none
      else (d.items.get? n).map (·.known)) = (ls.entries.get? n).map (·.known) := by
  split
  · rfl
  split
  · rfl
  next hu hc =>
  simp only [mem_names, not_exists, TrackedDirectory.mem_created, TrackedDirectory.mem_updated,
    TrackedDirectory.mem_deleted hd] at hu hc ⊢
  cases he : ls.entries.get? n with
  | none =>
      cases hi : d.items.get? n with
      | none => simp
      | some i => simp
  | some e =>
      -- a shown entry that is not created is tracked with its kind
      have hsame : (d.items.get? n).map (·.isDirectory) = some e.isDirectory := by
        by_contra hne
        exact hc e.isDirectory ⟨by rw [he, Option.map_some], hne⟩
      obtain ⟨i, hi, hk⟩ := Option.map_eq_some_iff.1 hsame
      rw [if_neg]
      · rw [hi, Option.map_some, Option.map_some, Option.some_inj, Item.known,
          ListedEntry.known, hk]
        split
        · rfl
        next hf =>
        by_contra hne
        rw [Bool.not_eq_true] at hf
        refine hu false ⟨rfl, i, e, hi, he, hk.trans hf, hf, ?_⟩
        exact fun hm => hne (by rw [hm])
      · rintro ⟨f, hf, hn⟩
        rw [hsame] at hf
        exact hn hf

end Rows

/-- A listener that knows the files of a directory is told of those with another time. -/
theorem plays_updated {M : Mirror} {y : List Name} (d : TrackedDirectory Name) (ls : Listing Name)
    (hM : ∀ n ∈ (d.reconcile ls).1.updated.map (·.name), M y n = (d.items.get? n).map (·.known)) :
    ∃ M', Mirror.Plays M ((d.reconcile ls).1.updated.map fun a =>
        .updated y a.name ((ls.entries.get? a.name).bind (·.modified))) M' ∧
      (∀ n, M' y n = if n ∈ (d.reconcile ls).1.updated.map (·.name)
        then (ls.entries.get? n).map (·.known) else M y n) ∧ ∀ z, z ≠ y → M' z = M z := by
  obtain ⟨M', hp, hin, hout, hf⟩ := Mirror.plays_each (M := M) (y := y) (·.name)
    (fun a : NamedEntry Name => .updated y a.name ((ls.entries.get? a.name).bind (·.modified)))
    (fun a => (ls.entries.get? a.name).map (·.known)) (d.nodup_updated ls) (by
      intro a ha N hN _
      obtain ⟨-, i, e, hi, he, hif, hef, hne⟩ := TrackedDirectory.mem_updated.1 ha
      rw [hM _ (List.mem_map.2 ⟨a, ha, rfl⟩), hi, Option.map_some, Item.known, hif,
        if_neg Bool.false_ne_true] at hN
      rw [he, Option.bind_some, Option.map_some, ListedEntry.known, hef,
        if_neg Bool.false_ne_true]
      exact .updated hN hne)
  refine ⟨M', hp, ?_, hf⟩
  intro n
  split
  · next hn =>
      obtain ⟨a, ha, rfl⟩ := List.mem_map.1 hn
      exact hin a ha
  · next hn => exact hout n hn

end DirWatch.Engine
