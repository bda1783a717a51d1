import DirWatch.Proofs.Engine.Drift

/-! # Taking a listing over

A listing is taken over in four stages: the entries that are gone, the new ones, the files with
another time, and the known subdirectories that are not registered. A listener that follows the
reports knows after each stage what has been reported of the directory. -/

namespace DirWatch.Engine

variable {σ : Type} {host : Host σ} {root : Path} {filter : Filter} {L : HostLaws host root filter}

/-- A listing has been taken over as `d'` for the directory `y`, and a listener that followed knows
`row` of it. -/
structure Stage (L : HostLaws host root filter) (y : List Name) (d' : TrackedDirectory Name)
    (s : Engine σ) (r : Except Error Unit × Engine σ) (es : List Event)
    (row : Name → Option Known) : Prop where
  valid : Valid L r.2
  drift : Drift L y s r
  here : r.2.forest y = some d'
  failure : ∀ e, r.1 = .error e → e.isFatal = true ∧ ∃ z, L.watches z (.error e)
  reports : s.registry.Reports r.2.registry es
  grounded : ∀ e ∈ es, L.Grounded e
  plays : ∃ M, Mirror.Plays s.forest.known es M ∧ (r.1 = .ok () → Follows M r.2 y ∧ M y = row)

namespace Stage

variable {y : List Name} {d' : TrackedDirectory Name} {s s₁ s₂ : Engine σ}
  {r : Except Error Unit × Engine σ} {es fs : List Event} {row : Name → Option Known}

/-- The directories above are known to a listener that followed. -/
theorem parent (h : Stage L y d' s (.ok (), s₁) es row) {M : Mirror} (hM : Follows M s₁ y)
    {z : List Name} {m : Name} (he : y = z ++ [m]) : M z m = some .directory := by
  rw [hM z (Mirror.ne_of_eq_concat he), Forest.known_eq_directory]
  refine h.valid.sound.hangs z m ?_
  rw [← he, h.here]
  simp

/-- Created entries come after the deleted ones. -/
theorem grown (h : Stage L y d' s (.ok (), s₁) es row) {ls : Listing Name}
    {l : List (NamedEntry Name)} (hg : Grown L y ls l s₁ r fs) (hk : ∀ a ∈ l, row a.name = none)
    (hc : ∀ n, ⟨n, true⟩ ∈ l → s₁.forest.Carries y n) :
    Stage L y d' s r (es ++ fs)
      fun n => if n ∈ l.map (·.name) then (ls.entries.get? n).map (·.known) else row n where
  valid := by
    refine hg.valid h.valid ?_
    rintro t ht z m rfl
    obtain ⟨n, -, he⟩ := List.mem_map.1 ht
    obtain ⟨rfl, rfl⟩ := List.append_singleton_inj.1 he
    exact hc n (mem_kids.1 ht)
  drift := h.drift.trans (.of_spread hg.toSpread prefix_kids h.valid)
  here := (hg.kept y not_covers_kids).trans h.here
  failure := hg.failure
  reports := h.reports.append hg.reports
  grounded := List.forall_mem_append.2 ⟨h.grounded, hg.grounded⟩
  plays := by
    obtain ⟨M, hp, hM⟩ := h.plays
    obtain ⟨hf, hrow⟩ := hM rfl
    obtain ⟨M', hp', hM'⟩ := hg.plays M hf (by rwa [hrow]) fun z m he => h.parent hf he
    refine ⟨M', hp.append hp', ?_⟩
    intro hok
    obtain ⟨hf', hrow'⟩ := hM' hok
    refine ⟨hf', ?_⟩
    funext n
    rw [hrow' n, hrow]

/-- Subdirectories that are known but not registered are adopted. -/
theorem adopted (h : Stage L y d' s (.ok (), s₁) es row) {tops : List (List Name)}
    (ha : Adopted L tops s₁ r fs)
    (ht : ∀ t ∈ tops, ∃ n, t = y ++ [n] ∧ s₁.forest.Carries y n ∧ row n = some .directory) :
    Stage L y d' s r (es ++ fs) row where
  valid := by
    refine ha.valid h.valid ?_
    rintro t htop z m rfl
    obtain ⟨n, he, hc, -⟩ := ht _ htop
    obtain ⟨rfl, rfl⟩ := List.append_singleton_inj.1 he
    exact hc
  drift := by
    refine h.drift.trans (.of_spread ha.toSpread ?_ h.valid)
    intro t htop
    obtain ⟨n, rfl, -⟩ := ht t htop
    exact List.prefix_append y [n]
  here := by
    rw [ha.kept y, h.here]
    rintro ⟨t, htop, hty⟩
    obtain ⟨n, rfl, -⟩ := ht t htop
    exact Covers.not_prefix_child hty
  failure := ha.failure
  reports := h.reports.append ha.reports
  grounded := List.forall_mem_append.2 ⟨h.grounded, ha.grounded⟩
  plays := by
    have hself : ¬ Covers tops y := by
      rintro ⟨t, htop, hty⟩
      obtain ⟨n, rfl, -⟩ := ht t htop
      exact Covers.not_prefix_child hty
    obtain ⟨M, hp, hM⟩ := h.plays
    obtain ⟨hf, hrow⟩ := hM rfl
    obtain ⟨M', hp', hin, hout⟩ := ha.plays M
      (by
        intro z hz
        rw [hf z fun he => hself (he ▸ hz), Forest.known_none (ha.bare z hz)])
      (by
        rintro t htop z m rfl
        obtain ⟨n, he, -, hn⟩ := ht _ htop
        obtain ⟨rfl, rfl⟩ := List.append_singleton_inj.1 he
        rw [hrow, hn])
    refine ⟨M', hp.append hp', fun _ => ⟨?_, (hout y hself).trans hrow⟩⟩
    intro z hz
    by_cases hc : Covers tops z
    · exact hin z hc
    · rw [hout z hc, hf z hz]
      exact Forest.known_congr (ha.kept z hc).symm

/-- Entries of the directory itself are reported. -/
theorem told (h : Stage L y d' s (.ok (), s₁) es row) (ht : Told L s₁ s₂ fs)
    (hg : ∀ e ∈ fs, L.Grounded e) {row' : Name → Option Known}
    (hp : ∀ M : Mirror, M y = row →
      ∃ M', Mirror.Plays M fs M' ∧ M' y = row' ∧ ∀ z, z ≠ y → M' z = M z) :
    Stage L y d' s (.ok (), s₂) (es ++ fs) row' where
  valid := ht.valid h.valid
  drift := h.drift.trans (.of_told ht)
  here := (congrFun ht.forest y).trans h.here
  failure := by simp
  reports := h.reports.append ht.reports
  grounded := List.forall_mem_append.2 ⟨h.grounded, hg⟩
  plays := by
    obtain ⟨M, hplays, hM⟩ := h.plays
    obtain ⟨hf, hrow⟩ := hM rfl
    obtain ⟨M', hplays', hrow', hout⟩ := hp M hrow
    refine ⟨M', hplays.append hplays', fun _ => ⟨?_, hrow'⟩⟩
    intro z hz
    rw [hout z hz, hf z hz, ht.forest]

end Stage

/-- A directory put into the registry. -/
def put (s : Engine σ) (p : Path) (d : TrackedDirectory Name) : Engine σ :=
  { s with registry := { s.registry with directories := s.registry.directories.insert p d } }

section Absorb

variable {p : Path} {y : List Name} {d : TrackedDirectory Name} {ls : Listing Name} {s : Engine σ}

/-- A subdirectory that is registered and not deleted is still shown. -/
theorem carries_reconcile (hs : s.forest.Sound) (hd : s.forest y = some d) {n : Name}
    (hn : s.forest (y ++ [n]) ≠ none) (hdel : ⟨n, true⟩ ∉ (d.reconcile ls).1.deleted) :
    ∃ i, (d.reconcile ls).2.items.get? n = some i ∧ i.isDirectory = true := by
  have hc := hs.current y d hd
  obtain ⟨d', i, hd', hi, hdir⟩ := hs.hangs y n hn
  obtain rfl : d = d' := Option.some.inj (hd.symm.trans hd')
  rw [TrackedDirectory.mem_deleted hc, hi, Option.map_some, hdir, not_and, not_not] at hdel
  obtain ⟨e, he, hdir'⟩ := Option.map_eq_some_iff.1 (hdel rfl)
  exact ⟨_, by rw [TrackedDirectory.get?_items_reconcile hc, he, Option.map_some], hdir'⟩

/-- The first stage: the entries that are gone are reported and retired. Nothing is registered. -/
theorem stage_deleted (hs : Valid L s) (hp : L.Names p y) (hd : s.forest y = some d)
    (hl : L.lists y (.ok ls)) :
    ∃ es, Stage L y (d.reconcile ls).2 s
      (.ok (), reportDeleted host p (d.reconcile ls).1.deleted (s.put p (d.reconcile ls).2)) es
      (fun n => if n ∈ (d.reconcile ls).1.deleted.map (·.name) then none
        else (d.items.get? n).map (·.known)) ∧
      ∀ z, s.forest z = none →
        (reportDeleted host p (d.reconcile ls).1.deleted (s.put p (d.reconcile ls).2)).forest z =
          none := by
  have hcur := hs.sound.current y d hd
  set d' := (d.reconcile ls).2 with hd'
  have hfit : L.Fits (s.put p d').registry := hs.fits.insert hp.1 d'
  have hforest : (s.put p d').forest = Function.update s.forest y (some d') :=
    hs.fits.forest_insert hp.1 d'
  have hhere : (s.put p d').forest y = some d' := by rw [hforest, Function.update_self]
  have hold : ∀ z, z ≠ y → (s.put p d').forest z = s.forest z := by
    intro z hz
    rw [hforest, Function.update_of_ne hz]
  have hreg : ∀ z, (s.put p d').forest z ≠ none ↔ s.forest z ≠ none := by
    intro z
    by_cases hz : z = y
    · rw [hz, hhere, hd]
      simp
    · rw [hold z hz]
  have hcarries : ∀ z n, z ≠ y → (s.put p d').forest (z ++ [n]) ≠ none →
      (s.put p d').forest.Carries z n := by
    intro z n hz hne
    exact (hs.sound.hangs z n ((hreg _).1 hne)).congr (hold z hz).symm
  obtain ⟨es, hc⟩ := cleared_reportDeleted hp (d.nodup_deleted ls) hfit (by
    intro t ht z n hz
    exact hcarries z n (covers_kids ⟨t, ht, hz⟩).2)
  have hvalid : Valid L (reportDeleted host p (d.reconcile ls).1.deleted (s.put p d')) := by
    refine hc.valid ?_ ?_ ?_
    · intro z n hn hne
      by_cases hz : z = y
      · subst hz
        rw [hreg] at hne
        obtain ⟨i, hi⟩ := carries_reconcile hs.sound hd hne
          fun hm => hn ⟨_, mem_kids.2 hm, List.prefix_rfl⟩
        exact ⟨d', i, hhere, hi⟩
      · exact hcarries z n hz hne
    · intro z e he
      by_cases hz : z = y
      · rw [hz, hhere] at he
        rw [← Option.some.inj he]
        exact d.current_reconcile ls
      · exact hs.sound.current z e (hold z hz ▸ he)
    · intro ht q hq
      obtain ⟨z, hz, hne⟩ := hs.at_marked ht hq
      exact ⟨z, hz, (hreg z).2 hne⟩
  have hdrift : Drift L y s (.ok (), s.put p d') :=
    .of_eq (fun _ hq => hq) hold fun hne => (hreg y).2 hne
  refine ⟨es, { valid := hvalid, drift := hdrift.trans (.of_shrunk hc.toShrunk prefix_kids ?_),
                here := (hc.kept y not_covers_kids).trans hhere, failure := by simp,
                reports := hc.reports, grounded := ?_, plays := ?_ }, ?_⟩
  · rintro t ht z n rfl
    obtain ⟨m, -, he⟩ := List.mem_map.1 ht
    exact .inl (List.append_singleton_inj.1 he).1.symm
  · intro e he
    obtain ⟨z, n, f, rfl, ⟨rfl, hm⟩ | ⟨t, ht, htz⟩⟩ := hc.deletes e he
    · exact .inl ⟨ls, hl, ((TrackedDirectory.mem_deleted hcur).1 hm).2⟩
    · obtain ⟨m, -, rfl⟩ := List.mem_map.1 ht
      have hm := (TrackedDirectory.mem_deleted hcur).1 (mem_kids.1 ht)
      exact .inr ⟨_, htz, .inr ⟨y, m, ls, rfl, hl, hm.2⟩⟩
  · have hrow : ∀ n, s.forest.known y n = (d.items.get? n).map (·.known) := by
      intro n
      rw [Forest.known, hd, Option.bind_some]
    obtain ⟨M, hplays, hf, hM⟩ := hc.plays s.forest.known
      (fun z hz => Forest.known_congr (hold z hz).symm)
      (by
        intro a ha
        rw [hrow, Option.map_map]
        simpa [Function.comp_def] using ((TrackedDirectory.mem_deleted hcur).1 ha).1)
    refine ⟨M, hplays, fun _ => ⟨hf, ?_⟩⟩
    funext n
    rw [hM n, hrow]
  · intro z hz
    by_contra hne
    have hc' : ¬ Covers (kids y (d.reconcile ls).1.deleted) z := fun hc' => hne (hc.gone z hc')
    rw [hc.kept z hc'] at hne
    exact (hreg z).1 hne hz

/-- Created entries were not known, or not with their kind. -/
theorem bare_of_created (hs : s.forest.Sound) (hd : s.forest y = some d) {n : Name}
    (hn : ⟨n, true⟩ ∈ (d.reconcile ls).1.created) {z : List Name} (hz : y ++ [n] <+: z) :
    s.forest z = none := by
  refine Forest.none_below (fun x m _ => hs.hangs x m) ?_ hz
  by_contra hne
  obtain ⟨d', i, hd', hi, hdir⟩ := hs.hangs y n hne
  obtain rfl : d = d' := Option.some.inj (hd.symm.trans hd')
  refine (TrackedDirectory.mem_created.1 hn).2 ?_
  rw [hi, Option.map_some, hdir]

/-- The directory was brought up to date with a listing. -/
def Renewed (L : HostLaws host root filter) (y : List Name) (s : Engine σ)
    (r : Except Error Unit × Engine σ) : Prop :=
  (∃ d l, s.forest y = some d ∧ L.lists y (.ok l) ∧ r.2.forest y = some (d.reconcile l).2) ∧
    (∀ q, Path.At root q y → r.2.stale.contains q = false) ∧ Whole L r y

/-- The second stage: the entries that are new are reported and adopted. -/
theorem stage_created (hp : L.Names p y) (hs : Valid L s) (hd : s.forest y = some d)
    (hl : L.lists y (.ok ls)) {s₁ : Engine σ} {es : List Event}
    (h : Stage L y (d.reconcile ls).2 s (.ok (), s₁) es
      fun n => if n ∈ (d.reconcile ls).1.deleted.map (·.name) then none
        else (d.items.get? n).map (·.known))
    (hnew : ∀ z, s.forest z = none → s₁.forest z = none) :
    ∃ fs, Stage L y (d.reconcile ls).2 s
      (reportCreated host p (d.reconcile ls).1.created s₁) fs
      fun n => if n ∈ (d.reconcile ls).1.created.map (·.name) then
          (ls.entries.get? n).map (·.known)
        else if n ∈ (d.reconcile ls).1.deleted.map (·.name) then none
        else (d.items.get? n).map (·.known) := by
  have hcur := hs.sound.current y d hd
  have hshown : ∀ a ∈ (d.reconcile ls).1.created,
      (ls.entries.get? a.name).map (·.isDirectory) = some a.isDirectory :=
    fun a ha => (TrackedDirectory.mem_created.1 ha).1
  obtain ⟨fs, hg⟩ := grown_reportCreated hp hl (d.nodup_created ls) hshown h.valid.fits (by
    rintro z ⟨t, ht, htz⟩
    obtain ⟨n, -, rfl⟩ := List.mem_map.1 ht
    exact hnew z (bare_of_created hs.sound hd (mem_kids.1 ht) htz))
  refine ⟨_, h.grown hg ?_ ?_⟩
  · intro a ha
    rcases unknown_of_created hcur (List.mem_map.2 ⟨a, ha, rfl⟩) with hn | hn
    · rw [if_pos hn]
    · rw [hn, Option.map_none, ite_self]
  · intro n hn
    obtain ⟨e, he, hdir⟩ := Option.map_eq_some_iff.1 (hshown _ hn)
    refine ⟨_, e.stamped (d.generation + 1), h.here, ?_, hdir⟩
    rw [TrackedDirectory.get?_items_reconcile hcur, he, Option.map_some]

/-- The third stage: the files with another time are reported. -/
theorem stage_updated (hp : L.Names p y) (hs : Valid L s) (hd : s.forest y = some d)
    (hl : L.lists y (.ok ls)) {s₂ : Engine σ} {es : List Event}
    (h : Stage L y (d.reconcile ls).2 s (.ok (), s₂) es
      fun n => if n ∈ (d.reconcile ls).1.created.map (·.name) then
          (ls.entries.get? n).map (·.known)
        else if n ∈ (d.reconcile ls).1.deleted.map (·.name) then none
        else (d.items.get? n).map (·.known)) :
    ∃ fs, Stage L y (d.reconcile ls).2 s
      (.ok (), reportUpdated p (d.reconcile ls).1.updated s₂) fs
      fun n => (ls.entries.get? n).map (·.known) := by
  have hcur := hs.sound.current y d hd
  refine ⟨_, h.told (told_reportUpdated h.valid.fits hp.1
    (fun a => .updated y a.name ((ls.entries.get? a.name).bind (·.modified))) ?_) ?_ ?_⟩
  · intro a ha
    rw [Event.view, (TrackedDirectory.mem_updated.1 ha).1]
  · intro e he
    obtain ⟨a, ha, rfl⟩ := List.mem_map.1 he
    obtain ⟨-, i, e, -, he, -, hdir, -⟩ := TrackedDirectory.mem_updated.1 ha
    refine ⟨ls, e, hl, he, ?_⟩
    rw [he, Option.bind_some, ListedEntry.known, hdir, if_neg Bool.false_ne_true]
  · intro M hM
    obtain ⟨M', hplays, hrow, hout⟩ := plays_updated (M := M) (y := y) d ls (by
      intro n hn
      obtain ⟨hc, hdel⟩ := only_updated hcur hn
      rw [hM]
      dsimp only
      rw [if_neg hc, if_neg hdel])
    refine ⟨M', hplays, ?_, hout⟩
    funext n
    rw [hrow n, hM]
    exact row_reconcile hcur ls n

/-- Trying again adopts the known subdirectories that are not registered. -/
theorem adopted_retryUnregistered (hp : L.Names p y) (h : L.Fits s.registry)
    {d' : TrackedDirectory Name} (hd : s.forest y = some d')
    (hn : ∀ n ∈ d'.subdirectories, s.forest (y ++ [n]) = none →
      ∀ z, y ++ [n] <+: z → s.forest z = none) :
    ∃ ns : List Name, (∀ n, n ∈ ns ↔ n ∈ d'.subdirectories ∧ s.forest (y ++ [n]) = none) ∧
      ∃ es, Adopted L (ns.map fun n => y ++ [n]) s (retryUnregistered host p s) es := by
  set ns := d'.subdirectories.filter fun n => !s.registry.contains (p.child n) with hns
  have hun : s.unregistered p = ns.map p.child := by
    rw [unregistered, h.get?_eq hp.1, show s.registry.forest y = some d' from hd]
    dsimp only
    rw [List.filter_map]
    rfl
  have hmem : ∀ n, n ∈ ns ↔ n ∈ d'.subdirectories ∧ s.forest (y ++ [n]) = none := by
    intro n
    have hc := contains_iff h (hp.child n).1
    rw [hns, List.mem_filter, Bool.not_eq_true', ← Bool.not_eq_true, hc, not_not]
  rw [retryUnregistered, hun]
  refine ⟨ns, hmem, adopted_children h hp (d'.nodup_subdirectories.filter _) ?_⟩
  rintro z ⟨t, ht, htz⟩
  obtain ⟨n, hns, rfl⟩ := List.mem_map.1 ht
  exact hn n ((hmem n).1 hns).1 ((hmem n).1 hns).2 z htz

/-- The last stage: known subdirectories that are not registered are tried again. -/
theorem stage_retried {d' : TrackedDirectory Name} (hp : L.Names p y) {s₃ : Engine σ}
    {es : List Event} {row : Name → Option Known} (h : Stage L y d' s (.ok (), s₃) es row)
    (hrow : ∀ n, row n = (d'.items.get? n).map (·.known)) :
    ∃ fs, Stage L y d' s (retryUnregistered host p s₃) fs row ∧
      Whole L (retryUnregistered host p s₃) y := by
  obtain ⟨ns, hmem, fs, ha⟩ := adopted_retryUnregistered hp h.valid.fits h.here
    fun n _ hn z hz => Forest.none_below (fun x m _ => h.valid.sound.hangs x m) hn hz
  have hstage := h.adopted ha (by
    intro t ht
    obtain ⟨n, hn, rfl⟩ := List.mem_map.1 ht
    obtain ⟨i, hi, hdir⟩ := TrackedDirectory.mem_subdirectories.1 ((hmem n).1 hn).1
    refine ⟨n, rfl, ⟨d', i, h.here, hi, hdir⟩, ?_⟩
    rw [hrow, hi, Option.map_some, Known.isDirectory_iff.1 ((Item.isDirectory_known i).trans hdir)])
  refine ⟨_, hstage, ?_⟩
  rintro hok n ⟨d'', i, hd'', hi⟩
  obtain rfl : d' = d'' := Option.some.inj (hstage.here.symm.trans hd'')
  by_cases hn : s₃.forest (y ++ [n]) = none
  · refine (ha.whole hok).1 _ (List.mem_map.2 ⟨n, (hmem n).2 ⟨?_, hn⟩, rfl⟩)
    exact TrackedDirectory.mem_subdirectories.2 ⟨i, hi⟩
  · left
    rw [ha.kept _ fun hc => hn (ha.bare _ hc)]
    exact hn

end Absorb

end DirWatch.Engine
