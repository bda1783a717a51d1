import DirWatch.Proofs.Filter.Building
import DirWatch.Settings.Overrides
import Mathlib.Logic.Basic

/-! # Settings that make a watch

Settings are examined once, after the values of the command line were put into them. What passes is
good for the engine: its configuration can be read off, is accepted, and its filter can be built. -/

namespace DirWatch

theorem max_eq_of_le {a b : UInt64} (h : b ≤ a) : max a b = a := by
  change (if a ≤ b then b else a) = a
  split
  · next hab => exact UInt64.le_antisymm h hab
  · rfl

namespace Settings

/-! ## What is accepted -/

/-- Settings that a watcher can run with. -/
structure Accepted (s : Settings) : Prop where
  backend : s.backend = "native" ∨ s.backend = "poll"
  timeout : s.coalesceTimeout ≠ 0
  delay : s.coalesceTimeout ≤ s.maxCoalesceDelay
  interval : s.backend = "poll" → s.pollInterval ≠ 0
  capacity : s.queueCapacity ≠ 0
  patterns : ∀ text ∈ s.excludePatterns, ∃ p, Glob.Pattern.ofString text = .ok p

theorem firstBadPattern?_eq_none_iff {texts : List String} :
    firstBadPattern? texts = none ↔ ∀ text ∈ texts, ∃ p, Glob.Pattern.ofString text = .ok p := by
  rw [firstBadPattern?, List.findSome?_eq_none_iff]
  refine forall₂_congr fun text _ => ?_
  cases Glob.Pattern.ofString text <;> simp

theorem validate_eq_ok_iff {s : Settings} : s.validate = .ok () ↔ s.Accepted := by
  constructor
  · intro h
    unfold validate at h
    split at h
    · cases h
    next hbackend =>
    split at h
    · cases h
    next htimeout =>
    split at h
    · cases h
    next hdelay =>
    split at h
    · cases h
    next hinterval =>
    split at h
    · cases h
    next hcapacity =>
    split at h
    · cases h
    next hpatterns =>
    exact
      { backend := by simpa [backendNames] using not_not.1 hbackend
        timeout := htimeout
        delay := UInt64.not_lt.1 hdelay
        interval := fun hpoll hzero => hinterval ⟨hpoll, hzero⟩
        capacity := hcapacity
        patterns := firstBadPattern?_eq_none_iff.1 hpatterns }
  · intro h
    have hbackend : s.backend ∈ backendNames := by simpa [backendNames] using h.backend
    rw [validate, if_neg (not_not_intro hbackend), if_neg h.timeout,
      if_neg (UInt64.not_lt.2 h.delay),
      if_neg fun hzero => h.interval hzero.1 hzero.2, if_neg h.capacity,
      firstBadPattern?_eq_none_iff.2 h.patterns]

end Settings

/-! ## The configuration of the engine -/

theorem Backend.name_of_ofName {s : String} {b : Backend} (h : ofName s = .ok b) : b.name = s := by
  unfold ofName at h
  split at h
  · next hs =>
      obtain rfl := Except.ok.inj h
      exact hs.symm
  split at h
  · next hs =>
      obtain rfl := Except.ok.inj h
      exact hs.symm
  · cases h

namespace EngineConfig

/-- The settings that a configuration stands for. -/
def settings (c : EngineConfig) (root : Option Path) : Settings where
  root := root
  excludePatterns := c.excludePatterns
  excludedNames := c.excludedNames
  coalesceTimeout := c.coalesceTimeout
  maxCoalesceDelay := c.maxCoalesceDelay
  shutdownGrace := c.shutdownGrace
  backend := c.backend.name
  pollInterval := c.pollInterval
  pollingFallback := c.pollingFallback
  queueCapacity := c.queueCapacity

theorem ofSettings_settings (c : EngineConfig) (root : Option Path) :
    ofSettings (c.settings root) = .ok c := by
  rw [ofSettings, settings, Backend.ofName_name]
  rfl

/-- A configuration that is read off stands for the settings. -/
theorem ofSettings_eq_ok_iff {s : Settings} {c : EngineConfig} :
    ofSettings s = .ok c ↔ c.settings s.root = s := by
  constructor
  · intro h
    unfold ofSettings at h
    cases hb : Backend.ofName s.backend with
    | error e =>
        rw [hb] at h
        cases h
    | ok b =>
        rw [hb] at h
        obtain rfl := Except.ok.inj h
        rw [settings, Backend.name_of_ofName hb]
  · intro h
    exact h ▸ ofSettings_settings c s.root

/-- Settings with the name of a watch service are those of some configuration. -/
theorem exists_settings {s : Settings} (h : s.backend = "native" ∨ s.backend = "poll") :
    ∃ c : EngineConfig, c.settings s.root = s := by
  obtain ⟨b, hb⟩ : ∃ b : Backend, b.name = s.backend := by
    rcases h with h | h
    · exact ⟨.native, h.symm⟩
    · exact ⟨.poll, h.symm⟩
  obtain ⟨root, patterns, names, timeout, delay, grace, backend, interval, fallback, capacity⟩ := s
  subst hb
  exact ⟨⟨patterns, names, timeout, delay, grace, b, interval, fallback, capacity⟩, rfl⟩

section Accepted

variable {c : EngineConfig} {root : Option Path} (h : (c.settings root).Accepted)
include h

theorem validate_of_accepted : c.validate = .ok () := by
  have htimeout : c.coalesceTimeout ≠ 0 := h.timeout
  have hcapacity : c.queueCapacity ≠ 0 := h.capacity
  have hinterval : ¬ (c.backend = .poll ∧ c.pollInterval = 0) := by
    rintro ⟨hpoll, hzero⟩
    exact h.interval (congrArg Backend.name hpoll) hzero
  rw [validate, if_neg htimeout, if_neg hcapacity, if_neg hinterval]

theorem exists_filter_of_accepted : ∃ f, c.filter = .ok f :=
  (Filter.exists_build h.patterns _ _).imp fun _ => And.left

/-- The longest delay need not be raised. -/
theorem longestDelay_of_accepted : c.longestDelay = c.maxCoalesceDelay := max_eq_of_le h.delay

end Accepted

end EngineConfig

/-! ## Settings and a command line -/

namespace Settings

/-- The settings with each value of a command line in its place. -/
def merged (s : Settings) (o : Overrides) : Settings :=
  { s with
    excludePatterns := s.excludePatterns ++ o.exclude
    coalesceTimeout := o.coalesce.getD s.coalesceTimeout
    maxCoalesceDelay := max s.maxCoalesceDelay (o.coalesce.getD 0)
    backend := if o.poll then "poll" else s.backend }

theorem override_eq (s : Settings) (o : Overrides) : s.override o = s.merged o := by
  unfold override merged
  cases o.coalesce with
  | none => simp [max_eq_of_le UInt64.zero_le]
  | some ms => rfl

/-- Nothing but a missing root and settings that are not accepted stands in the way. -/
theorem resolve_eq_ok_iff {s : Settings} {o : Overrides} {root : Path} {c : EngineConfig} :
    s.resolve o = .ok (root, c) ↔
      (o.root <|> s.root) = some root ∧ (s.merged o).Accepted ∧ c.settings s.root = s.merged o := by
  rw [resolve, override_eq]
  cases o.root <|> s.root with
  | none => simp
  | some root' =>
      dsimp only
      cases hv : (s.merged o).validate with
      | error fault =>
          have hn : ¬ (s.merged o).Accepted := by
            rw [← validate_eq_ok_iff, hv]
            simp
          simp [hn]
      | ok =>
          have ha := validate_eq_ok_iff.1 hv
          cases hof : EngineConfig.ofSettings (s.merged o) with
          | error e =>
              obtain ⟨c', hc'⟩ := EngineConfig.exists_settings ha.backend
              rw [EngineConfig.ofSettings_eq_ok_iff.2 hc'] at hof
              cases hof
          | ok c' =>
              have hread : c = c' ↔ c.settings s.root = s.merged o := by
                rw [← Except.ok.injEq (ε := Error), ← hof, eq_comm]
                exact EngineConfig.ofSettings_eq_ok_iff
              simp [ha, ← hread, eq_comm]

/-- A longer quiet time raises the longest delay, so that settings that are accepted without one
stay so. -/
theorem Accepted.coalesce {s : Settings} {o : Overrides}
    (h : (s.merged { o with coalesce := none }).Accepted) {ms : UInt64} (hms : 0 < ms) :
    (s.merged { o with coalesce := some ms }).Accepted where
  backend := h.backend
  timeout := (UInt64.pos_iff_ne_zero).1 hms
  delay := by
    change ms ≤ (if s.maxCoalesceDelay ≤ ms then ms else s.maxCoalesceDelay)
    split
    · exact UInt64.le_refl ms
    · next hle => exact UInt64.le_of_lt (UInt64.not_le.1 hle)
  interval := h.interval
  capacity := h.capacity
  patterns := h.patterns

/-- Settings and a command line make a watch exactly if a root is given and the settings pass with
the values of the command line in their place. Then nothing that comes later refuses them: the
configuration of the engine is read off as it stands, it is accepted, its filter can be built, and
its longest delay is not raised. A quiet time on the command line does no harm. -/
theorem resolve_accepted (s : Settings) (o : Overrides) :
    ((∃ r, s.resolve o = .ok r) ↔
        (o.root <|> s.root).isSome = true ∧ (s.merged o).validate = .ok ()) ∧
      (∀ root c, s.resolve o = .ok (root, c) →
        (o.root <|> s.root) = some root ∧ EngineConfig.ofSettings (s.merged o) = .ok c ∧
          c.settings s.root = s.merged o ∧ c.validate = .ok () ∧ (∃ f, c.filter = .ok f) ∧
            c.longestDelay = (s.merged o).maxCoalesceDelay) ∧
      ∀ ms, 0 < ms → (∃ r, s.resolve { o with coalesce := none } = .ok r) →
        ∃ r, s.resolve { o with coalesce := some ms } = .ok r := by
  refine ⟨?_, ?_, ?_⟩
  · rw [validate_eq_ok_iff, Option.isSome_iff_exists]
    constructor
    · rintro ⟨⟨root, c⟩, hr⟩
      obtain ⟨hroot, ha, -⟩ := resolve_eq_ok_iff.1 hr
      exact ⟨⟨root, hroot⟩, ha⟩
    · rintro ⟨⟨root, hroot⟩, ha⟩
      obtain ⟨c, hc⟩ := EngineConfig.exists_settings ha.backend
      exact ⟨(root, c), resolve_eq_ok_iff.2 ⟨hroot, ha, hc⟩⟩
  · intro root c hr
    obtain ⟨hroot, ha, hc⟩ := resolve_eq_ok_iff.1 hr
    have hca : (c.settings s.root).Accepted := hc ▸ ha
    refine ⟨hroot, EngineConfig.ofSettings_eq_ok_iff.2 hc, hc,
      EngineConfig.validate_of_accepted hca, EngineConfig.exists_filter_of_accepted hca, ?_⟩
    rw [EngineConfig.longestDelay_of_accepted hca, ← hc]
    rfl
  · rintro ms hms ⟨⟨root, c⟩, hr⟩
    obtain ⟨hroot, ha, -⟩ := resolve_eq_ok_iff.1 hr
    obtain ⟨c', hc'⟩ := EngineConfig.exists_settings (ha.coalesce hms).backend
    exact ⟨(root, c'), resolve_eq_ok_iff.2 ⟨hroot, ha.coalesce hms, hc'⟩⟩

/-- A quiet time on the command line that is longer than the longest delay. -/
theorem resolve_accepted_poll :
    let s : Settings := { excludePatterns := ["target"] }
    let o : Overrides :=
      { root := some (.ofString "/r"), exclude := ["**/*.log"], poll := true,
        coalesce := some 20000 }
    ∃ root c, s.resolve o = .ok (root, c) ∧ c.validate = .ok () ∧ (∃ f, c.filter = .ok f) ∧
      c.longestDelay = 20000 := by
  intro s o
  have hpatterns : firstBadPattern? ["target", "**/*.log"] = none := by decide +kernel
  have hmerged : (s.merged { o with coalesce := none }).Accepted :=
    ⟨.inr rfl, by decide, by decide, by decide, by decide,
      firstBadPattern?_eq_none_iff.1 hpatterns⟩
  have hfirst : ∃ r, s.resolve { o with coalesce := none } = .ok r :=
    (resolve_accepted s { o with coalesce := none }).1.2 ⟨rfl, validate_eq_ok_iff.2 hmerged⟩
  obtain ⟨⟨root, c⟩, hr⟩ := (resolve_accepted s o).2.2 20000 (by decide) hfirst
  obtain ⟨-, -, -, hv, hf, hd⟩ := (resolve_accepted s o).2.1 root c hr
  exact ⟨root, c, hr, hv, hf, hd⟩

end Settings

end DirWatch
