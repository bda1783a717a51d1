import DirWatch.Proofs.Settings.Resolved
import DirWatch.WatchService

/-! # Which watch service is opened

A configuration is examined for the service that it asks for. Polling may still take the place of a
native service that cannot be had, at an interval that nobody has examined. -/

namespace DirWatch

theorem Backend.name_eq_poll_iff {b : Backend} : b.name = "poll" ↔ b = .poll := by
  cases b <;> decide

namespace EngineConfig

/-- A configuration that a watcher can run with. -/
structure Runnable (c : EngineConfig) : Prop where
  timeout : c.coalesceTimeout ≠ 0
  capacity : c.queueCapacity ≠ 0
  interval : c.backend = .poll → c.pollInterval ≠ 0

theorem validate_eq_ok_iff {c : EngineConfig} : c.validate = .ok () ↔ c.Runnable := by
  constructor
  · intro h
    unfold validate at h
    split at h
    · cases h
    next htimeout =>
    split at h
    · cases h
    next hcapacity =>
    split at h
    · cases h
    next hinterval =>
    exact ⟨htimeout, hcapacity, fun hpoll hzero => hinterval ⟨hpoll, hzero⟩⟩
  · intro h
    have hinterval : ¬ (c.backend = .poll ∧ c.pollInterval = 0) :=
      fun hzero => h.interval hzero.1 hzero.2
    simp [validate, h.timeout, h.capacity, hinterval]

/-- Polling takes the place of the native service, which no descriptor is left for. -/
structure FallsBack (c : EngineConfig) (descriptors : Bool) : Prop where
  native : c.backend = .native
  exhausted : descriptors = false
  allowed : c.pollingFallback = true

/-- The backend of resolved settings is what the command line or the settings say. -/
theorem backend_eq_poll_iff {c : EngineConfig} {s : Settings} {o : Overrides} {root : Path}
    (h : s.resolve o = .ok (root, c)) : c.backend = .poll ↔ o.poll = true ∨ s.backend = "poll" := by
  obtain ⟨-, -, hc⟩ := Settings.resolve_eq_ok_iff.1 h
  have hname : c.backend.name = if o.poll then "poll" else s.backend :=
    congrArg Settings.backend hc
  rw [← Backend.name_eq_poll_iff, hname]
  cases o.poll <;> simp

end EngineConfig

namespace WatchService

variable {c : EngineConfig} {descriptors : Bool} {service : WatchService} {interval : UInt64}

theorem open_eq_ok_iff : WatchService.open c descriptors = .ok service ↔
    (c.backend = .native ∧ descriptors = true ∧ service = { kind := .native }) ∨
      ((c.backend = .poll ∨ c.FallsBack descriptors) ∧
        service = { kind := .poll c.pollInterval }) := by
  have hfall : c.FallsBack descriptors ↔
      c.backend = .native ∧ descriptors = false ∧ c.pollingFallback = true :=
    ⟨fun h => ⟨h.native, h.exhausted, h.allowed⟩, fun h => ⟨h.1, h.2.1, h.2.2⟩⟩
  rw [hfall, WatchService.open]
  cases c.backend <;> cases descriptors <;> cases c.pollingFallback <;> simp [eq_comm]

/-- A service that polls has the interval of its configuration. -/
theorem polls_of_open (ho : WatchService.open c descriptors = .ok service)
    (hk : service.kind = .poll interval) :
    interval = c.pollInterval ∧ (c.backend = .poll ∨ c.FallsBack descriptors) := by
  rcases open_eq_ok_iff.1 ho with ⟨-, -, rfl⟩ | ⟨hasked, rfl⟩
  · cases hk
  · exact ⟨(ServiceKind.poll.inj hk).symm, hasked⟩

/-- Polling is at the configured interval. It pauses between two scans unless a configuration that
asks for the native service, and names no pause, falls back to polling. -/
theorem pauses_unless_fallen_back (ho : WatchService.open c descriptors = .ok service)
    (hk : service.kind = .poll interval) :
    interval = c.pollInterval ∧
      (c.validate = .ok () → (0 < interval ↔ ¬ (c.FallsBack descriptors ∧ c.pollInterval = 0))) ∧
      ∀ s o root, Settings.resolve s o = .ok (root, c) → interval = s.pollInterval ∧
        (0 < interval ↔ o.poll = true ∨ s.backend = "poll" ∨ 0 < s.pollInterval) := by
  obtain ⟨rfl, hasked⟩ := polls_of_open ho hk
  have hpause : c.validate = .ok () →
      (0 < c.pollInterval ↔ ¬ (c.FallsBack descriptors ∧ c.pollInterval = 0)) := by
    intro hv
    have hpoll := (EngineConfig.validate_eq_ok_iff.1 hv).interval
    rw [UInt64.pos_iff_ne_zero]
    constructor
    · intro hne hzero
      exact hne hzero.2
    · intro hkept
      rcases hasked with hb | hfall
      · exact hpoll hb
      · exact fun hzero => hkept ⟨hfall, hzero⟩
  refine ⟨rfl, hpause, ?_⟩
  intro s o root hr
  obtain ⟨-, ha, hc⟩ := Settings.resolve_eq_ok_iff.1 hr
  have hinterval : c.pollInterval = s.pollInterval := congrArg Settings.pollInterval hc
  have hbackend := EngineConfig.backend_eq_poll_iff hr
  have hca : (c.settings s.root).Accepted := hc ▸ ha
  have hv := EngineConfig.validate_of_accepted hca
  refine ⟨hinterval, ?_⟩
  rw [← or_assoc, ← hbackend, ← hinterval]
  constructor
  · exact .inr
  · rintro (hb | hpos)
    · exact UInt64.pos_iff_ne_zero.2 ((EngineConfig.validate_eq_ok_iff.1 hv).interval hb)
    · exact hpos

/-- The fallback polls at the default interval, and polling that the command line asks for at the
one of the settings. -/
theorem pauses_unless_fallen_back_quick :
    let s : Settings := { pollInterval := 250 }
    let o : Overrides := { root := some (.ofString "/r"), poll := true }
    let c : EngineConfig := { backend := .poll, pollInterval := 250 }
    ({} : EngineConfig).validate = .ok () ∧
      WatchService.open {} false = .ok { kind := .poll 2000 } ∧ (0 : UInt64) < 2000 ∧
      s.resolve o = .ok (.ofString "/r", c) ∧
      WatchService.open c true = .ok { kind := .poll 250 } ∧ (0 : UInt64) < 250 := by
  intro s o c
  have hv : ({} : EngineConfig).validate = .ok () := rfl
  have hfall : WatchService.open {} false = .ok { kind := .poll 2000 } := rfl
  have hr : s.resolve o = .ok (.ofString "/r", c) := rfl
  have hasked : WatchService.open c true = .ok { kind := .poll 250 } := rfl
  refine ⟨hv, hfall, ?_, hr, hasked, ?_⟩
  · refine ((pauses_unless_fallen_back hfall rfl).2.1 hv).2 ?_
    rintro ⟨-, hzero⟩
    cases hzero
  · exact ((pauses_unless_fallen_back hasked rfl).2.2 s o _ hr).2.2 (.inl rfl)

/-- Settings without a pause pass for the native service, and polling takes its place. -/
theorem unpaused_of_fallback :
    ¬ ∀ (s : Settings) (o : Overrides) (root : Path) (c : EngineConfig) (descriptors : Bool)
        (service : WatchService) (interval : UInt64), s.resolve o = .ok (root, c) →
      c.validate = .ok () → WatchService.open c descriptors = .ok service →
        service.kind = .poll interval → 0 < interval := by
  intro h
  have hpos := h { pollInterval := 0 } { root := some (.ofString "/r") } (.ofString "/r")
    { pollInterval := 0 } false { kind := .poll 0 } 0 rfl rfl rfl rfl
  exact absurd hpos (by decide)

end WatchService

end DirWatch
