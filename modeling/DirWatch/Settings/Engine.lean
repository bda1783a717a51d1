import DirWatch.Filter
import DirWatch.Settings.Basic

/-! # The configuration of the engine

What a watcher runs with: the settings with the watch service read from its name, and without the
root. -/

namespace DirWatch

/-- What feeds a watcher with notifications: the platform, or a scan at intervals. -/
inductive Backend where
  | native
  | poll
  deriving DecidableEq

namespace Backend

def name : Backend → String
  | native => "native"
  | poll => "poll"

/-- Reads the name of a watch service. -/
def ofName (s : String) : Except Error Backend :=
  if s = "native" then .ok native
  else if s = "poll" then .ok poll
  else .error (.config (Settings.unknownBackendMessage s))

theorem ofName_name (b : Backend) : ofName b.name = .ok b := by cases b <;> rfl

end Backend

/-- What a watcher runs with; times are in milliseconds. -/
structure EngineConfig where
  excludePatterns : List String := []
  excludedNames : List String := []
  coalesceTimeout : UInt64 := 2000
  maxCoalesceDelay : UInt64 := 10000
  shutdownGrace : UInt64 := 3000
  backend : Backend := .native
  pollInterval : UInt64 := 2000
  pollingFallback : Bool := true
  queueCapacity : UInt64 := 100000
  deriving DecidableEq

namespace EngineConfig

/-- Takes the configuration over from settings. -/
def ofSettings (s : Settings) : Except Error EngineConfig := do
  return {
    excludePatterns := s.excludePatterns
    excludedNames := s.excludedNames
    coalesceTimeout := s.coalesceTimeout
    maxCoalesceDelay := s.maxCoalesceDelay
    shutdownGrace := s.shutdownGrace
    backend := ← Backend.ofName s.backend
    pollInterval := s.pollInterval
    pollingFallback := s.pollingFallback
    queueCapacity := s.queueCapacity }

/-- The longest wait of a marked directory; never below the quiet time. -/
def longestDelay (c : EngineConfig) : UInt64 := max c.maxCoalesceDelay c.coalesceTimeout

/-- Refuses values that the engine cannot run with. -/
def validate (c : EngineConfig) : Except Error Unit :=
  if c.coalesceTimeout = 0 then .error (.config "coalesce_timeout_ms must be greater than 0")
  else if c.queueCapacity = 0 then .error (.config "event_queue_capacity must be greater than 0")
  else if c.backend = .poll ∧ c.pollInterval = 0 then
    .error (.config "poll_interval_ms must be greater than 0")
  else .ok ()

/-- The filter of the configured patterns and names. -/
def filter (c : EngineConfig) : Except Glob.PatternError Filter :=
  Filter.build c.excludePatterns (c.excludedNames.map Utf8.encode)

/-- The configuration for diagnostics. -/
def describe (c : EngineConfig) : String :=
  let backend := match c.backend with
    | .native => "Native"
    | .poll => "Poll"
  "WatcherConfig \x7b exclude_patterns: " ++ Text.quoteList c.excludePatterns
    ++ ", excluded_dirs: " ++ Text.quoteList c.excludedNames
    ++ ", coalesce_timeout_ms: " ++ toString c.coalesceTimeout
    ++ ", max_coalesce_delay_ms: " ++ toString c.maxCoalesceDelay
    ++ ", shutdown_grace_ms: " ++ toString c.shutdownGrace
    ++ ", backend: " ++ backend
    ++ ", poll_interval_ms: " ++ toString c.pollInterval
    ++ ", polling_fallback: " ++ toString c.pollingFallback
    ++ ", event_queue_capacity: " ++ toString c.queueCapacity ++ " \x7d"

end EngineConfig

end DirWatch
