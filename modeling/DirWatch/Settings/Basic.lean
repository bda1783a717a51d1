import DirWatch.Error
import DirWatch.Glob.Pattern

/-! # Settings

What a settings file says about a watcher, and which settings are accepted. -/

namespace DirWatch

/-- The settings of a watcher as a file gives them; times are in milliseconds. -/
structure Settings where
  root : Option Path := none
  excludePatterns : List String := []
  excludedNames : List String := []
  coalesceTimeout : UInt64 := 2000
  maxCoalesceDelay : UInt64 := 10000
  shutdownGrace : UInt64 := 3000
  backend : String := "native"
  pollInterval : UInt64 := 2000
  pollingFallback : Bool := true
  queueCapacity : UInt64 := 100000
  deriving DecidableEq

namespace Settings

/-- The names of the watch services. -/
def backendNames : List String := ["native", "poll"]

/-- Why settings are refused. -/
inductive Fault where
  | unknownBackend (name : String)
  | zeroCoalesceTimeout
  | shortDelay (delay timeout : UInt64)
  | zeroPollInterval
  | zeroQueueCapacity
  | badPattern (text : String) (error : Glob.PatternError)
  deriving DecidableEq

/-- The text about a watch service that does not exist. -/
def unknownBackendMessage (name : String) : String :=
  "Invalid backend '" ++ name ++ "'. Must be one of: " ++ Text.quoteList backendNames

def Fault.message : Fault → String
  | unknownBackend name => unknownBackendMessage name
  | zeroCoalesceTimeout => "watcher.coalesce_timeout_ms must be greater than 0"
  | shortDelay delay timeout =>
    s!"watcher.max_coalesce_delay_ms ({delay}) must not be shorter than watcher.coalesce_timeout_ms ({timeout})"
  | zeroPollInterval => "watcher.poll_interval_ms must be greater than 0"
  | zeroQueueCapacity => "watcher.event_queue_capacity must be greater than 0"
  | badPattern text error => "Invalid exclude pattern '" ++ text ++ "': " ++ error.message

/-- The first pattern that cannot be read. -/
def firstBadPattern? (patterns : List String) : Option Fault :=
  patterns.findSome? fun text =>
    match Glob.Pattern.ofString text with
    | .ok _ => none
    | .error e => some (.badPattern text e)

/-- Refuses settings that no watcher can run with. -/
def validate (s : Settings) : Except Fault Unit :=
  if s.backend ∉ backendNames then .error (.unknownBackend s.backend)
  else if s.coalesceTimeout = 0 then .error .zeroCoalesceTimeout
  else if s.maxCoalesceDelay < s.coalesceTimeout then
    .error (.shortDelay s.maxCoalesceDelay s.coalesceTimeout)
  else if s.backend = "poll" ∧ s.pollInterval = 0 then .error .zeroPollInterval
  else if s.queueCapacity = 0 then .error .zeroQueueCapacity
  else match firstBadPattern? s.excludePatterns with
    | some fault => .error fault
    | none => .ok ()

end Settings

end DirWatch
