import DirWatch.Settings.Engine

/-! # Overrides

Values given on the command line win over the settings; together they name the tree to watch and the
configuration of the engine. -/

namespace DirWatch

/-- Values that are given on the command line. -/
structure Overrides where
  root : Option Path := none
  exclude : List String := []
  poll : Bool := false
  coalesce : Option UInt64 := none

/-- Why a command line and settings do not make a watch. -/
inductive ResolveError where
  | noRoot
  | invalid (fault : Settings.Fault)
  | engine (error : Error)

namespace ResolveError

/-- The texts of an error, the outermost first. -/
def chain : ResolveError → List String
  | noRoot => ["No directory to watch: pass ROOT or set watcher.root in the config file"]
  | invalid fault => ["Invalid configuration", (Error.config fault.message).message]
  | engine error => error.message :: error.sources

end ResolveError

namespace Settings

/-- The settings with the overrides in place. A longer quiet time raises the longest delay. -/
def override (s : Settings) (o : Overrides) : Settings :=
  let s := { s with
    excludePatterns := s.excludePatterns ++ o.exclude
    backend := if o.poll then "poll" else s.backend }
  match o.coalesce with
  | none => s
  | some ms => { s with coalesceTimeout := ms, maxCoalesceDelay := max s.maxCoalesceDelay ms }

/-- The tree to watch and the configuration of the engine. -/
def resolve (s : Settings) (o : Overrides) : Except ResolveError (Path × EngineConfig) :=
  match o.root <|> s.root with
  | none => .error .noRoot
  | some root =>
    let merged := s.override o
    match merged.validate with
    | .error fault => .error (.invalid fault)
    | .ok () =>
      match EngineConfig.ofSettings merged with
      | .error e => .error (.engine e)
      | .ok config => .ok (root, config)

end Settings

end DirWatch
