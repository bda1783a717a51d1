import DirWatch.CommandLine
import DirWatch.Settings.Loading
import DirWatch.Watcher

/-! # The program

Watches a tree of the file system. The tree is looked at once in each poll interval; each look is a
file tree in memory, which a watcher compares with the one before. -/

namespace DirWatch.Program

/-- The look at a tree as a platform that watches nothing by itself. -/
def platform : Platform FileTree where
  metadata p t := (t.metadata p, t)
  target p t := (t.target p, t)
  canonical p t := (t.canonical p, t)
  readDirectory p t := (t.readDirectory p, t)
  watch _ t := (.ok (), t)
  unwatch _ t := (.ok (), t)
  openService _ t := (.ok .poll, t)

def timestamp (m : IO.FS.Metadata) : Timestamp := ⟨m.modified.sec, m.modified.nsec.toNat⟩

/-- A directory with its entries; one that cannot be read is closed. -/
partial def look (directory : String) : IO Node := do
  let found ← try some <$> (do (← IO.FS.realPath directory).readDir) catch _ => pure none
  match found with
  | none => return .directory ⟨0, 0⟩ 0 []
  | some entries =>
    let nodes ← entries.toList.filterMapM fun e => do
      match Name.ofBytes? (Utf8.encode e.fileName) with
      | none => return none
      | some name =>
        try
          let m ← e.path.symlinkMetadata
          match m.type with
          | .dir => return some (name, ← look e.path.toString)
          | .symlink => return some (name, .link ⟨[]⟩ (timestamp m))
          | _ => return some (name, .file ⟨0, 0⟩ 0o644 (timestamp m))
        catch _ => return none
    return .directory ⟨0, 0⟩ 0o755 nodes

/-- A file tree that holds what stands at a path now. -/
def lookAt (root : Path) : IO FileTree := do
  try
    let real ← IO.FS.realPath root.display
    let path := Path.ofString real.toString
    let node ←
      if ← real.isDir then look real.toString
      else do pure (.file ⟨0, 0⟩ 0o644 (timestamp (← real.metadata)))
    let t := (FileTree.makeDirectories {} path).2
    match t.locate .target path with
    | .error _ => return t
    | .ok location => return t.modify location fun _ => node
  catch _ => return {}

/-- The variables of the environment that hold settings. -/
def environment : IO (List Variable) := do
  let names := Settings.names.map fun n => "TREEWATCH_WATCHER__" ++ n.toUpper
  names.filterMapM fun n => do return (← IO.getEnv n).map (Variable.mk n)

def settingsFile (p : Path) : IO SettingsFile := do
  try
    let real ← IO.FS.realPath p.display
    if ← real.isDir then return .directory
    if ← real.pathExists then return .file (← IO.FS.readFile real)
    return .absent
  catch _ => return .absent

def fail (code : UInt32) (lines : List String) : IO UInt32 := do
  lines.forM IO.eprintln
  return code

/-- Prints what a watcher has told since it had done `seen` things. -/
def tell (seen : Nat) (w : Watcher FileTree) : IO Nat := do
  for action in w.journal.drop seen do
    if let .notified n := action then IO.println n.line
  return w.journal.length

def statsLines (s : Stats) : List String :=
  ["backend = \"" ++ s.backend.name ++ "\"",
    s!"watched_directories = {s.watchedDirectories}",
    s!"tracked_entries = {s.trackedEntries}",
    s!"pending_directories = {s.pendingDirectories}",
    s!"notifications = {s.notifications}",
    s!"overflows = {s.overflows}",
    s!"flushes = {s.flushes}",
    s!"created = {s.counters.totals.created}",
    s!"updated = {s.counters.totals.updated}",
    s!"deleted = {s.counters.totals.deleted}",
    s!"directories_diffed = {s.counters.diffed}"]

/-- Looks at the tree again and again until the watcher fails or `ended` says so. -/
partial def follow (root : Path) (interval : UInt32) (ended : IO Bool) (seen : Nat)
    (w : Watcher FileTree) : IO (Watcher FileTree) := do
  if !w.isRunning || (← ended) then return w
  IO.sleep interval
  let tree ← lookAt root
  let (_, w) := (w.mapMachine fun _ => tree).ask platform .rescan
  follow root interval ended (← tell seen w) w

/-- Watches until the watcher fails, or until standard input ends if statistics are asked for. -/
def watch (root : Path) (config : EngineConfig) (stats : Bool) : IO UInt32 := do
  match Watcher.new platform root config (← lookAt root) with
  | .error e => fail 1 ["Error: Cannot watch " ++ root.display, "Caused by: " ++ e.message]
  | .ok w =>
    match w.start platform with
    | (.error e, _) => fail 1 ["Error: Failed to start watcher", "Caused by: " ++ e.message]
    | (.ok (), w) =>
      let input ← IO.getStdin
      let reading ← IO.asTask (if stats then discard input.readToEnd else pure ())
      let ended : IO Bool := if stats then IO.hasFinished reading else pure false
      let w ← follow w.root config.pollInterval.toUInt32 ended (← tell 0 w) w
      if !w.isRunning then return ← fail 1 ["Error: Watcher stopped after a watch service failure"]
      if let (.ok (.stats s), _) := w.ask platform .stats then
        (statsLines s).forM IO.println
      return 0

def run (arguments : List String) : IO UInt32 := do
  match CommandLine.read arguments with
  | .error e => fail 2 [e.message]
  | .ok c =>
    if c.help then
      IO.println CommandLine.usage
      return 0
    if !c.watches then
      IO.println CommandLine.hint
      return 0
    let home := Settings.homeFile (.ofString ((← IO.getEnv "HOME").getD ""))
    let file := c.config.getD home
    match Settings.load file (← settingsFile file) (← environment) with
    | .error e => fail 1 ["Error: Failed to load configuration", "Caused by: " ++ e.error.message]
    | .ok settings =>
      match settings.resolve c.overrides with
      | .error e => fail 1 ["Error: " ++ "\nCaused by: ".intercalate e.chain]
      | .ok (root, config) => watch root config c.stats

end DirWatch.Program

def main (arguments : List String) : IO UInt32 := DirWatch.Program.run arguments
