import DirWatch.Number.Reading
import DirWatch.Settings.Overrides

/-! # The command line

What a user asks for: a hint, the usage, or to watch a tree with some overrides. -/

namespace DirWatch

/-- What a command line says. -/
structure CommandLine where
  config : Option Path := none
  verbose : Bool := false
  help : Bool := false
  watches : Bool := false
  overrides : Overrides := {}
  stats : Bool := false

namespace CommandLine

/-- Why a command line cannot be read. -/
inductive UsageError where
  | unexpected (argument : String)
  | missingValue (option : String)
  | badNumber (option value : String)
  deriving DecidableEq

def UsageError.message : UsageError → String
  | unexpected argument => "error: unexpected argument '" ++ argument ++ "' found"
  | missingValue option => "error: a value is required for '" ++ option ++ "' but none was supplied"
  | badNumber option value => "error: invalid value '" ++ value ++ "' for '" ++ option ++ "'"

/-- What is printed where no command is given. -/
def hint : String :=
  "Run 'treewatch watch <ROOT>' to watch a directory tree, or --help for more options"

/-- The options and their meaning. -/
def usage : String := "\n".intercalate
  ["Recursive directory tree change notifications", "",
    "Usage: treewatch [OPTIONS] watch [ROOT]", "",
    "  -c, --config <FILE>      Configuration file path",
    "  -v, --verbose            Verbose logging",
    "  -e, --exclude <PATTERN>  Glob pattern to exclude, relative to the root (repeatable)",
    "      --poll               Use the polling backend instead of native notifications",
    "      --coalesce-ms <MS>   Idle time before pending changes are reported",
    "      --stats              Print watcher statistics as TOML when standard input ends",
    "  -h, --help               Print help"]

/-- The options that a value follows, in their long and short forms. -/
def valueOptions : List String := ["--config", "--exclude", "--coalesce-ms", "-c", "-e"]

/-- Cuts a value off the option that it is written together with. -/
def detached (argument : String) : List String :=
  let attached? (option : String) : Option (List String) :=
    let opening := if option.startsWith "--" then option ++ "=" else option
    if argument.startsWith opening && argument != opening then
      some [option, (argument.drop opening.length).toString]
    else none
  ((valueOptions.findSome? attached?).getD [argument])

/-- Stores the value of an option. -/
def setValue (c : CommandLine) (option value : String) : Except UsageError CommandLine :=
  if option = "--config" ∨ option = "-c" then .ok { c with config := some (.ofString value) }
  else if !c.watches then .error (.unexpected option)
  else if option = "--coalesce-ms" then
    match Number.readUInt64? value.toList with
    | some ms => .ok { c with overrides := { c.overrides with coalesce := some ms } }
    | none => .error (.badNumber option value)
  else .ok { c with overrides := { c.overrides with exclude := c.overrides.exclude ++ [value] } }

/-- Takes a word that is no option: the command, then the root. -/
def setWord (c : CommandLine) (word : String) : Except UsageError CommandLine :=
  if !c.watches then
    if word = "watch" then .ok { c with watches := true } else .error (.unexpected word)
  else if c.overrides.root.isSome then .error (.unexpected word)
  else .ok { c with overrides := { c.overrides with root := some (.ofString word) } }

/-- Takes an option that stands alone. -/
def setFlag (c : CommandLine) (flag : String) : Except UsageError CommandLine :=
  if flag = "--verbose" ∨ flag = "-v" then .ok { c with verbose := true }
  else if flag = "--help" ∨ flag = "-h" then .ok { c with help := true }
  else if !c.watches then .error (.unexpected flag)
  else if flag = "--poll" then .ok { c with overrides := { c.overrides with poll := true } }
  else if flag = "--stats" then .ok { c with stats := true }
  else .error (.unexpected flag)

/-- Reads arguments one by one; after two dashes they are words. -/
def readFrom (c : CommandLine) : List String → Except UsageError CommandLine
  | [] => .ok c
  | "--" :: words => words.foldlM setWord c
  | argument :: rest =>
    if argument ∈ valueOptions then
      match rest with
      | [] => .error (.missingValue argument)
      | value :: rest =>
        match c.setValue argument value with
        | .error e => .error e
        | .ok c => c.readFrom rest
    else
      let taken := if argument.startsWith "-" then c.setFlag argument else c.setWord argument
      match taken with
      | .error e => .error e
      | .ok c => c.readFrom rest

/-- Reads a command line. -/
def read (arguments : List String) : Except UsageError CommandLine :=
  readFrom {} (arguments.flatMap detached)

end CommandLine

end DirWatch
