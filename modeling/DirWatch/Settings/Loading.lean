import DirWatch.Document.Json.Reading
import DirWatch.Document.Toml.Assembly
import DirWatch.Settings.Decoding
import DirWatch.Settings.Environment

/-! # Loading settings

Settings come from a file, whose extension tells the format, and from the environment, which wins
over the file. A file that is missing says nothing. -/

namespace DirWatch

open Document

/-- What stands where a file of settings is looked for. -/
inductive SettingsFile where
  | absent
  | directory
  | file (text : String)
  deriving DecidableEq

/-- The formats of files of settings. -/
inductive SettingsFormat where
  | toml
  | json
  deriving DecidableEq

namespace SettingsFormat

/-- The format that the extension of a path names. -/
def ofPath? (p : Path) : Option SettingsFormat :=
  if p.extension? = some (Utf8.encode "toml") then some .toml
  else if p.extension? = some (Utf8.encode "json") then some .json
  else none

/-- Reads the entries of a document. -/
def entries? (format : SettingsFormat) (text : String) : Option (List (String × Value)) :=
  let document := match format with
    | toml => Toml.read? text
    | json => Json.read? text
  match document with
  | some (.table entries) => some entries
  | _ => none

end SettingsFormat

/-- Why settings were not loaded. -/
inductive LoadError where
  | notAFile (path : Path)
  | unknownFormat (path : Path)
  | malformed (path : Path)
  | wrongType
  | wrongText
  deriving DecidableEq

namespace LoadError

/-- What a load was doing when it failed. -/
def context : LoadError → String
  | notAFile p | unknownFormat p | malformed p => "Failed to build config from " ++ p.display
  | wrongType => "Failed to deserialize config"
  | wrongText => "Failed to parse TOML"

/-- What was wrong. -/
def cause : LoadError → String
  | notAFile p => "configuration file " ++ p.quoted ++ " not found"
  | unknownFormat p =>
    "configuration file " ++ p.quoted ++ " is not of a registered file format"
  | malformed p => "malformed document in " ++ p.display
  | wrongType => "a setting has a value of the wrong type"
  | wrongText => "the text is not a document of settings"

def error (e : LoadError) : Error := .withContext e.context (.foreign e.cause)

end LoadError

namespace Settings

/-- The settings that a TOML text spells out. -/
def ofToml (text : String) : Except LoadError Settings :=
  match (Toml.read? text).bind (ofDocument? .exact) with
  | some settings => .ok settings
  | none => .error .wrongText

/-- The entries that a file stores. -/
def fileEntries (p : Path) : SettingsFile → Except LoadError (List (String × Value))
  | .absent => .ok []
  | .directory => .error (.notAFile p)
  | .file text =>
    match SettingsFormat.ofPath? p with
    | none => .error (.unknownFormat p)
    | some format =>
      match format.entries? text with
      | none => .error (.malformed p)
      | some entries => .ok entries

/-- The settings of a file and, over it, of the environment. -/
def load (p : Path) (file : SettingsFile) (environment : List Variable) :
    Except LoadError Settings :=
  match fileEntries p file with
  | .error e => .error e
  | .ok entries =>
    let document :=
      ((Value.table []).layer entries).layer (Variable.entries environment)
    match ofDocument? .lenient document with
    | some settings => .ok settings
    | none => .error .wrongType

/-- Where the settings of a user are kept, below the home directory. -/
def homeFile (home : Path) : Path := home.join (.ofString ".treewatch/config.toml")

end Settings

end DirWatch
