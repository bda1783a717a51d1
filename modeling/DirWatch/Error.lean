import DirWatch.Path.Basic

/-! # Errors

Every failure of the library is one of these. A fatal error ends a running watcher; a transient one
heals with a later pass. -/

namespace DirWatch

/-- What kind of trouble the operating system reports. -/
inductive IoKind where
  | notFound
  | permissionDenied
  | notADirectory
  | isADirectory
  | directoryNotEmpty
  | outOfMemory
  | interrupted
  | alreadyExists
  | timedOut
  | unexpectedEof
  | tooManyOpenFiles
  | tooManyLinks
  | nameTooLong
  | invalidArgument
  | busy
  | other
  deriving DecidableEq

/-- Trouble that the operating system reports, with its text. -/
structure IoFailure where
  kind : IoKind
  message : String
  deriving DecidableEq

namespace IoFailure

def notFound : IoFailure := ⟨.notFound, "No such file or directory (os error 2)"⟩

def permissionDenied : IoFailure := ⟨.permissionDenied, "Permission denied (os error 13)"⟩

def alreadyExists : IoFailure := ⟨.alreadyExists, "File exists (os error 17)"⟩

def isADirectory : IoFailure := ⟨.isADirectory, "Is a directory (os error 21)"⟩

def directoryNotEmpty : IoFailure := ⟨.directoryNotEmpty, "Directory not empty (os error 39)"⟩

def notADirectory : IoFailure := ⟨.notADirectory, "Not a directory (os error 20)"⟩

def busy : IoFailure := ⟨.busy, "Device or resource busy (os error 16)"⟩

def invalidArgument : IoFailure := ⟨.invalidArgument, "Invalid argument (os error 22)"⟩

/-- A path that ends too early for the operating system. -/
def nulInPath : IoFailure := ⟨.invalidArgument, "file name contained an unexpected NUL byte"⟩

/-- A text that ends too early for a watch service. -/
def nulInText : IoFailure := ⟨.invalidArgument, "data provided contains a nul byte"⟩

def tooManyOpenFiles : IoFailure := ⟨.tooManyOpenFiles, "Too many open files (os error 24)"⟩

def nameTooLong : IoFailure := ⟨.nameTooLong, "File name too long (os error 36)"⟩

def tooManyLinks : IoFailure := ⟨.tooManyLinks, "Too many levels of symbolic links (os error 40)"⟩

end IoFailure

/-- Why an operation of the library failed. -/
inductive Error where
  | io (failure : IoFailure)
  | config (message : String)
  | pathVanished (path : Path)
  | watchService (message : String)
  | watcher (message : String)
  | invalidInput (message : String)
  | foreign (message : String)
  | withContext (context : String) (source : Error)
  deriving DecidableEq

namespace Error

/-- The text of an error; a context stands before the text of what it was added to. -/
def message : Error → String
  | io failure => "I/O error: " ++ failure.message
  | config m => "Configuration error: " ++ m
  | pathVanished p => "Path vanished: " ++ p.display
  | watchService m => "Watch service failure: " ++ m
  | watcher m => "Watcher error: " ++ m
  | invalidInput m => "Invalid input: " ++ m
  | foreign m => m
  | withContext context source => context ++ ": " ++ source.message

/-- The texts of what an error stems from, the nearest first. -/
def sources : Error → List String
  | io failure => [failure.message]
  | withContext _ source => source.message :: source.sources
  | _ => []

/-- Whether an error concerns the current pass only. -/
def isTransient : Error → Bool
  | pathVanished _ | watcher _ => true
  | io failure => failure.kind != .outOfMemory
  | _ => false

/-- Whether an error leaves the watcher unable to go on. -/
def isFatal : Error → Bool
  | watchService _ => true
  | _ => false

end Error

end DirWatch
