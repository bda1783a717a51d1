import DirWatch.FileTree.Basic

/-! # Editing a file tree

The changes that the owner of a tree can make: directories, files and links are made, moved,
touched and removed. A directory whose entries change has to be writable and searchable, and a
directory that moves to another one has to be writable itself. -/

namespace DirWatch

def Node.mode : Node → Nat
  | file _ m _ | directory _ m _ => m
  | link .. => 0o777

namespace FileTree

/-- Changes the node at a location. -/
def modify (t : FileTree) (location : List Name) (f : Node → Node) : FileTree :=
  { t with top := t.top.modifyAt f location }

/-- Puts a new entry into a directory. -/
def add (t : FileTree) (location : List Name) (n : Name) (make : Identity → Node) : FileTree :=
  { t.modify location (Node.put n (make ⟨0, t.next⟩)) with next := t.next + 1 }

/-- Refuses to change the entries of what is no directory, or is closed to its owner. -/
def requireOpen (t : FileTree) (location : List Name) : Except IoFailure Unit :=
  match t.top.at? location with
  | some (.directory _ mode _) =>
    if Right.write.isGiven mode && Right.search.isGiven mode then .ok ()
    else .error .permissionDenied
  | some _ => .error .notADirectory
  | none => .error .notFound

/-- The directory in which a path names an entry, and the name, unless dots stand in its place. A
last dot makes the walk search the directory. -/
def approach (t : FileTree) (p : Path) : Except IoFailure (List Name × Option Name) :=
  match p.refusal? with
  | some failure => .error failure
  | none =>
    if p.isEmpty then .error .notFound
    else do
      let location ← t.walk .target linkLimit [] ((named p).dropLast ++ [[Path.dot]])
      return (location, (named p).getLast?.bind Name.ofBytes?)

/-- What stands in a directory under a name. -/
def entry? (t : FileTree) (location : List Name) (n : Name) : Except IoFailure (Option Node) :=
  if Name.limit < n.bytes.length then .error .nameTooLong
  else .ok (t.top.at? (location ++ [n]))

/-- Makes a new entry, unless there is one, from the identity that it gets. Only the path of a
directory may end in a slash. -/
def makeEntry (t : FileTree) (p : Path) (make : Identity → Node) : Except IoFailure FileTree := do
  match ← t.approach p with
  | (_, none) => throw .alreadyExists
  | (location, some n) =>
    if (← t.entry? location n).isSome then throw .alreadyExists
    if endsInSlash p && !(make ⟨0, t.next⟩).isDirectory then throw .notFound
    t.requireOpen location
    return t.add location n make

/-- Makes one directory. -/
def makeDirectory (t : FileTree) (p : Path) : Except IoFailure FileTree :=
  t.makeEntry p fun i => .directory i 0o755 []

/-- Makes a symbolic link. -/
def makeLink (t : FileTree) (p target : Path) (time : Timestamp) : Except IoFailure FileTree :=
  if p.holdsNul then .error .nulInPath
  else match target.refusal? with
    | some failure => .error failure
    | none =>
      if target.isEmpty then .error .notFound else t.makeEntry p fun _ => .link target time

/-- Makes a pipe, which is tracked as a file is. -/
def makePipe (t : FileTree) (p : Path) (time : Timestamp) : Except IoFailure FileTree :=
  t.makeEntry p fun i => .file i 0o644 time

/-- Makes or overwrites a regular file. -/
def writeFile (t : FileTree) (p : Path) (time : Timestamp) : Except IoFailure FileTree := do
  let location ← t.locate .place p
  match t.top.at? location, location.getLast? with
  | some (.file _ mode _), _ =>
    if Right.write.isGiven mode then return t.modify location (Node.setModified time)
    else throw .permissionDenied
  | none, some n =>
    t.requireOpen location.dropLast
    return t.add location.dropLast n fun i => .file i 0o644 time
  | _, _ => throw .isADirectory

/-- Sets a time of last modification, without following a link. -/
def touch (t : FileTree) (p : Path) (time : Timestamp) : Except IoFailure FileTree := do
  let location ← t.locate .named p
  return t.modify location (Node.setModified time)

/-- Sets permission bits. -/
def setMode (t : FileTree) (p : Path) (mode : Nat) : Except IoFailure FileTree := do
  let location ← t.locate .target p
  return t.modify location (Node.setMode mode)

/-- Refuses to move a directory to another one if it is closed to its owner. -/
def requireMovable (moved : Node) : Except IoFailure Unit :=
  if moved.isDirectory && !Right.write.isGiven moved.mode then .error .permissionDenied
  else .ok ()

/-- Takes an entry out of the tree, with everything below it. -/
def remove (t : FileTree) (p : Path) : Except IoFailure FileTree := do
  match ← t.approach p with
  | (_, none) => throw .busy
  | (location, some n) =>
    match ← t.entry? location n with
    | none => throw .notFound
    | some moved =>
      if endsInSlash p && !moved.isDirectory then throw .notADirectory
      t.requireOpen location
      requireMovable moved
      return t.modify location (Node.drop n)

/-- Refuses to put a node in the place of another one unless both are directories or neither is. -/
def requireSameKind (moved : Node) : Option Node → Except IoFailure Unit
  | none => .ok ()
  | some there =>
    if moved.isDirectory && !there.isDirectory then .error .notADirectory
    else if !moved.isDirectory && there.isDirectory then .error .isADirectory
    else .ok ()

/-- Moves a node from a place in a directory to a place in another one, where a node may stand. -/
def move (t : FileTree) (moved : Node) (source : List Name × Name) (there : Option Node)
    (goal : List Name × Name) : Except IoFailure FileTree := do
  if (source.1 ++ [source.2]).isPrefixOf goal.1 then throw .invalidArgument
  if (goal.1 ++ [goal.2]).isPrefixOf source.1 then throw .directoryNotEmpty
  if source = goal then return t
  t.requireOpen source.1
  t.requireOpen goal.1
  requireSameKind moved there
  if source.1 ≠ goal.1 then requireMovable moved
  if there.any fun node => !node.entries.isEmpty then throw .directoryNotEmpty
  return (t.modify source.1 (Node.drop source.2)).modify goal.1 (Node.put goal.2 moved)

/-- Moves an entry to another path, in place of what that path names. -/
def rename (t : FileTree) (p q : Path) : Except IoFailure FileTree := do
  if q.holdsNul then throw .nulInPath
  match ← t.approach p, ← t.approach q with
  | (source, some last), (directory, some n) =>
    match ← t.entry? source last with
    | none => throw .notFound
    | some moved =>
      let there ← t.entry? directory n
      if (endsInSlash p || endsInSlash q) && !moved.isDirectory then throw .notADirectory
      t.move moved (source, last) there (directory, n)
  | _, _ => throw .busy

/-- Makes a directory and those above it that are missing, from the nearest one on; the list starts
with the directory and goes up. What was made stays if a later directory cannot be made. -/
def makeFirst (t : FileTree) : List Path → Except IoFailure Unit × FileTree
  | [] => (.ok (), t)
  | p :: above =>
    let stands (t : FileTree) : Bool := (t.node .target p).toOption.any (·.isDirectory)
    if p.isEmpty then (.ok (), t)
    else match t.makeDirectory p with
      | .ok t => (.ok (), t)
      | .error failure =>
        if failure.kind ≠ .notFound then (if stands t then .ok () else .error failure, t)
        else match t.makeFirst above with
          | (.error failure, t) => (.error failure, t)
          | (.ok (), t) =>
            match t.makeDirectory p with
            | .ok t => (.ok (), t)
            | .error failure => (if stands t then .ok () else .error failure, t)

/-- Makes a directory and those above it. -/
def makeDirectories (t : FileTree) (p : Path) : Except IoFailure Unit × FileTree :=
  t.makeFirst p.ancestors

/-- The outcome of an edit with the tree after it: an edit that fails changes nothing. -/
def settle (t : FileTree) : Except IoFailure FileTree → Except IoFailure Unit × FileTree
  | .ok after => (.ok (), after)
  | .error failure => (.error failure, t)

end FileTree

end DirWatch
