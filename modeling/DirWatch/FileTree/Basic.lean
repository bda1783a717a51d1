import DirWatch.Listing
import DirWatch.Path.Limits

/-! # File trees in memory

A tree of directories, files and symbolic links, with permission bits for its owner, who is the one
to use it. Paths are looked up step by step: every directory on the way has to be searchable, links
are followed except at the end of a path, and two dots lead to the directory that holds the current
one. -/

namespace DirWatch

/-- A node of a file tree. An identity is never used again. -/
inductive Node where
  | file (identity : Identity) (mode : Nat) (modified : Timestamp)
  | link (target : Path) (modified : Timestamp)
  | directory (identity : Identity) (mode : Nat) (entries : List (Name × Node))

namespace Node

def isDirectory : Node → Bool
  | directory .. => true
  | _ => false

/-- The time of last modification; it is not kept for directories. -/
def modified : Node → Option Timestamp
  | file _ _ t | link _ t => some t
  | directory .. => none

def identity : Node → Option Identity
  | file i _ _ | directory i _ _ => some i
  | link .. => none

/-- The entries of a directory in the order in which they came. -/
def entries : Node → List (Name × Node)
  | directory _ _ es => es
  | _ => []

/-- The entry of a directory with a given name. -/
def child? (node : Node) (n : Name) : Option Node :=
  (node.entries.find? fun e => e.1 = n).map (·.2)

/-- The node at the end of a way through directories. -/
def at? (node : Node) : List Name → Option Node
  | [] => some node
  | n :: rest => (node.child? n).bind fun next => next.at? rest

/-- Changes the node at the end of a way through directories. -/
def modifyAt (node : Node) (f : Node → Node) : List Name → Node
  | [] => f node
  | n :: rest =>
    match node with
    | directory i m es =>
      directory i m (es.map fun e => if e.1 = n then (e.1, e.2.modifyAt f rest) else e)
    | node => node

/-- Puts an entry into a directory, in place of one with its name. -/
def put (n : Name) (child : Node) : Node → Node
  | directory i m es => directory i m (es.filter (·.1 ≠ n) ++ [(n, child)])
  | node => node

/-- Takes an entry out of a directory. -/
def drop (n : Name) : Node → Node
  | directory i m es => directory i m (es.filter (·.1 ≠ n))
  | node => node

def setModified (t : Timestamp) : Node → Node
  | file i m _ => file i m t
  | link target _ => link target t
  | node => node

def setMode (mode : Nat) : Node → Node
  | file i _ t => file i mode t
  | directory i _ es => directory i mode es
  | node => node

end Node

/-- What permission bits can allow the owner of a node. -/
inductive Right where
  | read
  | write
  | search
  deriving DecidableEq

namespace Right

/-- The permission bit of a right. -/
def bit : Right → Nat
  | read => 0o400
  | write => 0o200
  | search => 0o100

/-- Whether permission bits give a right. -/
def isGiven (right : Right) (mode : Nat) : Bool := mode &&& right.bit != 0

end Right

/-- How a path is looked up. -/
structure LookUp where
  /-- Whether a link at the end of the path is followed. -/
  follows : Bool := true
  /-- Whether the last name may be missing. -/
  mayMiss : Bool := false
  /-- Whether dots lead on from a directory that may not be searched. -/
  skipsDots : Bool := false

namespace LookUp

/-- Looks for the node that a path leads to. -/
def target : LookUp where

/-- Looks for the node that a path names, even if it is a link. -/
def named : LookUp where
  follows := false

/-- Looks for the place of a file that is to be written. -/
def place : LookUp where
  mayMiss := true

/-- Looks for the names on the way to what a path leads to. -/
def names : LookUp where
  skipsDots := true

/-- Whether a directory may be left through a segment. -/
def allows (look : LookUp) (mode : Nat) (s : Bytes) : Bool :=
  Right.search.isGiven mode || look.skipsDots && (s == [Path.dot] || s == [Path.dot, Path.dot])

end LookUp

/-- A file tree with the number of the next node. -/
structure FileTree where
  top : Node := .directory ⟨0, 0⟩ 0o755 []
  next : Nat := 1

namespace FileTree

/-- How many links are followed on one look-up. -/
def linkLimit : Nat := 40

/-- The segments of a path that mean something. -/
def named (p : Path) : List Bytes := p.segments.filter (· ≠ [])

/-- Whether a slash stands at the end of a path, after a segment. -/
def endsInSlash (p : Path) : Bool := !(named p).isEmpty && p.text.getLast? == some Path.slash

/-- The segments that a look-up goes through; an empty one stands for a slash at the end. -/
def steps (p : Path) : List Bytes := if endsInSlash p then named p ++ [[]] else named p

/-- Follows the steps of a path from a directory on. A link at the end is followed on demand, and
always if a slash comes after it. -/
def walk (t : FileTree) (look : LookUp) (links : Nat) (here : List Name) :
    List Bytes → Except IoFailure (List Name)
  | [] => .ok here
  | s :: rest =>
    match t.top.at? here with
    | none => .error .notFound
    | some (.file ..) | some (.link ..) => .error .notADirectory
    | some (.directory i mode entries) =>
      if s = [] then walk t look links here rest
      else if !look.allows mode s then .error .permissionDenied
      else if s = [Path.dot] then walk t look links here rest
      else if s = [Path.dot, Path.dot] then walk t look links here.dropLast rest
      else if look.mayMiss ∧ rest = [[]] then .error .isADirectory
      else if Name.limit < s.length then .error .nameTooLong
      else
        match Name.ofBytes? s with
        | none => .error .notFound
        | some n =>
          match (Node.directory i mode entries).child? n with
          | none =>
            if look.mayMiss ∧ rest = [] then .ok (here ++ [n]) else .error .notFound
          | some (.link target _) =>
            if rest = [] ∧ !look.follows then .ok (here ++ [n])
            else match links with
              | 0 => .error .tooManyLinks
              | links + 1 =>
                walk t look links (if target.isAbsolute then [] else here) (steps target ++ rest)
          | some _ => walk t look links (here ++ [n]) rest
termination_by segments => (links, segments.length)

/-- Where a path leads: the names on the way from the top, without links. -/
def locate (t : FileTree) (look : LookUp) (p : Path) : Except IoFailure (List Name) :=
  match p.refusal? with
  | some failure => .error failure
  | none => if p.isEmpty then .error .notFound else t.walk look linkLimit [] (steps p)

/-- The node that a path leads to. -/
def node (t : FileTree) (look : LookUp) (p : Path) : Except IoFailure Node := do
  match t.top.at? (← t.locate look p) with
  | some n => .ok n
  | none => .error .notFound

/-- The absolute path of a location. -/
def pathOf (location : List Name) : Path :=
  location.foldl (fun p n => p.child n) ⟨[Path.slash]⟩

/-- The absolute path without links and dots of what a path leads to. Only the answer has to be
short enough for a look-up. -/
def canonical (t : FileTree) (p : Path) : Except IoFailure Path := do
  if p.holdsNul then throw .nulInPath
  if p.isEmpty then throw .notFound
  let found := pathOf (← t.walk .names linkLimit [] (steps p))
  if Path.limit ≤ found.text.length then throw .nameTooLong
  return found

end FileTree

end DirWatch
