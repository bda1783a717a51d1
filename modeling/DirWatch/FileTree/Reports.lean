import DirWatch.FileTree.Basic

/-! # What watched nodes report

How the change of a tree looks from the directories in it: which entries left them by their names,
and which nodes went out of existence because another entry took their place. -/

namespace DirWatch

/-- What a watched node reports after a change. -/
inductive Report where
  /-- An entry left a directory. -/
  | departed (directory : Identity) (n : Name)
  /-- A node is gone for good. -/
  | ended (node : Identity)
  deriving DecidableEq

mutual

/-- The directories of a tree, each with its entries. -/
def Node.directories : Node → List (Identity × List (Name × Node))
  | .directory i _ es => (i, es) :: directoriesBelow es
  | .file .. | .link .. => []

/-- The directories in and below some entries. -/
def directoriesBelow : List (Name × Node) → List (Identity × List (Name × Node))
  | [] => []
  | (_, node) :: rest => node.directories ++ directoriesBelow rest

end

/-- What becomes of an entry of a directory whose entries are now these. -/
def Report.ofEntry? (directory : Identity) (now : List (Name × Node)) (entry : Name × Node) :
    Option Report :=
  match now.find? fun e => e.1 = entry.1 with
  | none => some (.departed directory entry.1)
  | some e => if e.2.identity = entry.2.identity then none else entry.2.identity.map .ended

/-- What is reported when one tree takes the place of another. A directory that left the tree has
nothing to report. -/
def FileTree.reports (old new : FileTree) : List Report :=
  old.top.directories.flatMap fun (i, es) =>
    match new.top.directories.find? fun e => e.1 = i with
    | none => []
    | some (_, now) => es.filterMap (Report.ofEntry? i now)

end DirWatch
