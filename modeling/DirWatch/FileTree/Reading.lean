import DirWatch.FileTree.Basic
import DirWatch.Host

/-! # Reading a file tree

What is seen of a tree: metadata, without following a link at the end of a path, and the entries of
a directory. A directory that may be read but not searched shows its entries without metadata. -/

namespace DirWatch

def Node.isLink : Node → Bool
  | link .. => true
  | _ => false

/-- The metadata of a node. -/
def Node.metadata (n : Node) : Metadata := ⟨n.isDirectory, n.isLink, n.modified, n.identity⟩

namespace FileTree

/-- The metadata of what a path names. -/
def metadata (t : FileTree) (p : Path) : Except IoFailure Metadata :=
  Node.metadata <$> t.node .named p

/-- The metadata of what a path leads to. -/
def target (t : FileTree) (p : Path) : Except IoFailure Metadata :=
  Node.metadata <$> t.node .target p

/-- The entries of the directory that a path leads to. -/
def readDirectory (t : FileTree) (p : Path) : Except IoFailure (List DirectoryEntry) :=
  match t.node .target p with
  | .error failure => .error failure
  | .ok (.directory _ mode entries) =>
    if !Right.read.isGiven mode then .error .permissionDenied
    else .ok <| entries.map fun (n, node) => {
      name := n
      isDirectory := node.isDirectory
      metadata :=
        if Right.search.isGiven mode then .ok node.metadata
        else .error .permissionDenied }
  | .ok _ => .error .notADirectory

end FileTree

end DirWatch
