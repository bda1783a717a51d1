import DirWatch.Text.Quoted

/-! # Paths

A path keeps its text, and is compared by its components: empty pieces and inner dots do not count,
two dots stay a component of their own. Names are the components that a directory can list. -/

namespace DirWatch

namespace Path

def slash : UInt8 := 0x2F

def dot : UInt8 := 0x2E

end Path

/-- A file name: what a directory lists, so neither empty nor a dot or two, and without a slash. -/
structure Name where
  bytes : Bytes
  valid : bytes ≠ [] ∧ bytes ≠ [Path.dot] ∧ bytes ≠ [Path.dot, Path.dot] ∧ Path.slash ∉ bytes
  deriving DecidableEq

namespace Name

/-- The name with these bytes, if they can be one. -/
def ofBytes? (bytes : Bytes) : Option Name :=
  if h : bytes ≠ [] ∧ bytes ≠ [Path.dot] ∧ bytes ≠ [Path.dot, Path.dot] ∧ Path.slash ∉ bytes then
    some ⟨bytes, h⟩
  else none

instance : Ord Name := ⟨compareOn (·.bytes)⟩

instance : Std.TransOrd Name :=
  inferInstanceAs (Std.TransCmp (compareOn fun n : Name => n.bytes))

instance : Std.LawfulEqOrd Name where
  compare_self {a} := (Std.ReflOrd.compare_self : compare a.bytes a.bytes = .eq)
  eq_of_compare {a b} h := by
    have h : compare a.bytes b.bytes = .eq := h
    cases a; cases b
    simpa using Std.LawfulEqOrd.eq_of_compare h

end Name

/-- One step of a path. -/
inductive Component where
  | root
  | current
  | parent
  | name (n : Name)
  deriving DecidableEq

namespace Component

/-- The place of a component among the kinds of components. -/
def rank : Component → Nat
  | root => 0
  | current => 1
  | parent => 2
  | name _ => 3

/-- The bytes that order components of one kind. -/
def bytes : Component → Bytes
  | name n => n.bytes
  | _ => []

/-- Components are ordered by kind, names then by their bytes. -/
instance : Ord Component := ⟨compareLex (compareOn rank) (compareOn bytes)⟩

instance : Std.TransOrd Component :=
  inferInstanceAs (Std.TransCmp (compareLex (compareOn rank) (compareOn bytes)))

theorem eq_of_rank_of_bytes {a b : Component} (hr : a.rank = b.rank) (hb : a.bytes = b.bytes) :
    a = b := by
  cases a <;> cases b <;> simp_all [rank, bytes]
  rename_i m n
  cases m; cases n; simpa using hb

instance : Std.LawfulEqOrd Component where
  compare_self {a} := by
    change (compare a.rank a.rank).then (compare a.bytes a.bytes) = .eq
    simp
  eq_of_compare {a b} h := by
    have h : (compare a.rank b.rank).then (compare a.bytes b.bytes) = .eq := h
    rw [Ordering.then_eq_eq] at h
    exact eq_of_rank_of_bytes (Std.LawfulEqOrd.eq_of_compare h.1)
      (Std.LawfulEqOrd.eq_of_compare h.2)

end Component

/-- A path as it was written. -/
structure Path where
  text : Bytes
  deriving DecidableEq

namespace Path

instance : Inhabited Path := ⟨⟨[]⟩⟩

/-- The path with this text. -/
def ofString (s : String) : Path := ⟨Utf8.encode s⟩

/-- The path that consists of one name. -/
def ofName (n : Name) : Path := ⟨n.bytes⟩

/-- The text of a path with each ill-formed chunk replaced. -/
def display (p : Path) : String := String.ofList (Utf8.decodeLossy p.text)

/-- The path between double quotes. -/
def quoted (p : Path) : String := Text.quoteBytes p.text

def isEmpty (p : Path) : Bool := p.text.isEmpty

/-- The text between slashes. -/
def segments (p : Path) : List Bytes := p.text.splitOn slash

/-- The component that stands for the beginning of a path: a slash, or a single dot. -/
def head? (p : Path) : Option Component :=
  match p.segments with
  | [] :: _ :: _ => some .root
  | [b] :: _ => if b = dot then some .current else none
  | _ => none

/-- The segments after the beginning of a path. -/
def body (p : Path) : List Bytes := if p.head?.isSome then p.segments.tail else p.segments

/-- What a segment means inside a path: nothing if it is empty or a dot. -/
def componentOf? (segment : Bytes) : Option Component :=
  if segment = [dot, dot] then some .parent else (Name.ofBytes? segment).map .name

/-- The steps of a path. -/
def components (p : Path) : List Component :=
  p.head?.toList ++ p.body.filterMap componentOf?

/-- Paths are ordered by their components. -/
instance : Ord Path := ⟨compareOn components⟩

instance : Std.TransOrd Path :=
  inferInstanceAs (Std.TransCmp (compareOn components))

theorem compare_eq_iff {p q : Path} : compare p q = .eq ↔ p.components = q.components := by
  change compare p.components q.components = .eq ↔ _
  exact Std.LawfulEqOrd.compare_eq_iff_eq

/-- Whether two paths have the same components. -/
def same (p q : Path) : Bool := p.components == q.components

/-- Whether the first components of `p` are those of `q`. -/
def startsWith (p q : Path) : Bool := q.components.isPrefixOf p.components

def isAbsolute (p : Path) : Bool := p.head? == some .root

/-- The path `q` as seen from `p`: an absolute path stands for itself. -/
def join (p q : Path) : Path :=
  if q.isAbsolute then q
  else if p.text.isEmpty || p.text.getLast? == some slash then ⟨p.text ++ q.text⟩
  else ⟨p.text ++ slash :: q.text⟩

/-- The entry of a directory that has a given name. -/
def child (p : Path) (n : Name) : Path := p.join (ofName n)

/-- Text with these segments after a beginning. -/
def render (head : Option Component) (body : List Bytes) : Path :=
  let rest := [slash].intercalate body
  match head with
  | some .root => ⟨slash :: rest⟩
  | some .current => ⟨dot :: if body.isEmpty then [] else slash :: rest⟩
  | _ => ⟨rest⟩

/-- Drops segments without a meaning from the end. -/
def trimEnd (segments : List Bytes) : List Bytes :=
  (segments.reverse.dropWhile fun s => (componentOf? s).isNone).reverse

/-- Drops segments without a meaning from the start. -/
def trimStart (segments : List Bytes) : List Bytes :=
  segments.dropWhile fun s => (componentOf? s).isNone

/-- The path without its last component. -/
def parent? (p : Path) : Option Path :=
  match trimEnd p.body with
  | [] => if p.head? = some .current then some ⟨[]⟩ else none
  | s :: rest => some (render p.head? (trimEnd (s :: rest).dropLast))

/-- The last component, if it is a name. -/
def fileName? (p : Path) : Option Name :=
  match p.components.getLast? with
  | some (.name n) => some n
  | _ => none

/-- What follows the last dot of a file name, if the name does not begin with that dot. -/
def extension? (p : Path) : Option Bytes := do
  let name ← p.fileName?
  let pieces := name.bytes.splitOn dot
  match pieces.dropLast with
  | [] | [[]] => none
  | _ => pieces.getLast?

/-- Drops the first segments up to and including the `n`-th that is a component. -/
def dropSegments : Nat → List Bytes → List Bytes
  | 0, segments => segments
  | _, [] => []
  | n + 1, s :: rest => dropSegments (if (componentOf? s).isSome then n else n + 1) rest

/-- The rest of `p` after the components of `q`. -/
def stripPrefix? (p q : Path) : Option Path :=
  if p.startsWith q then
    match q.components.length with
    | 0 => some (render p.head? (trimEnd p.body))
    | n + 1 =>
      let taken := if p.head?.isSome then n else n + 1
      some (render none (trimEnd (trimStart (dropSegments taken p.body))))
  else none

/-- Walks from a path up to its last ancestor, in at most `n` steps. -/
def ancestorsWithin : Nat → Path → List Path
  | 0, p => [p]
  | n + 1, p => p :: match p.parent? with
    | none => []
    | some q => ancestorsWithin n q

/-- The path itself, its parent, the parent of that, and so on. -/
def ancestors (p : Path) : List Path := ancestorsWithin p.components.length p

example : (ofString "a//b/").ancestors = [ofString "a//b/", ofString "a", ofString ""] := by
  decide +kernel
example : (ofString "/a").ancestors = [ofString "/a", ofString "/"] := by decide +kernel
example : (ofString "./a/./b").ancestors
    = [ofString "./a/./b", ofString "./a", ofString ".", ofString ""] := by decide +kernel
example : (ofString "//a//b/c/").stripPrefix? (ofString "/a") = some (ofString "b/c") := by
  decide +kernel
example : (ofString "a").join (ofString "") = ofString "a/" := by decide +kernel
example : (ofString "/a/.b.c").extension? = some (Utf8.encode "c") := by decide +kernel
example : (ofString "/a/.b").extension? = none := by decide +kernel

end Path

end DirWatch
