import DirWatch.Glob.Matching

/-! # Which paths are observed

A path below the root is hidden when it or one of its ancestors is excluded: by its name, by a
pattern that matches its text, or by a predicate. The empty path stands for the root and is never
hidden. -/

namespace DirWatch

/-- The exclusions of a watcher. -/
structure Filter where
  patterns : List Glob.Pattern := []
  names : List Bytes := []
  predicates : List (Path → Bool) := []

namespace Filter

instance : Inhabited Filter := ⟨{}⟩

/-- Excludes what a further pattern matches. -/
def addPattern (f : Filter) (text : String) : Except Glob.PatternError Filter :=
  (fun p => { f with patterns := f.patterns ++ [p] }) <$> Glob.Pattern.ofString text

/-- Excludes a name wherever it stands. -/
def addName (f : Filter) (name : Bytes) : Filter :=
  if name ∈ f.names then f else { f with names := f.names ++ [name] }

/-- Excludes what a predicate holds of. -/
def addPredicate (f : Filter) (p : Path → Bool) : Filter :=
  { f with predicates := f.predicates ++ [p] }

/-- The filter of patterns, names and predicates; the first bad pattern is the error. -/
def build (patterns : List String) (names : List Bytes) (predicates : List (Path → Bool) := []) :
    Except Glob.PatternError Filter := do
  let f ← patterns.foldlM addPattern {}
  return predicates.foldl addPredicate (names.foldl addName f)

/-- Whether nothing is excluded. -/
def isEmpty (f : Filter) : Bool :=
  f.patterns.isEmpty && f.names.isEmpty && f.predicates.isEmpty

/-- Whether a path itself is excluded, whatever its ancestors are. -/
def excludes (f : Filter) (p : Path) : Bool :=
  p.fileName?.any (fun n => f.names.contains n.bytes)
    || f.patterns.any (·.matchesPath p)
    || f.predicates.any (· p)

/-- Whether a path relative to the root is observed. -/
def allows (f : Filter) (p : Path) : Bool :=
  !(p.ancestors.takeWhile fun q => !q.isEmpty).any f.excludes

/-- The sizes and names of a filter for diagnostics; patterns are shown by their texts. -/
def describe (f : Filter) : String :=
  let names := Text.bracketed "\x7b" "\x7d" (f.names.map Text.quoteBytes)
  "ExcludeFilter \x7b patterns: " ++ Text.quoteList (f.patterns.map (·.text))
    ++ ", excluded_dirs: " ++ names
    ++ ", matchers: " ++ toString f.predicates.length ++ " \x7d"

end Filter

/-- Collects exclusions. Patterns are not read before the filter is built, and a name is kept
once. -/
structure FilterBuilder where
  patterns : List String := []
  names : List Bytes := []
  predicates : List (Path → Bool) := []

namespace FilterBuilder

instance : Inhabited FilterBuilder := ⟨{}⟩

def addPattern (b : FilterBuilder) (text : String) : FilterBuilder :=
  { b with patterns := b.patterns ++ [text] }

def addPatterns (b : FilterBuilder) (texts : List String) : FilterBuilder :=
  { b with patterns := b.patterns ++ texts }

def addName (b : FilterBuilder) (name : Bytes) : FilterBuilder :=
  { b with names := b.names.insert name }

def addNames (b : FilterBuilder) (names : List Bytes) : FilterBuilder :=
  { b with names := names.foldr List.insert b.names }

def addPredicate (b : FilterBuilder) (p : Path → Bool) : FilterBuilder :=
  { b with predicates := b.predicates ++ [p] }

/-- Reads the patterns; the first bad one is the error. -/
def build (b : FilterBuilder) : Except Glob.PatternError Filter :=
  Filter.build b.patterns b.names b.predicates

end FilterBuilder

end DirWatch
