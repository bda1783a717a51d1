/-! # Glob patterns

A pattern is a sequence of tokens: single characters, `?` for any one, sets in square brackets, `*`
for any sequence, and `**` for whole components. Slashes and leading dots are ordinary characters.
-/

namespace DirWatch.Glob

/-- A member of a set of characters. -/
inductive CharSpec where
  | single (c : Char)
  | range (first last : Char)
  deriving DecidableEq

/-- Whether a character belongs to a member of a set; ranges include both ends. -/
def CharSpec.covers : CharSpec → Char → Bool
  | single a, c => c == a
  | range a b, c => a ≤ c && c ≤ b

/-- What a part of a pattern stands for. -/
inductive Token where
  | char (c : Char)
  | anyChar
  | within (set : List CharSpec)
  | except (set : List CharSpec)
  | anySequence
  | anyComponents
  deriving DecidableEq

/-- What can be wrong with a pattern. -/
inductive Fault where
  | wildcards
  | recursive
  | range
  deriving DecidableEq

/-- A fault and the number of characters before it. -/
structure PatternError where
  position : Nat
  fault : Fault
  deriving DecidableEq

def Fault.message : Fault → String
  | wildcards => "wildcards are either regular `*` or recursive `**`"
  | recursive => "recursive wildcards must form a single path component"
  | range => "invalid range pattern"

def PatternError.message (e : PatternError) : String :=
  s!"Pattern syntax error near position {e.position}: {e.fault.message}"

/-- The members of a set: three characters with a dash between them are a range. -/
def charSpecs : List Char → List CharSpec
  | a :: '-' :: b :: rest => .range a b :: charSpecs rest
  | a :: rest => .single a :: charSpecs rest
  | [] => []

/-- Cuts a set off at its closing bracket, which cannot be its first character. -/
def closeSet : List Char → Option (List Char × List Char)
  | [] => none
  | first :: rest =>
    match rest.dropWhile (· != ']') with
    | [] => none
    | _ :: after => some (first :: rest.takeWhile (· != ']'), after)

/-- Reads a set after its opening bracket. -/
def charSet? : List Char → Option (Token × List Char)
  | '!' :: rest => (closeSet rest).map fun (set, after) => (.except (charSpecs set), after)
  | rest => (closeSet rest).map fun (set, after) => (.within (charSpecs set), after)

theorem closeSet_length {cs set after : List Char} (h : closeSet cs = some (set, after)) :
    after.length < cs.length := by
  cases cs with
  | nil => simp [closeSet] at h
  | cons first rest =>
    have hle := (List.dropWhile_suffix (l := rest) (· != ']')).length_le
    simp only [closeSet] at h
    split at h
    · simp at h
    · next heq =>
      simp only [Option.some.injEq, Prod.mk.injEq] at h
      rw [heq] at hle
      simp only [List.length_cons, ← h.2] at hle ⊢
      omega

theorem charSet?_length {cs after : List Char} {t : Token} (h : charSet? cs = some (t, after)) :
    after.length < cs.length := by
  unfold charSet? at h
  split at h
  all_goals
    obtain ⟨⟨set, rest'⟩, hc, he⟩ := Option.map_eq_some_iff.1 h
    simp only [Prod.mk.injEq] at he
    have hl := closeSet_length hc
    simp only [List.length_cons, ← he.2]
    omega

/-- Reads the tokens of the characters after the first `position`, of which `before` is the last.
A slash right after `**` belongs to it. -/
def tokens (position : Nat) (before : Option Char) (cs : List Char) :
    Except PatternError (List Token) :=
  match cs with
  | [] => .ok []
  | '?' :: rest => (.anyChar :: ·) <$> tokens (position + 1) (some '?') rest
  | '[' :: rest =>
    match _h : charSet? rest with
    | none => .error ⟨position, .range⟩
    | some (token, after) =>
      (token :: ·) <$> tokens (position + 1 + (rest.length - after.length)) (some ']') after
  | '*' :: '*' :: '*' :: _ => .error ⟨position + 2, .wildcards⟩
  | '*' :: '*' :: rest =>
    if before.any (· != '/') then .error ⟨position - 1, .recursive⟩
    else match rest with
      | [] => .ok [.anyComponents]
      | '/' :: rest => (.anyComponents :: ·) <$> tokens (position + 3) (some '/') rest
      | _ :: _ => .error ⟨position + 2, .recursive⟩
  | '*' :: rest => (.anySequence :: ·) <$> tokens (position + 1) (some '*') rest
  | c :: rest => (.char c :: ·) <$> tokens (position + 1) (some c) rest
termination_by cs.length
decreasing_by
  all_goals try (simp only [List.length_cons]; omega)
  have := charSet?_length _h
  simp only [List.length_cons]
  omega

/-- A pattern that was read from its text. -/
structure Pattern where
  text : String
  tokens : List Token
  deriving DecidableEq

/-- Reads a pattern. -/
def Pattern.ofString (text : String) : Except PatternError Pattern :=
  (Pattern.mk text ·) <$> Glob.tokens 0 none text.toList

end DirWatch.Glob
