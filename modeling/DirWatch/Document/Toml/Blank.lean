/-! # Blanks and lines

What stands between the parts of a TOML document: blanks, comments and the ends of lines. -/

namespace DirWatch.Document.Toml

def isBlank (c : Char) : Bool := c == ' ' || c == '\t'

/-- Whether a character may stand in a comment or as itself in a text: no control character does,
the tabulator apart. -/
def isPlain (c : Char) : Bool := c == '\t' || (' ' ≤ c && c != '\x7f')

def skipBlanks (cs : List Char) : List Char := cs.dropWhile isBlank

/-- Drops a comment that stands at the beginning. -/
def skipComment : List Char → List Char
  | '#' :: rest => rest.dropWhile isPlain
  | cs => cs

/-- Takes off the end of a line: a line feed, perhaps after a carriage return. -/
def newline? : List Char → Option (List Char)
  | '\n' :: rest => some rest
  | '\r' :: '\n' :: rest => some rest
  | _ => none

/-- Takes off what may close a line: blanks, a comment, and the end of the line or of the text. -/
def lineEnd? (cs : List Char) : Option (List Char) :=
  match skipComment (skipBlanks cs) with
  | [] => some []
  | rest => newline? rest

theorem newline?_length {cs rest : List Char} (h : newline? cs = some rest) :
    rest.length < cs.length := by
  unfold newline? at h
  split at h
  · cases h
    exact Nat.lt_succ_self _
  · cases h
    exact Nat.lt_succ_of_lt (Nat.lt_succ_self _)
  · cases h

theorem skipBlanks_length (cs : List Char) : (skipBlanks cs).length ≤ cs.length :=
  (List.dropWhile_suffix _).length_le

theorem skipComment_length (cs : List Char) : (skipComment cs).length ≤ cs.length := by
  unfold skipComment
  split
  · exact Nat.le_succ_of_le (List.dropWhile_suffix _).length_le
  · exact Nat.le_refl _

/-- Drops blanks, comments and ends of lines. -/
def skipLines (cs : List Char) : List Char :=
  match _h : newline? (skipComment (skipBlanks cs)) with
  | none => skipComment (skipBlanks cs)
  | some rest => skipLines rest
termination_by cs.length
decreasing_by
  exact Nat.lt_of_lt_of_le (newline?_length _h)
    (Nat.le_trans (skipComment_length _) (skipBlanks_length _))

end DirWatch.Document.Toml
