import DirWatch.Document.Toml.Blank
import DirWatch.Number.Reading

/-! # Quoted text

The four ways to quote a text: on one line or on several, with escapes between double quotes or
without between single ones. Every reader starts after the opening quotes. -/

namespace DirWatch.Document.Toml

/-- A text that was read and what follows it. -/
abbrev Quotation := Option (List Char × List Char)

/-- Puts characters in front of a text that was read. -/
def Quotation.after (cs : List Char) (q : Quotation) : Quotation :=
  q.map fun (text, rest) => (cs ++ text, rest)

/-- The character that a letter after a backslash stands for. -/
def escaped? : Char → Option Char
  | 'b' => some '\x08'
  | 't' => some '\t'
  | 'n' => some '\n'
  | 'f' => some '\x0c'
  | 'r' => some '\r'
  | '"' => some '"'
  | '\\' => some '\\'
  | _ => none

/-- The character with a hexadecimal number. -/
def scalar? (digits : List Char) : Option Char :=
  let n := Number.ofDigits 16 digits
  if digits.all (Number.isDigitOf 16) ∧ n.isValidChar then some (.ofNat n) else none

/-- Reads an escape after its backslash. -/
def escape? : List Char → Option (Char × List Char)
  | 'u' :: a :: b :: c :: d :: rest => (scalar? [a, b, c, d]).map (·, rest)
  | 'U' :: a :: b :: c :: d :: e :: f :: g :: h :: rest =>
    (scalar? [a, b, c, d, e, f, g, h]).map (·, rest)
  | c :: rest => (escaped? c).map (·, rest)
  | [] => none

theorem escape?_length {cs rest : List Char} {c : Char} (h : escape? cs = some (c, rest)) :
    rest.length < cs.length := by
  unfold escape? at h
  split at h <;> simp at h
  all_goals
    obtain ⟨_, _, _, rfl⟩ := h
    simp only [List.length_cons]
    omega

/-- Reads a text on one line between double quotes. -/
def basicText (cs : List Char) : Quotation :=
  match cs with
  | [] => none
  | '"' :: rest => some ([], rest)
  | '\\' :: rest =>
    match _h : escape? rest with
    | none => none
    | some (c, after) => (basicText after).after [c]
  | c :: rest => if isPlain c then (basicText rest).after [c] else none
termination_by cs.length
decreasing_by
  all_goals try (simp only [List.length_cons]; omega)
  have := escape?_length _h
  simp only [List.length_cons]
  omega

/-- Reads a text on one line between single quotes. -/
def literalText : List Char → Quotation
  | [] => none
  | '\'' :: rest => some ([], rest)
  | c :: rest => if isPlain c then (literalText rest).after [c] else none

/-- Drops blanks and ends of lines. -/
def skipBlankLines : List Char → List Char
  | '\r' :: '\n' :: rest => skipBlankLines rest
  | c :: rest => if isBlank c || c == '\n' then skipBlankLines rest else c :: rest
  | [] => []

/-- Drops what a backslash at the end of a line takes with it: the blanks and lines up to the next
character. -/
def skipLineBreak? (cs : List Char) : Option (List Char) :=
  (newline? (skipBlanks cs)).map skipBlankLines

theorem skipBlankLines_length (cs : List Char) : (skipBlankLines cs).length ≤ cs.length := by
  fun_induction skipBlankLines cs <;> simp_all <;> omega

theorem skipLineBreak?_length {cs rest : List Char} (h : skipLineBreak? cs = some rest) :
    rest.length < cs.length := by
  obtain ⟨after, ha, rfl⟩ := Option.map_eq_some_iff.1 h
  exact Nat.lt_of_le_of_lt (skipBlankLines_length _)
    (Nat.lt_of_lt_of_le (newline?_length ha) (skipBlanks_length _))

/-- Closes a text on several lines: of up to five quotes the last three do, and the others belong to
the text. -/
def closing? (quote : Char) : List Char → Quotation
  | a :: b :: c :: rest =>
    if a = quote ∧ b = quote ∧ c = quote then
      match rest with
      | d :: e :: after =>
        if d = quote ∧ e = quote then some ([quote, quote], after)
        else if d = quote then some ([quote], e :: after)
        else some ([], rest)
      | [d] => if d = quote then some ([quote], []) else some ([], rest)
      | [] => some ([], [])
    else none
  | _ => none

/-- Reads a text on several lines between double quotes. Ends of lines count as line feeds. -/
def basicLines (cs : List Char) : Quotation :=
  match closing? '"' cs with
  | some closed => some closed
  | none =>
    match cs with
    | [] => none
    | '\\' :: rest =>
      match _h : skipLineBreak? rest with
      | some after => basicLines after
      | none =>
        match _h : escape? rest with
        | none => none
        | some (c, after) => (basicLines after).after [c]
    | '\n' :: rest => (basicLines rest).after ['\n']
    | '\r' :: '\n' :: rest => (basicLines rest).after ['\n']
    | c :: rest => if isPlain c then (basicLines rest).after [c] else none
termination_by cs.length
decreasing_by
  all_goals try (simp only [List.length_cons]; omega)
  · have := skipLineBreak?_length _h
    simp only [List.length_cons]
    omega
  · have := escape?_length ‹escape? rest = _›
    simp only [List.length_cons]
    omega

/-- Reads a text on several lines between single quotes. Ends of lines count as line feeds. -/
def literalLines (cs : List Char) : Quotation :=
  match closing? '\'' cs with
  | some closed => some closed
  | none =>
    match cs with
    | [] => none
    | '\n' :: rest => (literalLines rest).after ['\n']
    | '\r' :: '\n' :: rest => (literalLines rest).after ['\n']
    | c :: rest => if isPlain c then (literalLines rest).after [c] else none

/-- Drops one end of line right after the opening quotes. -/
def skipFirstNewline (cs : List Char) : List Char := (newline? cs).getD cs

/-- Reads a text on one line, with its opening quote. -/
def lineText : List Char → Quotation
  | '"' :: rest => basicText rest
  | '\'' :: rest => literalText rest
  | _ => none

/-- Reads a text, with its opening quotes. -/
def quotedText : List Char → Quotation
  | '"' :: '"' :: '"' :: rest => basicLines (skipFirstNewline rest)
  | '\'' :: '\'' :: '\'' :: rest => literalLines (skipFirstNewline rest)
  | cs => lineText cs

end DirWatch.Document.Toml
