import DirWatch.Glob.Pattern
import DirWatch.Path.Basic

/-! # What a pattern matches

A pattern matches a whole text. `**` stands for nothing, for everything up to and including some
slash, or for all that is left; a path that is not well-formed text matches no pattern. The
verdicts on all end parts of a text are computed together, token by token, and agree with
`matchTokens`. -/

namespace DirWatch.Glob

/-- Every end part of a list, the list itself first. -/
def suffixes : List Char → List (List Char)
  | [] => [[]]
  | c :: cs => (c :: cs) :: suffixes cs

/-- What follows a slash of a text, and the empty end. -/
def afterSlash : List Char → List (List Char)
  | [] => [[]]
  | c :: cs => if c == '/' then cs :: afterSlash cs else afterSlash cs

/-- Whether a token that stands for one character stands for this one. -/
def Token.accepts : Token → Char → Bool
  | char a, c => c == a
  | anyChar, _ => true
  | within set, c => set.any (·.covers c)
  | except set, c => !set.any (·.covers c)
  | _, _ => false

/-- Whether tokens match a whole text. -/
def matchTokens : List Token → List Char → Bool
  | [], cs => cs.isEmpty
  | .anySequence :: rest, cs => (suffixes cs).any (matchTokens rest)
  | .anyComponents :: rest, cs => matchTokens rest cs || (afterSlash cs).any (matchTokens rest)
  | _ :: _, [] => false
  | t :: rest, c :: cs => t.accepts c && matchTokens rest cs

/-! ## All end parts at once -/

/-- For each end part, whether a verdict on it or on a shorter one is positive. -/
def someSuffix : List Bool → List Bool
  | [] => []
  | b :: bs =>
    let rest := someSuffix bs
    (b || rest.headD false) :: rest

/-- For each end part, whether a verdict on what follows one of its slashes is positive. -/
def someAfterSlash : List Char → List Bool → List Bool
  | c :: cs, _ :: bs =>
    let rest := someAfterSlash cs bs
    ((c == '/' && bs.headD false) || rest.headD false) :: rest
  | _, bs => bs

/-- For each end part, whether its first character is accepted and the verdict on the rest of it is
positive. -/
def afterOne (t : Token) : List Char → List Bool → List Bool
  | c :: cs, _ :: bs => (t.accepts c && bs.headD false) :: afterOne t cs bs
  | _, bs => bs.map fun _ => false

/-- For each end part of a text, the longest first, whether tokens match it. -/
def verdicts : List Token → List Char → List Bool
  | [], cs => (suffixes cs).map (·.isEmpty)
  | .anySequence :: rest, cs => someSuffix (verdicts rest cs)
  | .anyComponents :: rest, cs =>
    let vs := verdicts rest cs
    List.zipWith (· || ·) vs (someAfterSlash cs vs)
  | t :: rest, cs => afterOne t cs (verdicts rest cs)

theorem headD_map_suffixes (f : List Char → Bool) (cs : List Char) :
    ((suffixes cs).map f).headD false = f cs := by
  cases cs <;> rfl

theorem someSuffix_map (f : List Char → Bool) (cs : List Char) :
    someSuffix ((suffixes cs).map f) = (suffixes cs).map fun s => (suffixes s).any f := by
  induction cs with
  | nil => simp [suffixes, someSuffix]
  | cons c cs ih =>
    simp only [suffixes, List.map_cons, someSuffix, ih, List.any_cons]
    rw [headD_map_suffixes fun s => (suffixes s).any f]

theorem someAfterSlash_map (f : List Char → Bool) (cs : List Char) :
    someAfterSlash cs ((suffixes cs).map f)
      = (suffixes cs).map fun s => (afterSlash s).any f := by
  induction cs with
  | nil => simp [suffixes, someAfterSlash, afterSlash]
  | cons c cs ih =>
    simp only [suffixes, List.map_cons, someAfterSlash, ih, headD_map_suffixes]
    by_cases h : c = '/' <;> simp [h, afterSlash]

theorem afterOne_map (t : Token) (f : List Char → Bool) (cs : List Char) :
    afterOne t cs ((suffixes cs).map f) = (suffixes cs).map fun
      | [] => false
      | c :: cs => t.accepts c && f cs := by
  induction cs with
  | nil => rfl
  | cons c cs ih => simp only [suffixes, List.map_cons, afterOne, ih, headD_map_suffixes]

/-- The verdicts are those of matching each end part on its own. -/
theorem verdicts_eq (ts : List Token) (cs : List Char) :
    verdicts ts cs = (suffixes cs).map (matchTokens ts) := by
  induction ts with
  | nil => rfl
  | cons t rest ih =>
    cases t with
    | anySequence => simp only [verdicts, ih, someSuffix_map]; rfl
    | anyComponents =>
      simp only [verdicts, ih, someAfterSlash_map, List.zipWith_map, List.zipWith_self]
      rfl
    | char | anyChar | within | except =>
      simp only [verdicts, ih, afterOne_map]
      congr 1
      funext s
      cases s <;> rfl

/-- Whether a pattern matches the text of a path. -/
def Pattern.matchesPath (p : Pattern) (path : Path) : Bool :=
  (Utf8.decode? path.text).any fun cs => (verdicts p.tokens cs).headD false

theorem Pattern.matchesPath_eq (p : Pattern) (path : Path) :
    p.matchesPath path = (Utf8.decode? path.text).any (matchTokens p.tokens) := by
  simp only [matchesPath, verdicts_eq, headD_map_suffixes]

end DirWatch.Glob
