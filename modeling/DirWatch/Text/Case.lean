/-! # Letter case

Names of settings are compared without regard to case. They are ASCII, and so is the lower case of
the Kelvin sign; other characters have no lower case that could be part of such a name. -/

namespace DirWatch.Text

def lowerChar (c : Char) : Char := if c = '\u212a' then 'k' else c.toLower

def lower (s : String) : String := String.ofList (s.toList.map lowerChar)

end DirWatch.Text
