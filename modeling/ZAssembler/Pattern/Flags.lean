/-
  The flags of a pattern, which change the meaning of what follows them in their group.
-/

namespace ZAssembler.Pattern

/-- What flags turn on or off. -/
structure Flags where
  anyCase : Bool := false
  /-- Line edges count as edges of the text. -/
  lines : Bool := false
  /-- A dot stands for a line feed too. -/
  dotAll : Bool := false
  /-- Carriage returns end lines. -/
  returns : Bool := false
  /-- Classes and words are of all scripts, and a character is never half a character. -/
  unicode : Bool := true
  /-- Blanks and comments between the parts of the pattern do not count. -/
  spaced : Bool := false
  deriving DecidableEq, Repr

namespace Flags

/-- Turns a flag on or off; that of lazy repetition changes nothing in what is found. -/
def change (flags : Flags) (letter : Char) (on : Bool) : Flags :=
  match letter with
  | 'i' => { flags with anyCase := on }
  | 'm' => { flags with lines := on }
  | 's' => { flags with dotAll := on }
  | 'R' => { flags with returns := on }
  | 'u' => { flags with unicode := on }
  | 'x' => { flags with spaced := on }
  | _ => flags

/-- The flags after a run of letters; those after a hyphen are turned off. -/
def changeAll (flags : Flags) (letters : List Char) : Flags :=
  let on := letters.takeWhile (· ≠ '-')
  let off := letters.drop (on.length + 1)
  off.foldl (·.change · false) (on.foldl (·.change · true) flags)

end Flags

end ZAssembler.Pattern
