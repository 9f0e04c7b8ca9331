import ZAssembler.Pattern.Machine
import ZAssembler.Pattern.Meaning
import ZAssembler.Pattern.Room

/-
  From the text of a pattern to the machine that finds it. Faults of form come first, then parts
  that are nested too deep, then parts without a meaning, and last what makes the whole impossible
  to build.
-/

namespace ZAssembler

/-- The pattern that a text stands for. -/
def Pattern.read (text : String) : Except PatternFault Pattern := do
  let tree ← Pattern.Tree.read text
  match tree.tooDeep? 0 with
  | some span => Pattern.refuse .nestedTooDeep span
  | none => return (← tree.meaning {}).1

/-- A pattern has to fit as a machine in both directions. -/
def Pattern.check (p : Pattern) : Except PatternError Unit := do
  if roomLimit < p.machineRoom false then throw .tooLarge
  if p.asksForWords then throw .wordsUnknown
  if roomLimit < p.machineRoom true then throw .tooLarge

/-- The machine for the pattern of a text. -/
def Pattern.Machine.ofText (text : String) : Except PatternError Pattern.Machine := do
  let p ← (Pattern.read text).mapError .inText
  p.check
  return .ofPattern p

end ZAssembler
