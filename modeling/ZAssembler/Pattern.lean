import ZAssembler.Pattern.CharSet

/-
  Patterns that a text may hold somewhere: regular expressions with tests of the place between two
  characters. Patterns are put together by `inOrder`, `anyOf` and `times`. These leave out what
  makes no difference to the matches, which counts for the room that a pattern takes.
-/

namespace ZAssembler

/-- Which side of a word a place has to be on. -/
inductive WordEdge
  | boundary | notBoundary
  | start | finish
  /-- No word character comes before; what follows does not count. -/
  | startHalf
  /-- No word character follows; what comes before does not count. -/
  | finishHalf
  deriving DecidableEq, Repr

/-- A test of a place by the characters on its two sides. -/
inductive Edge
  | textStart
  | textEnd
  /-- With `returns`, a carriage return ends a line too, alone or before a line feed. -/
  | lineStart (returns : Bool)
  | lineEnd (returns : Bool)
  /-- Words are of Latin letters, or else of the letters of all scripts, which are not known. -/
  | word (latin : Bool) (side : WordEdge)
  deriving DecidableEq, Repr

namespace Edge

def holds : Edge → (before after : Option Char) → Bool
  | textStart, before, _ => before.isNone
  | textEnd, _, after => after.isNone
  | lineStart returns, before, after =>
    before.isNone || before == some '\n' ||
      (returns && before == some '\r' && after != some '\n')
  | lineEnd returns, before, after =>
    if returns then
      after.isNone || after == some '\r' || (after == some '\n' && before != some '\r')
    else after.isNone || after == some '\n'
  | word latin side, before, after =>
    let isWord (c : Option Char) : Bool := latin && c.any CharSet.word.has
    match side with
    | .boundary => isWord before != isWord after
    | .notBoundary => isWord before == isWord after
    | .start => !isWord before && isWord after
    | .finish => isWord before && !isWord after
    | .startHalf => !isWord before
    | .finishHalf => !isWord after

end Edge

inductive Pattern
  | empty
  /-- These characters, of which there is at least one. -/
  | text (chars : List Char)
  /-- One character of a set, which has none or several. -/
  | char (set : CharSet)
  | edge (edge : Edge)
  /-- A part whose place in the text is kept. -/
  | group (body : Pattern)
  | seq (first second : Pattern)
  | alt (first second : Pattern)
  /-- The body, at least `least` times and at most `most` times. -/
  | loop (least : Nat) (most : Option Nat) (body : Pattern)
  deriving DecidableEq, Repr

namespace Pattern

/-! ## Measures -/

/-- The length of the shortest match, with 1 for any character; none if there may be no match. -/
def shortest? : Pattern → Option Nat
  | empty | edge _ => some 0
  | text chars => some chars.length
  | char set => if set.isEmpty then none else some 1
  | group body => body.shortest?
  | seq first second => do return (← first.shortest?) + (← second.shortest?)
  | alt first second => do return min (← first.shortest?) (← second.shortest?)
  | loop least _ body => do return least * (← body.shortest?)

/-- No match holds a character. -/
def isWidthless : Pattern → Bool
  | empty | edge _ => true
  | text _ | char _ => false
  | group body => body.isWidthless
  | seq first second | alt first second => first.isWidthless && second.isWidthless
  | loop _ most body => most.isSome && body.isWidthless

/-- Some part is kept. -/
def hasGroup : Pattern → Bool
  | empty | edge _ | text _ | char _ => false
  | group _ => true
  | seq first second | alt first second => first.hasGroup || second.hasGroup
  | loop _ _ body => body.hasGroup

/-- Some edge of a word of any script is asked for. -/
def asksForWords : Pattern → Bool
  | empty | text _ | char _ => false
  | edge (.word latin _) => !latin
  | edge _ => false
  | group body | loop _ _ body => body.asksForWords
  | seq first second | alt first second => first.asksForWords || second.asksForWords

/-! ## Patterns one after the other -/

def ofSet (set : CharSet) : Pattern :=
  match set.single? with
  | some c => text [c]
  | none => char set

/-- The patterns that a pattern is a sequence of. -/
def parts : Pattern → List Pattern
  | empty => []
  | seq first second => first.parts ++ second.parts
  | p => [p]

/-- Puts a part before others; texts that meet become one. -/
def joinText (part : Pattern) (parts : List Pattern) : List Pattern :=
  match part, parts with
  | text cs, text ds :: rest => text (cs ++ ds) :: rest
  | _, _ => part :: parts

def chain : List Pattern → Pattern
  | [] => empty
  | [p] => p
  | p :: ps => seq p (chain ps)

def inOrder (ps : List Pattern) : Pattern := chain ((ps.flatMap parts).foldr joinText [])

/-! ## One of several patterns -/

def branches : Pattern → List Pattern
  | alt first second => first.branches ++ second.branches
  | p => [p]

def choice : List Pattern → Pattern
  | [] => char {}
  | [p] => p
  | p :: ps => alt p (choice ps)

/-- The set of a pattern that is one character. -/
def charOf? : Pattern → Option CharSet
  | text [c] => some (.single c)
  | _ => none

def setOf? : Pattern → Option CharSet
  | char set => some set
  | _ => none

/-- The parts that two sequences begin with. Kept parts are never the same. -/
def commonParts : List Pattern → List Pattern → List Pattern
  | a :: as, b :: bs => if a = b ∧ !a.hasGroup then a :: commonParts as bs else []
  | _, _ => []

/-- The parts that all branches begin with, if each of them is a sequence. -/
def lead (branches : List Pattern) : List Pattern :=
  let sequences := branches.map parts
  match sequences with
  | [] => []
  | first :: rest =>
    if sequences.all (2 ≤ ·.length) then rest.foldl commonParts first else []

/-- One of the branches. Single characters become a set, and so do several sets; what sequences
    begin with is written once, which may be done `fuel` times. -/
def anyOfWithin : (fuel : Nat) → List Pattern → Pattern
  | 0, ps => choice ps
  | fuel + 1, ps =>
    let ps := ps.flatMap branches
    if ps.length < 2 then choice ps
    else
      match (ps.mapM charOf?).or (ps.mapM setOf?) with
      | some sets => ofSet (sets.foldl .union {})
      | none =>
        let common := lead ps
        if common.isEmpty then choice ps
        else
          let rests := ps.map fun p => inOrder (p.parts.drop common.length)
          inOrder (common ++ [anyOfWithin fuel rests])

/-- Each time that a beginning is taken off, the sequences have fewer parts. -/
def anyOf (ps : List Pattern) : Pattern :=
  anyOfWithin (1 + (ps.flatMap parts).length + (ps.flatMap branches).length) ps

/-! ## Repetition -/

/-- A pattern, at least `least` times and at most `most` times. One whose matches hold no
    character need not be matched twice. -/
def times (least : Nat) (most : Option Nat) (body : Pattern) : Pattern :=
  let (least, most) :=
    if body.isWidthless then (min least 1, some (min (most.getD 1) 1)) else (least, most)
  if most = some 0 then empty
  else if least = 1 ∧ most = some 1 then body
  else loop least most body

end Pattern

end ZAssembler
