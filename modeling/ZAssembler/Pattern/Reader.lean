import ZAssembler.Pattern.Flags
import ZAssembler.Pattern.Tree
import ZAssembler.Text.Blank

/-
  The state of reading a pattern, and the steps that all parts of a pattern share.
-/

namespace ZAssembler.Pattern

/-- The branches of a group as far as they are read. -/
structure Branches where
  /-- Where the first branch begins. -/
  start : Nat := 0
  /-- The branches that are complete, last one first. -/
  closed : List Tree := []
  /-- Where the last branch begins. -/
  branchStart : Nat := 0
  /-- The items of the last branch, last one first. -/
  items : List Tree := []

/-- The branches before a bar at `offset`, and a new one behind it. -/
def Branches.next (b : Branches) (offset : Nat) : Branches :=
  { b with
    closed := .ofItems b.items.reverse ⟨b.branchStart, offset⟩ :: b.closed
    branchStart := offset + 1
    items := [] }

/-- The tree of a group that ends at `offset`. -/
def Branches.tree (b : Branches) (offset : Nat) : Tree :=
  .ofBranches (b.next offset).closed.reverse ⟨b.start, offset⟩

/-- A group that is still open, with what stands before it. -/
structure OpenGroup where
  start : Nat
  flags : Option (List Char)
  /-- Blanks do not count outside the group. -/
  spaced : Bool
  outer : Branches

structure Reader where
  rest : List Char
  /-- The length of the whole text, which bounds how often anything is read. -/
  size : Nat
  offset : Nat := 0
  /-- Blanks do not count. -/
  spaced : Bool := false
  branches : Branches := {}
  groups : List OpenGroup := []
  names : List (String × Span) := []

abbrev Reading := StateT Reader (Except PatternFault)

namespace Reading

/-- Drops blanks and comments; a comment runs from a number sign to the end of its line. -/
def dropBlanks : (inComment : Bool) → List Char → List Char
  | _, [] => []
  | true, c :: cs => dropBlanks (c != '\n') cs
  | false, c :: cs =>
    if Text.isBlank c then dropBlanks false cs
    else if c == '#' then dropBlanks true cs
    else c :: cs

def peek : Reading (Option Char) := return (← get).rest.head?

def isDone : Reading Bool := return (← get).rest.isEmpty

def offset : Reading Nat := return (← get).offset

/-- Goes past `n` characters. -/
def skip (n : Nat) : Reading Unit :=
  modify fun r =>
    { r with rest := r.rest.drop n, offset := r.offset + (r.rest.take n).length }

/-- Goes past blanks where they do not count. -/
def skipBlanks : Reading Unit := do
  let r ← get
  if r.spaced then skip (r.rest.length - (dropBlanks false r.rest).length)

/-- Goes past a character and the blanks after it. -/
def next : Reading Unit := do
  skip 1
  skipBlanks

/-- Goes past a word if it comes next. -/
def skipWord (word : String) : Reading Bool := do
  if word.toList.isPrefixOf (← get).rest then
    skip word.length
    return true
  return false

def fail {α : Type} (cause : PatternCause) (start stop : Nat) : Reading α :=
  throw { cause, span := ⟨start, stop⟩ }

/-- A fault at a place between characters. -/
def failHere {α : Type} (cause : PatternCause) : Reading α := do
  fail cause (← offset) (← offset)

/-- A fault of the next character. -/
def failAtChar {α : Type} (cause : PatternCause) : Reading α := do
  fail cause (← offset) ((← offset) + 1)

def push (item : Tree) : Reading Unit :=
  modify fun r => { r with branches := { r.branches with items := item :: r.branches.items } }

/-- Reads characters as long as they pass a test, and the blanks after each. -/
def readWhile (test : Char → Bool) : (fuel : Nat) → Reading (List Char)
  | 0 => return []
  | fuel + 1 => do
    match ← peek with
    | none => return []
    | some c =>
      if test c then
        next
        return c :: (← readWhile test fuel)
      return []

/-- The value of a hexadecimal digit. -/
def digitValue? (c : Char) : Option Nat :=
  if c.isDigit then some (c.toNat - '0'.toNat)
  else if 'a' ≤ c ∧ c ≤ 'f' then some (c.toNat - 'a'.toNat + 10)
  else if 'A' ≤ c ∧ c ≤ 'F' then some (c.toNat - 'A'.toNat + 10)
  else none

/-- The number that digits stand for. -/
def numberOf (base : Nat) (digits : List Char) : Nat :=
  digits.foldl (fun n c => base * n + (digitValue? c).getD 0) 0

end Reading

end ZAssembler.Pattern
