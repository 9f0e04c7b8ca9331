import ZAssembler.Pattern.Bracket
import ZAssembler.Text.Letter

/-
  Reading a pattern's text as a tree of its parts.
-/

namespace ZAssembler.Pattern

namespace Reading

/-! ## Groups -/

/-- Reads the letters of flags, up to a colon or a closing parenthesis; `seen` are those before,
    each with its place. -/
def readFlags : (fuel : Nat) → (seen : List (Char × Nat)) → Reading (List (Char × Nat))
  | 0, seen => return seen
  | fuel + 1, seen => do
    let here ← offset
    match ← peek with
    | none => failHere .flagEnd
    | some c =>
      if c = ':' ∨ c = ')' then
        match seen.getLast? with
        | some ('-', place) => fail .flagDangling place (place + 1)
        | _ => return seen
      if c ∉ ['-', 'i', 'm', 's', 'R', 'u', 'U', 'x'] then failAtChar .flagUnknown
      if let some place := seen.lookup c then
        let cause := if c = '-' then .flagNegatedTwice else .flagRepeated
        throw { cause, span := ⟨here, here + 1⟩, earlier := some ⟨place, place + 1⟩ }
      skip 1
      readFlags fuel (seen ++ [(c, here)])

def isNameStart (c : Char) : Bool := c == '_' || Text.isLetter c

def isNameChar (c : Char) : Bool :=
  isNameStart c || c == '.' || c == '[' || c == ']' || Text.isNumber c

/-- Reads the characters of a name, up to a closing angle bracket. -/
def readNameChars (start : Nat) : (fuel : Nat) → Reading (List Char)
  | 0 => return []
  | fuel + 1 => do
    match ← peek with
    | none => failHere .nameEnd
    | some c =>
      if c = '>' then return []
      let fits := if (← offset) = start then isNameStart c else isNameChar c
      if !fits then failAtChar .nameInvalid
      skip 1
      return c :: (← readNameChars start fuel)

/-- Reads the name of a group; no two groups may have the same. -/
def readName : Reading Unit := do
  let start ← offset
  let name ← readNameChars start ((← get).size + 1)
  let stop ← offset
  skip 1
  if name.isEmpty then fail .nameEmpty start start
  let text := String.ofList name
  match (← get).names.lookup text with
  | some earlier => throw { cause := .nameRepeated, span := ⟨start, stop⟩, earlier := some earlier }
  | none => modify fun r => { r with names := r.names ++ [(text, ⟨start, stop⟩)] }

/-- Begins a group that opened at `start`. -/
def enterGroup (start : Nat) (flags : Option (List Char)) : Reading Unit :=
  modify fun r =>
    { r with
      branches := { start := r.offset, branchStart := r.offset }
      groups := { start, flags, spaced := r.spaced, outer := r.branches } :: r.groups }

/-- Counts blanks or not, as flags say. -/
def changeSpaced (letters : List Char) : Reading Unit :=
  modify fun r => { r with spaced := ({ spaced := r.spaced : Flags }.changeAll letters).spaced }

/-- Reads flags that stand by themselves, or the flags of a group. -/
def openFlags (start inner : Nat) : Reading Unit := do
  if ← isDone then fail .groupUnclosed start (start + 1)
  let letters := (← readFlags ((← get).size + 1) []).map (·.1)
  let alone := (← peek) == some ')'
  skip 1
  if alone then
    if letters.isEmpty then fail .nothingToRepeat inner inner
    push (.flags letters ⟨start, ← offset⟩)
  else enterGroup start (some letters)
  changeSpaced letters

def openGroup : Reading Unit := do
  let start ← offset
  next
  let inner ← offset
  for ahead in ["?=", "?!", "?<=", "?<!"] do
    if ← skipWord ahead then fail .lookAround start (← offset)
  if (← skipWord "?P<") || (← skipWord "?<") then
    readName
    enterGroup start none
  else if ← skipWord "?" then openFlags start inner
  else enterGroup start none

def closeGroup : Reading Unit := do
  let r ← get
  match r.groups with
  | [] => failAtChar .groupUnopened
  | opened :: groups =>
    let body := r.branches.tree r.offset
    set { r with spaced := opened.spaced, groups, branches := opened.outer }
    skip 1
    push (.group opened.flags body ⟨opened.start, ← offset⟩)

def nextBranch : Reading Unit := do
  modify fun r => { r with branches := r.branches.next r.offset }
  skip 1

/-! ## Repetition -/

/-- Takes off the item before an operator. -/
def takeItem : Reading Tree := do
  let r ← get
  match r.branches.items with
  | [] | .flags _ _ :: _ => failHere .nothingToRepeat
  | item :: items =>
    set { r with branches := { r.branches with items } }
    return item

/-- Adds a repetition, after the mark that makes it lazy. -/
def pushLoop (least : Nat) (most : Option Nat) (body : Tree) : Reading Unit := do
  let _ ← skipWord "?"
  push (.loop least most body ⟨body.span.start, ← offset⟩)

def readRepetition (least : Nat) (most : Option Nat) : Reading Unit := do
  let body ← takeItem
  skip 1
  pushLoop least most body

/-- Reads a decimal number of 32 bits, with blanks around it. What is wrong with it is told when
    the number is needed. -/
def readCount : Reading (Except PatternFault Nat) := do
  let blanks := (← get).rest.takeWhile Text.isBlank
  skip blanks.length
  let start ← offset
  let digits ← readWhile Char.isDigit (← get).size
  let span : Span := ⟨start, ← offset⟩
  let _ ← readWhile Text.isBlank (← get).size
  if digits.isEmpty then return .error { cause := .countEmpty, span }
  let n := numberOf 10 digits
  if n < 4294967296 then return .ok n else return .error { cause := .decimalInvalid, span }

def checkCount : Except PatternFault Nat → Reading Nat
  | .ok n => return n
  | .error fault => throw fault

/-- The braces that opened at `start` do not close. -/
def failOpenBraces {α : Type} (start : Nat) : Reading α := do
  fail .countUnclosed start (← offset)

/-- Reads the least and the most number of rounds between the braces that opened at `start`. -/
def readCounts (start : Nat) : Reading (Nat × Option Nat) := do
  let first ← readCount
  if ← isDone then failOpenBraces start
  if (← peek) ≠ some ',' then
    let n ← checkCount first
    return (n, some n)
  next
  if ← isDone then failOpenBraces start
  let least ← checkCount first
  if (← peek) = some '\x7d' then return (least, none)
  let most ← checkCount (← readCount)
  return (least, some most)

/-- Reads a repetition with counts in braces. -/
def readCounted : Reading Unit := do
  let body ← takeItem
  let start ← offset
  next
  if ← isDone then failOpenBraces start
  let (least, most) ← readCounts start
  if (← peek) ≠ some '\x7d' then failOpenBraces start
  next
  pushLoop least most body
  if most.any (· < least) then fail .countInvalid start (← offset)

/-! ## The whole pattern -/

/-- Reads a part of the pattern that begins with `c`. -/
def readPart (c : Char) : Reading Unit := do
  let span : Span := ⟨← offset, (← offset) + 1⟩
  match c with
  | '(' => openGroup
  | ')' => closeGroup
  | '|' => nextBranch
  | '[' => push (← readBrackets)
  | '?' => readRepetition 0 (some 1)
  | '*' => readRepetition 0 none
  | '+' => readRepetition 1 none
  | '\x7b' => readCounted
  | '\\' => push (← readEscape)
  | c =>
    skip 1
    match c with
    | '.' => push (.dot span)
    | '^' => push (.edge .start span)
    | '$' => push (.edge .stop span)
    | c => push (.atom (.literal { char := c, span }))

/-- Reads parts up to the end of the text; each takes at least one character. -/
def readParts : (fuel : Nat) → Reading Unit
  | 0 => return
  | fuel + 1 => do
    skipBlanks
    match ← peek with
    | none => return
    | some c =>
      readPart c
      readParts fuel

def readWhole : Reading Tree := do
  readParts ((← get).size + 1)
  let r ← get
  match r.groups with
  | opened :: _ => fail .groupUnclosed opened.start (opened.start + 1)
  | [] => return r.branches.tree r.offset

end Reading

/-- The tree of a pattern's text. -/
def Tree.read (text : String) : Except PatternFault Tree :=
  Reading.readWhole.run' { rest := text.toList, size := text.length }

end ZAssembler.Pattern
