import ZAssembler.ZText

/-
  The choice of abbreviations. A finder collects the literal text of a story, segment by segment,
  with a zero byte between segments, and with it candidates: every maximal run of characters
  between delimiters, alone and with the delimiter on its left, on its right, or on both sides.
  Selection takes the candidate that saves most Z-characters, overwrites its occurrences with zero
  bytes, and goes on with what is left.

  Occurrences are counted left to right without overlap. A candidate's first occurrence is its own
  definition, so `count` occurrences save `count - 1` uses, less one reference.
-/

namespace ZAssembler.Abbreviation

/-- The byte between segments and in the place of text that is already covered. -/
def gap : UInt8 := 0

def isDelimiter (c : Char) : Bool := " .,!?;:()-\"\n".toList.contains c

def utf8 (text : List Char) : List UInt8 := text.flatMap String.utf8EncodeChar

/-! ## Occurrences -/

/-- Counts on from `found`, when the next `skip` bytes belong to the last occurrence. -/
def countFrom (needle : List UInt8) : Nat → Nat → List UInt8 → Nat
  | found, _, [] => found
  | found, skip + 1, _ :: rest => countFrom needle found skip rest
  | found, 0, b :: rest =>
    if needle.isPrefixOf (b :: rest) then countFrom needle (found + 1) (needle.length - 1) rest
    else countFrom needle found 0 rest

/-- Occurrences of `needle`, left to right without overlap; an empty one has none. -/
def countOccurrences (hay needle : List UInt8) : Nat :=
  if needle.isEmpty then 0 else countFrom needle 0 0 hay

/-- Overwrites on, when the next `skip` bytes belong to the last occurrence; `done` is what has
    been passed, last byte first. -/
def eraseFrom (needle : List UInt8) : List UInt8 → Nat → List UInt8 → List UInt8
  | done, _, [] => done.reverse
  | done, skip + 1, _ :: rest => eraseFrom needle (gap :: done) skip rest
  | done, 0, b :: rest =>
    if needle.isPrefixOf (b :: rest) then eraseFrom needle (gap :: done) (needle.length - 1) rest
    else eraseFrom needle (b :: done) 0 rest

/-- Overwrites the occurrences that `countOccurrences` counts. -/
def erase (hay needle : List UInt8) : List UInt8 :=
  if needle.isEmpty then hay else eraseFrom needle [] 0 hay

/-! ## Candidates -/

structure Candidate where
  text : String
  /-- Z-characters that a reference saves against the text. -/
  perUse : Nat
  deriving DecidableEq, Repr

/-- A run of characters between delimiters, with the delimiters that touch it. -/
structure Token where
  left : Option Char
  chars : List Char
  right : Option Char
  deriving DecidableEq, Repr

/-- Tokens of `text`, after the character `before`; `run` holds the token being read, last
    character first. -/
def tokensFrom (before : Option Char) (run : List Char) : List Char → List Token
  | [] => if run.isEmpty then [] else [⟨before, run.reverse, none⟩]
  | c :: rest =>
    if isDelimiter c then
      if run.isEmpty then tokensFrom (some c) [] rest
      else ⟨before, run.reverse, some c⟩ :: tokensFrom (some c) [] rest
    else tokensFrom before (c :: run) rest

def tokens (text : List Char) : List Token := tokensFrom none [] text

/-- The texts a token offers: alone, with its left, its right, and both delimiters. -/
def Token.offers (t : Token) : List (List Char) :=
  let left := t.left.toList
  let right := t.right.toList
  [t.chars] ++ (if left.isEmpty then [] else [left ++ t.chars]) ++
    (if right.isEmpty then [] else [t.chars ++ right]) ++
    (if left.isEmpty || right.isEmpty then [] else [left ++ t.chars ++ right])

/-! ## Finder -/

structure Finder where
  text : Array UInt8 := #[]
  /-- In the order in which they were first seen. -/
  candidates : Array Candidate := #[]
  deriving DecidableEq, Repr, Inhabited

/-- A restore point: how much text and how many candidates there were. -/
structure Checkpoint where
  textLength : Nat
  candidateCount : Nat
  deriving DecidableEq, Repr

namespace Finder

/-- Keeps a text as a candidate if it is new and longer than a reference. -/
def offer (candidates : Array Candidate) (text : List Char) : Array Candidate :=
  let name := String.ofList text
  let cost := ZText.cost text
  if candidates.any (·.text == name) then candidates
  else if cost ≤ ZText.referenceCost then candidates
  else candidates.push { text := name, perUse := cost - ZText.referenceCost }

/-- Appends a segment and its candidates; zero characters are left out, and an empty text adds
    nothing. -/
def add (f : Finder) (text : String) : Finder :=
  if text.isEmpty then f
  else
    let chars := text.toList.filter (· != '\x00')
    let separated := if f.text.isEmpty then f.text else f.text.push gap
    { text := separated ++ (utf8 chars).toArray
      candidates := ((tokens chars).flatMap Token.offers).foldl offer f.candidates }

def checkpoint (f : Finder) : Checkpoint :=
  { textLength := f.text.size, candidateCount := f.candidates.size }

/-- Forgets the text and the candidates after a checkpoint. -/
def rollback (f : Finder) (c : Checkpoint) : Finder :=
  { text := f.text.take c.textLength, candidates := f.candidates.take c.candidateCount }

end Finder

/-! ## Selection -/

/-- A chosen abbreviation: Z-characters saved, occurrences replaced, text. -/
structure Choice where
  savings : Int
  count : Nat
  text : String
  deriving DecidableEq, Repr

def savings (count perUse : Nat) : Int := (count - 1) * perUse - ZText.referenceCost

/-- A candidate with what it is worth on the text that is left. -/
structure Scored where
  candidate : Candidate
  count : Nat
  savings : Int
  deriving DecidableEq, Repr

def score (hay : List UInt8) (c : Candidate) : Scored :=
  let count := countOccurrences hay (utf8 c.text.toList)
  { candidate := c, count, savings := savings count c.perUse }

/-- More saved comes first, then more bytes, then the lesser text. -/
def Scored.better (a b : Scored) : Bool :=
  if a.savings ≠ b.savings then b.savings < a.savings
  else if a.candidate.text.utf8ByteSize ≠ b.candidate.text.utf8ByteSize then
    b.candidate.text.utf8ByteSize < a.candidate.text.utf8ByteSize
  else a.candidate.text < b.candidate.text

def best : List Scored → Option Scored
  | [] => none
  | s :: rest =>
    match best rest with
    | some t => some (if t.better s then t else s)
    | none => some s

/-- Up to `max` choices; a candidate that saves nothing is dropped for good. -/
def selectFrom : Nat → List UInt8 → List Candidate → List Choice
  | 0, _, _ => []
  | max + 1, hay, candidates =>
    let worthwhile := (candidates.map (score hay)).filter (0 < ·.savings)
    match best worthwhile with
    | none => []
    | some s =>
      let others := (worthwhile.filter (·.candidate.text != s.candidate.text)).map (·.candidate)
      { savings := s.savings, count := s.count, text := s.candidate.text } ::
        selectFrom max (erase hay (utf8 s.candidate.text.toList)) others

/-- Up to `max` abbreviations, best first. -/
def Finder.results (f : Finder) (max : Nat) : List Choice :=
  selectFrom max f.text.toList f.candidates.toList

/-! ## Listing -/

/-- A text as it stands between quotes: a quote is written twice. -/
def quoted (text : String) : String :=
  String.ofList (text.toList.flatMap fun c => if c = '"' then ['"', '"'] else [c])

def declaration (number : Nat) (c : Choice) : String :=
  s!"\t.FSTR FSTR?{number},\"{quoted c.text}\"\t\t; {c.count}x, saves {c.savings}\n"

def reference (number : Nat) : String := s!"\tFSTR?{number}\n"

/-- Source lines that declare the abbreviations and their table. -/
def listing (choices : List Choice) : String :=
  if choices.isEmpty then ""
  else
    let numbers := List.range' 1 choices.length
    String.join (List.zipWith declaration numbers choices) ++ "WORDS::\n" ++
      String.join (numbers.map reference)

end ZAssembler.Abbreviation
