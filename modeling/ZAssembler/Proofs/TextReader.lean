import ZAssembler.Version

/-
  How the machine reads a Z-string. Three Z-characters are taken from each word, up to the word with
  the top bit set. A Z-character below 6 is a space, a new line, a shift or the first half of a
  reference to an abbreviation, and the version tells which; any other is a place in the alphabet
  that is in force. The first place of the third alphabet opens a character code of ten bits.

  The alphabets are written out here from the machine's own rules and not from the assembler's
  tables. An abbreviation is itself a Z-string, and it refers to no other.
-/

namespace ZAssembler.Machine

/-! ## Words -/

/-- The three Z-characters of a word. -/
def wordCodes (word : Nat) : List Nat := [word / 1024 % 32, word / 32 % 32, word % 32]

/-- The words of whole pairs of bytes. -/
def wordsOf : List UInt8 → List Nat
  | high :: low :: rest => (high.toNat * 256 + low.toNat) :: wordsOf rest
  | _ => []

/-- The bytes are whole words, of which the last is marked and no other. -/
structure EndMarked (bytes : List UInt8) : Prop where
  whole : bytes.length % 2 = 0
  marks : ∃ front last, wordsOf bytes = front ++ [last] ∧ 32768 ≤ last ∧
    ∀ word ∈ front, word < 32768

/-- The Z-characters of the string at the start of `bytes`, and the bytes after it. -/
def readWords : List UInt8 → Option (List Nat × List UInt8)
  | high :: low :: rest =>
    let word := high.toNat * 256 + low.toNat
    if 32768 ≤ word then some (wordCodes word, rest)
    else (readWords rest).map fun (codes, rest) => (wordCodes word ++ codes, rest)
  | _ => none

/-! ## Alphabets -/

inductive Alphabet
  | lower | upper | sign
  deriving DecidableEq, Repr

/-- Versions 1 and 2 go round the alphabets in this order. -/
def Alphabet.next : Alphabet → Alphabet
  | lower => upper
  | upper => sign
  | sign => lower

def Alphabet.previous : Alphabet → Alphabet
  | lower => sign
  | upper => lower
  | sign => upper

/-- The third alphabet from Z-character 7 on. -/
def signs (v : Version) : List Char :=
  if v = .v1 then "0123456789.,!?_#'\"/\\<-:()".toList else "\n0123456789.,!?_#'\"/\\-:()".toList

/-- The character of a Z-character from 6 on; the escape of the third alphabet apart. -/
def letter (v : Version) : Alphabet → Nat → Option Char
  | .lower, code => if code < 32 then some (Char.ofNat (code - 6 + 'a'.toNat)) else none
  | .upper, code => if code < 32 then some (Char.ofNat (code - 6 + 'A'.toNat)) else none
  | .sign, code => (signs v)[code - 7]?

/-- The character of a ten-bit code: a new line or printable ASCII. -/
def character (code : Nat) : Option Char :=
  if code = 13 then some '\n'
  else if 32 ≤ code ∧ code ≤ 126 then some (Char.ofNat code)
  else none

/-! ## Texts -/

/-- What a Z-character below 6 stands for. -/
inductive Control
  | print (c : Char)
  /-- The next Z-character is read in another alphabet. -/
  | shift (alphabet : Alphabet)
  /-- All that follows is read in another alphabet. -/
  | lock (alphabet : Alphabet)
  /-- The next Z-character counts from the first abbreviation of a bank. -/
  | reference (bank : Nat)
  deriving DecidableEq, Repr

/-- The rules for Z-characters below 6, when `locked` is the alphabet in force. -/
def Control.of (v : Version) (locked : Alphabet) : Nat → Control
  | 0 => .print ' '
  | 1 => if v = .v1 then .print '\n' else .reference 0
  | 2 => if v.number ≤ 2 then .shift locked.next else .reference 1
  | 3 => if v.number ≤ 2 then .shift locked.previous else .reference 2
  | 4 => if v.number ≤ 2 then .lock locked.next else .shift .upper
  | _ => if v.number ≤ 2 then .lock locked.previous else .shift .sign

/-- What the next Z-character is. -/
inductive Expected
  | letter (alphabet : Alphabet)
  /-- The second half of a reference. -/
  | index (bank : Nat)
  /-- The high half of a character code. -/
  | high
  /-- The low half of a character code. -/
  | low (high : Nat)
  deriving DecidableEq, Repr

/-- The text of Z-characters, when `locked` is the alphabet in force. A reference or a character
    code that the string breaks off prints nothing. -/
def readCodes (v : Version) (abbreviation : Nat → Option (List Char)) (locked : Alphabet) :
    Expected → List Nat → Option (List Char)
  | _, [] => some []
  | .index bank, code :: rest => do
    let text ← abbreviation (32 * bank + code)
    (readCodes v abbreviation locked (.letter locked) rest).map (text ++ ·)
  | .high, code :: rest => readCodes v abbreviation locked (.low code) rest
  | .low high, code :: rest => do
    let c ← character (32 * high + code)
    (readCodes v abbreviation locked (.letter locked) rest).map (c :: ·)
  | .letter alphabet, code :: rest =>
    if code < 6 then
      match Control.of v locked code with
      | .print c => (readCodes v abbreviation locked (.letter locked) rest).map (c :: ·)
      | .shift next => readCodes v abbreviation locked (.letter next) rest
      | .lock next => readCodes v abbreviation next (.letter next) rest
      | .reference bank => readCodes v abbreviation locked (.index bank) rest
    else if alphabet = .sign ∧ code = 6 then readCodes v abbreviation locked .high rest
    else do
      let c ← letter v alphabet code
      (readCodes v abbreviation locked (.letter locked) rest).map (c :: ·)

/-- The text of the Z-characters of a string. -/
def printCodes (v : Version) (abbreviation : Nat → Option (List Char)) (codes : List Nat) :
    Option (List Char) :=
  readCodes v abbreviation .lower (.letter .lower) codes

/-- Reads a string that refers to the abbreviations that `abbreviation` gives. -/
def readString (v : Version) (abbreviation : Nat → Option (List Char)) (bytes : List UInt8) :
    Option (List Char × List UInt8) := do
  let (codes, rest) ← readWords bytes
  (printCodes v abbreviation codes).map fun text => (text, rest)

/-- Reads the string at the start of `bytes`, where `table` holds the Z-strings of the
    abbreviations. -/
def readText (v : Version) (table : List (List UInt8)) (bytes : List UInt8) :
    Option (List Char × List UInt8) :=
  readString v (fun index => do (readString v (fun _ => none) (← table[index]?)).map (·.1)) bytes

end ZAssembler.Machine
