import ZAssembler.Version
import ZAssembler.Word

/-
  Z-strings. Text is written as Z-characters, five-bit codes packed three to a word; the word that
  ends a string has its top bit set. A character has a code in one of three alphabets, reached by a
  shift code, or is escaped as a ten-bit character code; a text that repeats an abbreviation may
  refer to it instead.
-/

namespace ZAssembler.ZText

/-! ## Alphabets -/

def alphabet0 : List Char := "abcdefghijklmnopqrstuvwxyz".toList

def alphabet1 : List Char := "ABCDEFGHIJKLMNOPQRSTUVWXYZ".toList

/-- The third alphabet from code 8 on; code 7 is the newline. -/
def alphabet2 : List Char := "0123456789.,!?_#'\"/\\-:()".toList

/-- The third alphabet of version 1, from code 7 on. -/
def alphabet2Early : List Char := "0123456789.,!?_#'\"/\\<-:()".toList

/-- How a character is written. -/
inductive Glyph
  | space
  | newline
  | lower (code : Nat)
  | upper (code : Nat)
  | sign (code : Nat)
  | escape (code : Nat)
  deriving DecidableEq, Repr

/-- The character code an escape writes; all but printable ASCII becomes a question mark. -/
def escapeCode (c : Char) : Nat := if 0x20 ≤ c.toNat ∧ c.toNat ≤ 0x7E then c.toNat else 63

def glyph (v : Version) (c : Char) : Glyph :=
  if c = ' ' then .space
  else if c = '\n' then .newline
  else
    match alphabet0.idxOf? c, alphabet1.idxOf? c with
    | some i, _ => .lower (6 + i)
    | none, some i => .upper (6 + i)
    | none, none =>
      match (if v = .v1 then alphabet2Early else alphabet2).idxOf? c with
      | some i => .sign ((if v = .v1 then 7 else 8) + i)
      | none => .escape (escapeCode c)

/-- The code that shifts one character to the second alphabet. -/
def shift1 (v : Version) : Nat := if v.hasLegacyShifts then 2 else 4

/-- The code that shifts one character to the third alphabet. -/
def shift2 (v : Version) : Nat := if v.hasLegacyShifts then 3 else 5

def Glyph.zchars (v : Version) : Glyph → List Nat
  | .space => [0]
  | .newline => if v = .v1 then [1] else [shift2 v, 7]
  | .lower code => [code]
  | .upper code => [shift1 v, code]
  | .sign code => [shift2 v, code]
  | .escape code => [shift2 v, 6, code / 32 % 32, code % 32]

/-- The Z-characters of one character. -/
def charZchars (v : Version) (c : Char) : List Nat := (glyph v c).zchars v

/-! ## Cost -/

/-- Z-characters that a character takes with the standard alphabets. -/
def charCost (c : Char) : Nat :=
  match glyph .standard c with
  | .space | .lower _ => 1
  | .upper _ | .sign _ | .newline => 2
  | .escape _ => 4

/-- Z-characters that a text takes with the standard alphabets. -/
def zcharCount : List Char → Nat
  | [] => 0
  | c :: rest => charCost c + zcharCount rest

/-- The cost of a text: the count of its Z-characters as a 32-bit number, which wraps. -/
def cost (text : List Char) : Nat := zcharCount text % 4294967296

/-- Z-characters that a reference to an abbreviation takes. -/
def referenceCost : Nat := 2

/-! ## Packing -/

/-- The code that fills up the last word. -/
def padCode : Nat := 5

/-- A text without Z-characters still takes one word. -/
def padded (zchars : List Nat) : List Nat :=
  if zchars.isEmpty then [padCode, padCode, padCode]
  else zchars ++ List.replicate ((3 - zchars.length % 3) % 3) padCode

/-- The word of three Z-characters; the last word of a string is marked. -/
def packedWord (a b c : Nat) (last : Bool) : UInt16 :=
  UInt16.ofNat ((if last then 32768 else 0) + a % 32 * 1024 + b % 32 * 32 + c % 32)

/-- Words of whole triples; the one that ends the list is marked. -/
def packTriples : List Nat → List UInt8
  | a :: b :: c :: rest => wordBytes (packedWord a b c rest.isEmpty) ++ packTriples rest
  | _ => []

def pack (zchars : List Nat) : List UInt8 := packTriples (padded zchars)

/-! ## Encoding with abbreviations -/

inductive AbbreviationError
  | tooMany (version : Version) (limit : Nat)
  | empty
  deriving DecidableEq, Repr

def AbbreviationError.message : AbbreviationError → String
  | .tooMany version limit => s!"Version {version.number} allows at most {limit} abbreviations"
  | .empty => "Abbreviation text is empty"

/-- An encoder for one version and the abbreviations registered so far. -/
structure Encoder where
  version : Version
  abbreviations : List String := []
  deriving DecidableEq, Repr

namespace Encoder

def limit (e : Encoder) : Nat := e.version.abbreviationBanks * 32

/-- Registers an abbreviation for later texts and gives its number. -/
def register (e : Encoder) (text : String) : Except AbbreviationError (Nat × Encoder) :=
  if text.isEmpty then .error .empty
  else if e.limit ≤ e.abbreviations.length then .error (.tooMany e.version e.limit)
  else .ok (e.abbreviations.length, { e with abbreviations := e.abbreviations ++ [text] })

/-- Forgets all but the first `count` abbreviations. -/
def truncate (e : Encoder) (count : Nat) : Encoder :=
  { e with abbreviations := e.abbreviations.take count }

/-- The longest of `candidates`, numbered from `index`, that `text` starts with; of equals the
    first. Gives its number and length. -/
def longestFrom (text : List Char) (index : Nat) : List String → Option (Nat × Nat)
  | [] => none
  | a :: rest =>
    let later := longestFrom text (index + 1) rest
    if a.toList.isPrefixOf text then
      match later with
      | some (i, n) => if a.toList.length < n then some (i, n) else some (index, a.toList.length)
      | none => some (index, a.toList.length)
    else later

def longest (e : Encoder) (text : List Char) : Option (Nat × Nat) :=
  longestFrom text 0 e.abbreviations

/-- Z-characters of a text of which the first `skip` characters are already covered. -/
def zcharsFrom (e : Encoder) (substitute : Bool) : Nat → List Char → List Nat
  | _, [] => []
  | skip + 1, _ :: rest => zcharsFrom e substitute skip rest
  | 0, c :: rest =>
    match if substitute then e.longest (c :: rest) else none with
    | some (index, length) =>
      (1 + index / 32) :: index % 32 :: zcharsFrom e substitute (length - 1) rest
    | none => charZchars e.version c ++ zcharsFrom e substitute 0 rest

/-- The Z-characters of a text, left to right; with `substitute`, the longest abbreviation that
    starts at a place is referred to. -/
def zchars (e : Encoder) (substitute : Bool) (text : String) : List Nat :=
  e.zcharsFrom substitute 0 text.toList

/-- The Z-string of a text, with references where the version has abbreviations. -/
def encode (e : Encoder) (text : String) : List UInt8 :=
  pack (e.zchars (0 < e.version.abbreviationBanks) text)

/-- The Z-string of a text without references. -/
def encodePlain (e : Encoder) (text : String) : List UInt8 := pack (e.zchars false text)

end Encoder

end ZAssembler.ZText
