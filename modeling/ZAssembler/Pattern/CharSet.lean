/-
  Sets of characters, as ranges of code points in increasing order, both ends included. No two
  ranges touch, so that a set has one form.
-/

namespace ZAssembler

structure CharSet where
  ranges : List (Nat × Nat) := []
  deriving DecidableEq, Repr

namespace CharSet

/-- The highest code point. -/
def last : Nat := 0x10FFFF

def has (s : CharSet) (c : Char) : Bool := s.ranges.any fun (lo, hi) => lo ≤ c.toNat && c.toNat ≤ hi

def isEmpty (s : CharSet) : Bool := s.ranges.isEmpty

/-- All characters are of ASCII. -/
def isAscii (s : CharSet) : Bool := s.ranges.all fun (_, hi) => hi < 128

/-- The only character of a set that has one. -/
def single? (s : CharSet) : Option Char :=
  match s.ranges with
  | [(lo, hi)] => if lo = hi then some (Char.ofNat lo) else none
  | _ => none

/-! ## Building sets -/

/-- Adds a range, and joins it with those that it touches. -/
def insertRange (lo hi : Nat) : List (Nat × Nat) → List (Nat × Nat)
  | [] => [(lo, hi)]
  | (a, b) :: rest =>
    if hi + 1 < a then (lo, hi) :: (a, b) :: rest
    else if b + 1 < lo then (a, b) :: insertRange lo hi rest
    else insertRange (min lo a) (max hi b) rest

def ofPairs (pairs : List (Nat × Nat)) : CharSet :=
  ⟨pairs.foldl (fun ranges (lo, hi) => insertRange lo hi ranges) []⟩

def ofRanges (ranges : List (Char × Char)) : CharSet :=
  ofPairs (ranges.map fun (first, last) => (first.toNat, last.toNat))

def ofChars (cs : List Char) : CharSet := ofRanges (cs.map fun c => (c, c))

def single (c : Char) : CharSet := ofChars [c]

def union (s t : CharSet) : CharSet := ofPairs (s.ranges ++ t.ranges)

/-- The code points from `start` on that lie in none of the ranges. -/
def gaps (start : Nat) : List (Nat × Nat) → List (Nat × Nat)
  | [] => if start ≤ last then [(start, last)] else []
  | (lo, hi) :: rest => (if start < lo then [(start, lo - 1)] else []) ++ gaps (hi + 1) rest

/-- The characters outside a set. -/
def other (s : CharSet) : CharSet := ⟨gaps 0 s.ranges⟩

def meet (s t : CharSet) : CharSet := (s.other.union t.other).other

def without (s t : CharSet) : CharSet := s.meet t.other

/-- The characters of exactly one of two sets. -/
def onlyOne (s t : CharSet) : CharSet := (s.union t).without (s.meet t)

/-- Every character. -/
def all : CharSet := other {}

/-- The part of a range between `first` and `last`, shifted up by `up` and down by `down`. -/
def shifted (first last up down : Nat) (range : Nat × Nat) : List (Nat × Nat) :=
  let lo := max range.1 first
  let hi := min range.2 last
  if lo ≤ hi then [(lo + up - down, hi + up - down)] else []

/-- The set with the capital and small forms of its Latin letters. -/
def anyCase (s : CharSet) : CharSet :=
  ofPairs (s.ranges ++ s.ranges.flatMap (shifted 'A'.toNat 'Z'.toNat 32 0) ++
    s.ranges.flatMap (shifted 'a'.toNat 'z'.toNat 0 32))

/-! ## Classes -/

def digit : CharSet := ofRanges [('0', '9')]

def letter : CharSet := ofRanges [('A', 'Z'), ('a', 'z')]

def word : CharSet := ofRanges [('A', 'Z'), ('a', 'z'), ('0', '9'), ('_', '_')]

def blank : CharSet := ofChars ['\t', '\n', '\x0b', '\x0c', '\r', ' ']

/-- The classes that are known by a name in brackets and colons. -/
def named? : String → Option CharSet
  | "alnum" => some (letter.union digit)
  | "alpha" => some letter
  | "ascii" => some (ofRanges [('\x00', '\x7f')])
  | "blank" => some (ofChars ['\t', ' '])
  | "cntrl" => some (ofRanges [('\x00', '\x1f'), ('\x7f', '\x7f')])
  | "digit" => some digit
  | "graph" => some (ofRanges [('!', '~')])
  | "lower" => some (ofRanges [('a', 'z')])
  | "print" => some (ofRanges [(' ', '~')])
  | "punct" => some ((ofRanges [('!', '~')]).without (letter.union digit))
  | "space" => some blank
  | "upper" => some (ofRanges [('A', 'Z')])
  | "word" => some word
  | "xdigit" => some (ofRanges [('0', '9'), ('A', 'F'), ('a', 'f')])
  | _ => none

end CharSet

end ZAssembler
