import ZAssembler.Pattern
import ZAssembler.Pattern.Fault

/-
  The parts of a pattern's text, each with the characters that it covers. What they stand for
  depends on the flags at their place.
-/

namespace ZAssembler.Pattern

/-! ## Single characters and classes -/

structure Literal where
  char : Char
  span : Span
  /-- It is given by two hexadecimal digits. -/
  isByte : Bool := false
  deriving DecidableEq, Repr

inductive Atom
  | literal (literal : Literal)
  /-- A class that is known by a letter; a capital stands for the characters outside it. -/
  | letterClass (letter : Char) (span : Span)
  | property (name : String) (span : Span)
  deriving DecidableEq, Repr

def Atom.span : Atom → Span
  | literal l => l.span
  | letterClass _ span | property _ span => span

/-! ## Sets in brackets -/

inductive SetOperator
  | meet | without | onlyOne
  deriving DecidableEq, Repr

inductive SetTree
  | empty (span : Span)
  | atom (atom : Atom)
  | range (first last : Literal)
  /-- A class that is known by a name. -/
  | named (set : CharSet) (negated : Bool) (span : Span)
  | brackets (negated : Bool) (body : SetTree) (span : Span)
  | union (items : List SetTree) (span : Span)
  | operator (op : SetOperator) (left right : SetTree) (span : Span)

namespace SetTree

def span : SetTree → Span
  | atom a => a.span
  | range first last => ⟨first.span.start, last.span.stop⟩
  | empty span | named _ _ span | brackets _ _ span | union _ span | operator _ _ _ span => span

mutual

/-- The first part that is nested deeper than allowed, inside `depth` others. -/
def tooDeep? (depth : Nat) : SetTree → Option Span
  | empty _ | atom _ | range _ _ | named _ _ _ => none
  | brackets _ body span =>
    if nestingLimit ≤ depth then some span else tooDeep? (depth + 1) body
  | union items span =>
    if nestingLimit ≤ depth then some span else anyTooDeep? (depth + 1) items
  | operator _ left right span =>
    if nestingLimit ≤ depth then some span
    else (tooDeep? (depth + 1) left).or (tooDeep? (depth + 1) right)

def anyTooDeep? (depth : Nat) : List SetTree → Option Span
  | [] => none
  | item :: rest => (tooDeep? depth item).or (anyTooDeep? depth rest)

end

end SetTree

/-! ## Whole patterns -/

inductive EdgeMark
  /-- The beginning of the text, or of a line where lines count. -/
  | start
  /-- The end of the text, or of a line where lines count. -/
  | stop
  | textStart
  | textEnd
  | word (side : WordEdge)
  deriving DecidableEq, Repr

inductive Tree
  | empty (span : Span)
  /-- A change of flags. -/
  | flags (letters : List Char) (span : Span)
  | atom (atom : Atom)
  | dot (span : Span)
  | edge (mark : EdgeMark) (span : Span)
  | brackets (negated : Bool) (body : SetTree) (span : Span)
  | loop (least : Nat) (most : Option Nat) (body : Tree) (span : Span)
  /-- A group: one that is kept, or else one with flags of its own. -/
  | group (flags : Option (List Char)) (body : Tree) (span : Span)
  | seq (items : List Tree) (span : Span)
  | alt (branches : List Tree) (span : Span)

namespace Tree

def span : Tree → Span
  | atom a => a.span
  | empty span | flags _ span | dot span | edge _ span | brackets _ _ span | loop _ _ _ span
  | group _ _ span | seq _ span | alt _ span => span

/-- Items one after the other, which cover a span. -/
def ofItems (items : List Tree) (span : Span) : Tree :=
  match items with
  | [] => empty span
  | [item] => item
  | items => seq items span

/-- One of several branches. -/
def ofBranches (branches : List Tree) (span : Span) : Tree :=
  match branches with
  | [branch] => branch
  | branches => alt branches span

mutual

/-- The first part that is nested deeper than allowed, inside `depth` others. -/
def tooDeep? (depth : Nat) : Tree → Option Span
  | empty _ | flags _ _ | atom _ | dot _ | edge _ _ => none
  | brackets _ body span =>
    if nestingLimit ≤ depth then some span else body.tooDeep? (depth + 1)
  | loop _ _ body span | group _ body span =>
    if nestingLimit ≤ depth then some span else tooDeep? (depth + 1) body
  | seq items span | alt items span =>
    if nestingLimit ≤ depth then some span else anyTooDeep? (depth + 1) items

def anyTooDeep? (depth : Nat) : List Tree → Option Span
  | [] => none
  | item :: rest => (tooDeep? depth item).or (anyTooDeep? depth rest)

end

end Tree

end ZAssembler.Pattern
