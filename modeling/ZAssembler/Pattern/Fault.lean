/-
  What can be wrong with a pattern, and the report of it. Most faults stand somewhere in the text
  of the pattern, and the report shows where.
-/

namespace ZAssembler

inductive PatternCause
  | classEscape
  | classRange
  | classRangeEnd
  | classUnclosed
  | decimalEmpty
  | decimalInvalid
  | hexEmpty
  | hexInvalid
  | hexDigit
  | escapeEnd
  | escapeUnknown
  | flagDangling
  | flagRepeated
  | flagNegatedTwice
  | flagEnd
  | flagUnknown
  | nameRepeated
  | nameEmpty
  | nameInvalid
  | nameEnd
  | groupUnclosed
  | groupUnopened
  | countInvalid
  | countEmpty
  | countUnclosed
  | nothingToRepeat
  | wordEdgeUnclosed
  | wordEdgeUnknown
  | wordEdgeEnd
  | propertyInvalid
  | backreference
  | lookAround
  | unicodeForbidden
  | notUnicode
  | propertyUnknown
  | propertyValueUnknown
  /-- Classes of the letters of all scripts are not known. -/
  | letterClassUnknown
  /-- Capital and small forms of the letters of all scripts are not known. -/
  | caseUnknown
  | nestedTooDeep
  deriving DecidableEq, Repr

/-- How deep the parts of a pattern may be nested. -/
def nestingLimit : Nat := 250

def PatternCause.message : PatternCause → String
  | classEscape => "invalid escape sequence found in character class"
  | classRange => "invalid character class range, the start must be <= the end"
  | classRangeEnd => "invalid range boundary, must be a literal"
  | classUnclosed => "unclosed character class"
  | decimalEmpty => "decimal literal empty"
  | decimalInvalid => "decimal literal invalid"
  | hexEmpty => "hexadecimal literal empty"
  | hexInvalid => "hexadecimal literal is not a Unicode scalar value"
  | hexDigit => "invalid hexadecimal digit"
  | escapeEnd => "incomplete escape sequence, reached end of pattern prematurely"
  | escapeUnknown => "unrecognized escape sequence"
  | flagDangling => "dangling flag negation operator"
  | flagRepeated => "duplicate flag"
  | flagNegatedTwice => "flag negation operator repeated"
  | flagEnd => "expected flag but got end of regex"
  | flagUnknown => "unrecognized flag"
  | nameRepeated => "duplicate capture group name"
  | nameEmpty => "empty capture group name"
  | nameInvalid => "invalid capture group character"
  | nameEnd => "unclosed capture group name"
  | groupUnclosed => "unclosed group"
  | groupUnopened => "unopened group"
  | countInvalid => "invalid repetition count range, the start must be <= the end"
  | countEmpty => "repetition quantifier expects a valid decimal"
  | countUnclosed => "unclosed counted repetition"
  | nothingToRepeat => "repetition operator missing expression"
  | wordEdgeUnclosed =>
    "special word boundary assertion is either unclosed or contains an invalid character"
  | wordEdgeUnknown =>
    "unrecognized special word boundary assertion, valid choices are: " ++
      "start, end, start-half or end-half"
  | wordEdgeEnd =>
    "found either the beginning of a special word boundary or a bounded repetition on a \\b " ++
      "with an opening brace, but no closing brace"
  | propertyInvalid => "invalid Unicode character class"
  | backreference => "backreferences are not supported"
  | lookAround => "look-around, including look-ahead and look-behind, is not supported"
  | unicodeForbidden => "Unicode not allowed here"
  | notUnicode => "pattern can match invalid UTF-8"
  | propertyUnknown => "Unicode property not found"
  | propertyValueUnknown => "Unicode property value not found"
  | letterClassUnknown =>
    "Unicode-aware Perl class not found (make sure the unicode-perl feature is enabled)"
  | caseUnknown =>
    "Unicode-aware case insensitivity matching is not available " ++
      "(make sure the unicode-case feature is enabled)"
  | nestedTooDeep =>
    s!"exceed the maximum number of nested parentheses/brackets ({nestingLimit})"

/-- Characters of a pattern, from `start` up to but not including `stop`. -/
structure Span where
  start : Nat
  stop : Nat
  deriving DecidableEq, Repr

structure PatternFault where
  cause : PatternCause
  span : Span
  /-- What the fault clashes with. -/
  earlier : Option Span := none
  deriving DecidableEq, Repr

namespace PatternFault

/-! ## The report -/

/-- The line and the column of an offset, both counted from 0. -/
def place : List Char → (offset line column : Nat) → Nat × Nat
  | [], _, line, column => (line, column)
  | _, 0, line, column => (line, column)
  | c :: cs, offset + 1, line, column =>
    if c = '\n' then place cs offset (line + 1) 0 else place cs offset line (column + 1)

/-- A span by the lines and columns of its ends. -/
structure Extent where
  line : Nat
  column : Nat
  lastLine : Nat
  stopColumn : Nat
  deriving DecidableEq, Repr

def Extent.of (pattern : List Char) (s : Span) : Extent :=
  let (line, column) := place pattern s.start 0 0
  let (lastLine, stopColumn) := place pattern s.stop 0 0
  { line, column, lastLine, stopColumn }

def Extent.isBefore (a b : Extent) : Bool :=
  a.line < b.line || (a.line == b.line && a.column ≤ b.column)

/-- The spans in the order of their beginnings. -/
def extents (f : PatternFault) (pattern : List Char) : List Extent :=
  let first := Extent.of pattern f.span
  match f.earlier with
  | none => [first]
  | some span =>
    let second := Extent.of pattern span
    if first.isBefore second then [first, second] else [second, first]

/-- Carets under the columns of the spans, from column `done` on. -/
def carets : (done : Nat) → List Extent → String
  | _, [] => ""
  | done, e :: rest =>
    let width := max 1 (e.stopColumn - e.column)
    let blanks := e.column - done
    String.ofList (List.replicate blanks ' ' ++ List.replicate width '^') ++
      carets (done + blanks + width) rest

/-- A line's end is a line feed, or a carriage return before it. -/
def withoutReturn (line : String) : String :=
  if line.endsWith "\r" then (line.dropEnd 1).toString else line

/-- The lines of a pattern; a line feed at its end begins no further line. -/
def linesOf (pattern : String) : List String :=
  let parts := pattern.splitOn "\n"
  let last := parts.getLast?.getD ""
  parts.dropLast.map withoutReturn ++ (if last.isEmpty then [] else [last])

/-- The lines with carets below those that hold a span; lines are numbered if there are more. -/
def marked (pattern : String) (extents : List Extent) : String :=
  let lines := linesOf pattern
  let count := lines.length + (if pattern.endsWith "\n" then 1 else 0)
  let digits := if count ≤ 1 then 0 else (toString count).length
  let indent := String.ofList (List.replicate (if digits = 0 then 4 else digits + 2) ' ')
  let label (index : Nat) : String :=
    if digits = 0 then indent
    else
      let number := toString (index + 1)
      String.ofList (List.replicate (digits - number.length) ' ') ++ number ++ ": "
  String.join ((lines.zipIdx).map fun (line, index) =>
    let here := extents.filter fun e => e.line == index
    label index ++ line ++ "\n" ++
      (if here.isEmpty then "" else indent ++ carets 0 here ++ "\n"))

def report (f : PatternFault) (pattern : String) : String :=
  let extents := f.extents pattern.toList
  let (short, long) := extents.partition fun e => e.line == e.lastLine
  if pattern.any (· == '\n') then
    let divider := String.ofList (List.replicate 79 '~') ++ "\n"
    let notes := long.map fun e =>
      s!"on line {e.line + 1} (column {e.column + 1}) through line {e.lastLine + 1} " ++
        s!"(column {e.stopColumn})"
    "regex parse error:\n" ++ divider ++ marked pattern short ++ divider ++
      (if notes.isEmpty then "" else String.intercalate "\n" notes ++ "\n") ++
      "error: " ++ f.cause.message
  else "regex parse error:\n" ++ marked pattern short ++ "error: " ++ f.cause.message

end PatternFault

/-! ## Faults of the whole -/

/-- How much room a pattern may take, in bytes. -/
def roomLimit : Nat := 10485760

inductive PatternError
  /-- A fault in the text. -/
  | inText (fault : PatternFault)
  /-- The pattern takes too much room. -/
  | tooLarge
  /-- The pattern asks for words of all scripts, whose letters are not known. -/
  | wordsUnknown
  deriving DecidableEq, Repr

def PatternError.report (pattern : String) : PatternError → String
  | inText fault => fault.report pattern
  | tooLarge => s!"Compiled regex exceeds size limit of {roomLimit} bytes."
  | wordsUnknown => "error building NFA"

end ZAssembler
