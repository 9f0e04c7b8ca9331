import ZAssembler.Pattern.Reader

/-
  The parts of a pattern that begin with a backslash: characters that would mean something else,
  characters by number, classes, and edges.
-/

namespace ZAssembler.Pattern.Reading

/-! ## Characters by number -/

/-- The character of a number, read from `start` to `stop`. -/
def charOf (digits : List Char) (start stop : Nat) : Reading Char := do
  let n := numberOf 16 digits
  if n.isValidChar then return Char.ofNat n
  fail .hexInvalid start stop

def readFixedDigits : (count : Nat) → Reading (List Char)
  | 0 => return []
  | count + 1 => do
    match ← peek with
    | none => failHere .escapeEnd
    | some c =>
      if (digitValue? c).isNone then failAtChar .hexDigit
      next
      return c :: (← readFixedDigits count)

/-- Reads digits up to a closing brace; `brace` is where the opening one stands. -/
def readBracedChar (brace : Nat) : Reading Char := do
  next
  let start := brace + 1
  let digits ← readWhile (fun c => (digitValue? c).isSome) (← get).size
  let stop ← offset
  match ← peek with
  | none => fail .escapeEnd brace stop
  | some '\x7d' =>
    next
    if digits.isEmpty then fail .hexEmpty brace (← offset)
    charOf digits start stop
  | some _ => failAtChar .hexDigit

/-- Reads a character by number, from the letter on that says how many digits it has. The escape
    begins at `escape`. -/
def readNumberedChar (escape : Nat) (letter : Char) : Reading Literal := do
  next
  if ← isDone then failHere .escapeEnd
  let start ← offset
  if (← peek) = some '\x7b' then
    let c ← readBracedChar start
    return { char := c, span := ⟨escape, ← offset⟩ }
  else
    let count := if letter = 'x' then 2 else if letter = 'u' then 4 else 8
    let digits ← readFixedDigits count
    let c ← charOf digits start (← offset)
    return { char := c, span := ⟨escape, ← offset⟩, isByte := letter == 'x' }

/-! ## Classes and edges -/

/-- Reads the name of a property. -/
def readProperty (start : Nat) : Reading Atom := do
  next
  let name ← match ← peek with
    | none => failHere .escapeEnd
    | some '\x7b' =>
      next
      let name ← readWhile (· ≠ '\x7d') (← get).size
      if ← isDone then failHere .escapeEnd
      skip 1
      pure name
    | some '\\' => failAtChar .propertyInvalid
    | some c =>
      next
      pure [c]
  return .property (String.ofList name) ⟨start, ← offset⟩

def isWordEdgeChar (c : Char) : Bool := c.isAlpha || c == '-'

/-- Reads the name in braces after a word edge that begins at `start`; none if the braces hold
    no name. -/
def readWordEdge? (start : Nat) : Reading (Option WordEdge) := do
  let before ← get
  next
  match ← peek with
  | none => fail .wordEdgeEnd start (← offset)
  | some c =>
    if !isWordEdgeChar c then
      set before
      return none
    let nameStart ← offset
    let name ← readWhile isWordEdgeChar (← get).size
    let nameStop ← offset
    if (← peek) ≠ some '\x7d' then fail .wordEdgeUnclosed before.offset nameStop
    skip 1
    match String.ofList name with
    | "start" => return some .start
    | "end" => return some .finish
    | "start-half" => return some .startHalf
    | "end-half" => return some .finishHalf
    | _ => fail .wordEdgeUnknown nameStart nameStop

/-- The characters that an escape always makes literal: all of ASCII except letters, digits and
    angle brackets. -/
def isEscapable (c : Char) : Bool := c.toNat < 128 && !c.isAlphanum && c != '<' && c != '>'

/-- The character or the edge that a letter after a backslash stands for. -/
def escapedLetter? : Char → Option (Char ⊕ EdgeMark)
  | 'a' => some (.inl '\x07')
  | 'f' => some (.inl '\x0c')
  | 't' => some (.inl '\t')
  | 'n' => some (.inl '\n')
  | 'r' => some (.inl '\r')
  | 'v' => some (.inl '\x0b')
  | 'A' => some (.inr .textStart)
  | 'z' => some (.inr .textEnd)
  | 'b' => some (.inr (.word .boundary))
  | 'B' => some (.inr (.word .notBoundary))
  | '<' => some (.inr (.word .start))
  | '>' => some (.inr (.word .finish))
  | _ => none

/-- Reads an escape that begins at `start`, from the character after the backslash on. -/
def readEscaped (start : Nat) (c : Char) : Reading Tree := do
  if c.isDigit then fail .backreference start ((← offset) + 1)
  else if c ∈ ['x', 'u', 'U'] then return .atom (.literal (← readNumberedChar start c))
  else if c ∈ ['p', 'P'] then return .atom (← readProperty start)
  else
    skip 1
    let span : Span := ⟨start, ← offset⟩
    if c ∈ ['d', 's', 'w', 'D', 'S', 'W'] then return .atom (.letterClass c span)
    if isEscapable c then return .atom (.literal { char := c, span })
    if c = 'b' ∧ (← peek) = some '\x7b' then
      let side ← readWordEdge? start
      return .edge (.word (side.getD .boundary)) ⟨start, ← offset⟩
    match escapedLetter? c with
    | some (.inl c) => return .atom (.literal { char := c, span })
    | some (.inr mark) => return .edge mark span
    | none => fail .escapeUnknown span.start span.stop

/-- Reads an escape, from its backslash on. -/
def readEscape : Reading Tree := do
  let start ← offset
  skip 1
  match ← peek with
  | none => fail .escapeEnd start (← offset)
  | some c => readEscaped start c

end ZAssembler.Pattern.Reading
