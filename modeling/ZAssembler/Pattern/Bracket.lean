import ZAssembler.Pattern.Escape

/-
  Sets of characters in brackets: characters, ranges, classes and further brackets, joined by
  being written one after the other, or by an operator of two equal signs. All operators are of
  one rank and join from the left.
-/

namespace ZAssembler.Pattern.Reading

/-- The items of a set that are read so far. -/
structure SetItems where
  /-- Where the items begin, or would begin. -/
  start : Nat
  /-- The items, last one first. -/
  items : List SetTree := []

namespace SetItems

def push (s : SetItems) (item : SetTree) : SetItems := { s with items := item :: s.items }

def tree (s : SetItems) : SetTree :=
  match s.items.reverse with
  | [] => .empty ⟨s.start, s.start⟩
  | [item] => item
  | first :: rest =>
    .union (first :: rest) ⟨first.span.start, (s.items.headD first).span.stop⟩

end SetItems

/-- What is open around the set that is being read. -/
inductive SetFrame
  /-- A bracket, what its opening covers, and the items before it. -/
  | bracket (opening : Span) (negated : Bool) (outer : SetItems)
  | operator (op : SetOperator) (left : SetTree)

/-- Joins a set to what an operator left waiting. -/
def closeOperator (set : SetTree) : List SetFrame → SetTree × List SetFrame
  | .operator op left :: frames =>
    (.operator op left set ⟨left.span.start, set.span.stop⟩, frames)
  | frames => (set, frames)

def failUnclosed {α : Type} (frames : List SetFrame) : Reading α :=
  match frames.findSome? fun
    | .bracket opening _ _ => some opening
    | .operator _ _ => none with
  | some opening => fail .classUnclosed opening.start opening.stop
  | none => failHere .classUnclosed

/-- Reads a class by its name in brackets and colons, if one comes next. -/
def readNamed? : Reading (Option SetTree) := do
  let r ← get
  match r.rest with
  | '[' :: ':' :: rest =>
    let negated := rest.head? == some '^'
    let rest := if negated then rest.drop 1 else rest
    let name := rest.takeWhile (· ≠ ':')
    match CharSet.named? (String.ofList name), rest.drop name.length with
    | some set, ':' :: ']' :: _ =>
      let length := name.length + (if negated then 5 else 4)
      skip length
      return some (.named set negated ⟨r.offset, r.offset + length⟩)
    | _, _ => return none
  | _ => return none

/-- A character that stands for itself at `place`. -/
def plainItem (c : Char) (place : Nat) : SetTree :=
  .atom (.literal { char := c, span := ⟨place, place + 1⟩ })

/-- Reads hyphens that stand for themselves at the beginning of a set. -/
def readHyphens (start : Nat) : (fuel : Nat) → SetItems → Reading SetItems
  | 0, items => return items
  | fuel + 1, items => do
    if (← peek) ≠ some '-' then return items
    let place ← offset
    next
    if ← isDone then fail .classUnclosed start start
    readHyphens start fuel (items.push (plainItem '-' place))

/-- Reads an opening bracket and what may only stand right after it. -/
def openBracket (outer : SetItems) : Reading (SetFrame × SetItems) := do
  let start ← offset
  next
  if ← isDone then fail .classUnclosed start (← offset)
  let negated := (← peek) == some '^'
  if negated then
    next
    if ← isDone then fail .classUnclosed start (← offset)
  let hyphens ← readHyphens start (← get).size { start := ← offset }
  let place ← offset
  let mut items := hyphens
  if hyphens.items.isEmpty ∧ (← peek) = some ']' then
    next
    if ← isDone then fail .classUnclosed start (← offset)
    items := hyphens.push (plainItem ']' place)
  return (.bracket ⟨start, ← offset⟩ negated outer, items)

/-- Reads a character or an escape inside brackets. -/
def readMember : Reading Tree := do
  let place ← offset
  match ← peek with
  | some '\\' => readEscape
  | some c =>
    skip 1
    return .atom (.literal { char := c, span := ⟨place, place + 1⟩ })
  | none => failHere .classUnclosed

/-- The character that ends a range. -/
def rangeEnd : Tree → Reading Literal
  | .atom (.literal l) => return l
  | tree => fail .classRangeEnd tree.span.start tree.span.stop

/-- Reads a member of a set, or a range between two. -/
def readRange (frames : List SetFrame) : Reading SetTree := do
  let first ← readMember
  skipBlanks
  if ← isDone then failUnclosed frames
  let r ← get
  let follows := (if r.spaced then dropBlanks false r.rest.tail else r.rest.tail).head?
  if r.rest.head? ≠ some '-' ∨ follows = some ']' ∨ follows = some '-' then
    match first with
    | .atom atom => return .atom atom
    | tree => fail .classEscape tree.span.start tree.span.stop
  else
    next
    if ← isDone then failUnclosed frames
    let second ← readMember
    let lo ← rangeEnd first
    let hi ← rangeEnd second
    if hi.char < lo.char then fail .classRange lo.span.start hi.span.stop
    return .range lo hi

/-- The operator that comes next. -/
def operator? (rest : List Char) : Option SetOperator :=
  match rest with
  | '&' :: '&' :: _ => some .meet
  | '-' :: '-' :: _ => some .without
  | '~' :: '~' :: _ => some .onlyOne
  | _ => none

/-- Reads a set up to the bracket that closes the outermost one. -/
def readSet : (fuel : Nat) → List SetFrame → SetItems → Reading Tree
  | 0, frames, _ => failUnclosed frames
  | fuel + 1, frames, items => do
    skipBlanks
    let r ← get
    if r.rest.isEmpty then failUnclosed frames
    if let some op := operator? r.rest then
      skip 2
      let (left, frames) := closeOperator items.tree frames
      return ← readSet fuel (.operator op left :: frames) { start := ← offset }
    match r.rest.head? with
    | some '[' =>
      if !frames.isEmpty then
        if let some named ← readNamed? then
          return ← readSet fuel frames (items.push named)
      let (frame, inner) ← openBracket items
      readSet fuel (frame :: frames) inner
    | some ']' =>
      let (whole, frames) := closeOperator items.tree frames
      skip 1
      match frames with
      | .bracket opening negated outer :: frames =>
        let span : Span := ⟨opening.start, ← offset⟩
        if frames.isEmpty then return .brackets negated whole span
        readSet fuel frames (outer.push (.brackets negated whole span))
      | _ => failUnclosed frames
    | _ =>
      let item ← readRange frames
      readSet fuel frames (items.push item)

/-- Reads a set in brackets. -/
def readBrackets : Reading Tree := do
  readSet (← get).size [] { start := ← offset }

end ZAssembler.Pattern.Reading
