import ZAssembler.Pattern
import ZAssembler.Text.Utf8

/-
  How much room a pattern takes as a machine that reads bytes, in either direction. A state of the
  machine takes 32 bytes, an arrow from a state with several 8 bytes more, and a choice between
  states 4 bytes for each. Every copy of a repeated pattern counts.
-/

namespace ZAssembler.Pattern

open Text.Utf8 (Range)

def stateRoom : Nat := 32

/-- A state with arrows for ranges of bytes. -/
def arrowsRoom (count : Nat) : Nat := stateRoom + 8 * count

/-- A state that leads on to one of several. -/
def choiceRoom (count : Nat) : Nat := stateRoom + 4 * count

/-! ## Sets -/

/-- Collects sequences that begin alike, if they follow one another. -/
def groupHeads : List (List Range) → List (Range × List (List Range))
  | [] => []
  | [] :: rest => groupHeads rest
  | (head :: tail) :: rest =>
    match groupHeads rest with
    | (other, tails) :: groups =>
      if other = head then (head, tail :: tails) :: groups
      else (head, [tail]) :: (other, tails) :: groups
    | [] => [(head, [tail])]

/-- A state that reads the first bytes of some sequences: each arrow with the state it leads to,
    by the number of that state, or 0 for the end. -/
abbrev Arrows := List (Range × Nat)

/-- The number of the state for sequences of at most `fuel` bytes; equal states are one. -/
def shareStates : (fuel : Nat) → List (List Range) → StateM (List Arrows) Nat
  | 0, _ => return 0
  | fuel + 1, sequences =>
    if sequences.all (·.isEmpty) then return 0
    else do
      let arrows ← (groupHeads sequences).mapM fun (head, tails) => do
        return (head, ← shareStates fuel tails)
      let known ← get
      match known.idxOf? arrows with
      | some index => return index + 1
      | none =>
        set (known ++ [arrows])
        return known.length + 1

/-- The ways in which sequences begin, each once. -/
def beginnings (sequences : List (List Range)) : List (List Range) :=
  (sequences.flatMap fun s => (List.range s.length).map fun n => s.take (n + 1)).eraseDups

/-- The room for one character of a set. Read forward, states for the rest of a character are
    shared; read backward, those for its beginning. -/
def setRoom (backward : Bool) (set : CharSet) : Nat :=
  if set.isAscii then stateRoom + arrowsRoom set.ranges.length
  else
    let sequences := set.ranges.flatMap fun (lo, hi) => Text.Utf8.sequences lo hi
    if backward then
      choiceRoom sequences.length + stateRoom + stateRoom * (beginnings sequences).length
    else
      let states := ((shareStates 4 sequences).run []).2
      states.foldl (fun room arrows => room + arrowsRoom arrows.length) stateRoom

/-! ## Texts to choose from -/

/-- Collects texts by their first byte, each in the order of the texts; texts after an empty one
    are not mixed with those before it. -/
structure ByteChoice where
  /-- The texts before each end of a text, by their first byte. -/
  closed : List (List (Nat × List (List Nat))) := []
  current : List (Nat × List (List Nat)) := []

def ByteChoice.put (byte : Nat) (rest : List Nat) :
    List (Nat × List (List Nat)) → List (Nat × List (List Nat))
  | [] => [(byte, [rest])]
  | (other, rests) :: groups =>
    if other = byte then (other, rests ++ [rest]) :: groups
    else (other, rests) :: put byte rest groups

def ByteChoice.add (b : ByteChoice) : List Nat → ByteChoice
  | [] =>
    if b.current.isEmpty && b.closed.all (·.isEmpty) && !b.closed.isEmpty then b
    else { closed := b.closed ++ [b.current], current := [] }
  | byte :: rest => { b with current := ByteChoice.put byte rest b.current }

/-- The room of the states behind a choice of texts, which have at most `fuel` bytes. -/
def textsRoom : (fuel : Nat) → List (List Nat) → Nat
  | 0, _ => 0
  | fuel + 1, texts =>
    if texts.all (·.isEmpty) then 0
    else
      let choice := texts.foldl ByteChoice.add {}
      let groups := choice.closed ++ [choice.current]
      let used := groups.filter (!·.isEmpty)
      let own := choiceRoom (used.length + choice.closed.length)
      used.foldl (fun room group =>
        let arrows := if group.length = 1 then stateRoom else arrowsRoom group.length
        group.foldl (fun room (_, rests) => room + textsRoom fuel rests) (room + arrows)) own

/-! ## Patterns -/

def bytesOf (chars : List Char) : List Nat := chars.flatMap fun c => Text.Utf8.encode c.toNat

def textOf? : Pattern → Option (List Nat)
  | text chars => some (bytesOf chars)
  | _ => none

/-- The room for one of several texts. -/
def wordsRoom (backward : Bool) (texts : List (List Nat)) : Nat :=
  let texts := if backward then texts.map List.reverse else texts
  stateRoom + textsRoom (1 + texts.foldl (fun n t => max n t.length) 0) texts

/-- The room for repetitions of a body that takes `room`; it may be `emptiable`. -/
def loopRoom (emptiable : Bool) (room least : Nat) : (most : Option Nat) → Nat
  | none =>
    if least = 0 then
      if emptiable then room + choiceRoom 2 + choiceRoom 2 + stateRoom else room + choiceRoom 2
    else least * room + choiceRoom 2
  | some most =>
    if least = 0 ∧ most = 1 then room + choiceRoom 2 + stateRoom
    else
      let kept := if least = 0 then stateRoom else least * room
      if least = most then kept else kept + stateRoom + (most - least) * (room + choiceRoom 2)

/-- The room that a pattern takes; `inChoice` says that it is a branch of a choice. -/
def room (backward : Bool) : (inChoice : Bool) → Pattern → Nat
  | inChoice, alt first second =>
    match if inChoice then none else (alt first second).branches.mapM textOf? with
    | some texts => wordsRoom backward texts
    | none =>
      (if inChoice then 0 else choiceRoom 0 + stateRoom) +
        room backward true first + room backward true second
  | inChoice, p =>
    (if inChoice then 4 else 0) +
      match p with
      | empty | edge _ => stateRoom
      | text chars => stateRoom * (bytesOf chars).length
      | char set => setRoom backward set
      | group body => (if backward then 0 else 2 * stateRoom) + room backward false body
      | seq first second => room backward false first + room backward false second
      | alt _ _ => 0
      | loop least most body =>
        loopRoom (body.shortest?.getD 0 == 0) (room backward false body) least most

/-- A match is possible at the given edge of the text only, which it meets first. -/
def beginsAt (backward : Bool) (target : Edge) : Pattern → Bool
  | edge e => e = target
  | group body => body.beginsAt backward target
  | seq first second =>
    if backward then
      second.beginsAt backward target ||
        (second.isWidthless && first.beginsAt backward target)
    else
      first.beginsAt backward target || (first.isWidthless && second.beginsAt backward target)
  | alt first second => first.beginsAt backward target && second.beginsAt backward target
  | loop least _ body => 0 < least && body.beginsAt backward target
  | _ => false

/-- The room of a whole machine: also for skipping what comes before a match, for the place of the
    match, and for the end. -/
def machineRoom (backward : Bool) (p : Pattern) : Nat :=
  let fixed := p.beginsAt backward (if backward then .textEnd else .textStart)
  let skipping := if fixed then stateRoom else choiceRoom 2 + stateRoom + arrowsRoom 1
  let place := if backward then 0 else 2 * stateRoom
  skipping + place + p.room backward false + stateRoom

end ZAssembler.Pattern
