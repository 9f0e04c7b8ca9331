import ZAssembler.Pattern

/-
  A machine that finds a pattern in a text. It goes through the text once and keeps, at each
  place, all the steps that a match which has begun may take next, so that its work is bounded by
  the number of steps and places.
-/

namespace ZAssembler.Pattern

/-- A step of a machine; the steps that come next are given by number. -/
inductive Step
  | char (set : CharSet) (next : Nat)
  | edge (edge : Edge) (next : Nat)
  | split (first second : Nat)
  /-- The end of a match. -/
  | found
  deriving DecidableEq, Repr

structure Machine where
  steps : Array Step
  start : Nat
  deriving DecidableEq, Repr

namespace Machine

/-! ## Building -/

/-- Adds to the steps. Machines are built from their end, so that what comes next is known. -/
abbrev Building := StateM (Array Step)

/-- Adds a step and gives its number. -/
def add (step : Step) : Building Nat := modifyGet fun steps => (steps.size, steps.push step)

/-- The part that `part` builds, `n` times in a row. -/
def repeated (part : Nat → Building Nat) : (n next : Nat) → Building Nat
  | 0, next => return next
  | n + 1, next => do repeated part n (← part next)

/-- The part up to `n` times in a row; `stop` is where it goes on when there is no more of it. -/
def optional (part : Nat → Building Nat) (stop : Nat) : (n next : Nat) → Building Nat
  | 0, next => return next
  | n + 1, next => do
    let first ← part next
    optional part stop n (← add (.split first stop))

/-- The part any number of times: where it is left out, and where it is taken at least once. -/
def endless (part : Nat → Building Nat) (next : Nat) : Building (Nat × Nat) := do
  let hub ← add (.split next next)
  let first ← part hub
  modify (·.setIfInBounds hub (.split first next))
  return (hub, first)

def buildText : List Char → (next : Nat) → Building Nat
  | [], next => return next
  | c :: cs, next => do add (.char (.single c) (← buildText cs next))

/-- Builds a pattern that is followed by step `next`, and gives its first step. -/
def build : Pattern → (next : Nat) → Building Nat
  | .empty, next => return next
  | .text chars, next => buildText chars next
  | .char set, next => add (.char set next)
  | .edge e, next => add (.edge e next)
  | .group body, next => build body next
  | .seq first second, next => do build first (← build second next)
  | .alt first second, next => do
    let one ← build first next
    let other ← build second next
    add (.split one other)
  | .loop least none body, next => do
    let (hub, first) ← endless (build body) next
    if least = 0 then return hub else repeated (build body) (least - 1) first
  | .loop least (some most) body, next => do
    repeated (build body) least (← optional (build body) next (most - least) next)

def ofPattern (p : Pattern) : Machine :=
  let building : Building Nat := do build p (← add .found)
  let (start, steps) := building.run #[]
  { steps, start }

/-! ## Running -/

/-- What can be reached at a place without reading on. -/
structure Reach where
  isFound : Bool := false
  /-- The steps that wait for a character: which ones, and where they lead. -/
  waiting : List (CharSet × Nat) := []

/-- Follows the steps to visit at a place; `seen` holds for each step the last place, counted from
    1, where it was visited. -/
def visit (steps : Array Step) (place : Nat) (before after : Option Char) :
    (fuel : Nat) → (seen : Array Nat) → (waiting : List (CharSet × Nat)) → (todo : List Nat) →
      Reach × Array Nat
  | 0, seen, waiting, _ => ({ waiting }, seen)
  | _, seen, waiting, [] => ({ waiting }, seen)
  | fuel + 1, seen, waiting, n :: todo =>
    if seen.getD n 0 = place then visit steps place before after fuel seen waiting todo
    else
      let seen := seen.setIfInBounds n place
      match steps.getD n .found with
      | .found => ({ isFound := true }, seen)
      | .char set next => visit steps place before after fuel seen ((set, next) :: waiting) todo
      | .edge e next =>
        let todo := if e.holds before after then next :: todo else todo
        visit steps place before after fuel seen waiting todo
      | .split first second =>
        visit steps place before after fuel seen waiting (first :: second :: todo)

/-- A match ends at this place or a later one. It may begin here or have come to the steps `todo`.
    A step is followed once at a place and leads to at most two others. -/
def findsFrom (m : Machine) :
    (place : Nat) → (before : Option Char) → (seen : Array Nat) → (todo : List Nat) →
      List Char → Bool
  | place, before, seen, todo, rest =>
    let fuel := todo.length + 2 * m.steps.size + 2
    let (reach, seen) := visit m.steps place before rest.head? fuel seen [] (m.start :: todo)
    reach.isFound ||
      match rest with
      | [] => false
      | c :: cs =>
        let todo := reach.waiting.filterMap fun (set, next) =>
          if set.has c then some next else none
        findsFrom m (place + 1) (some c) seen todo cs

/-- The pattern of the machine matches some part of the text. -/
def finds (m : Machine) (text : String) : Bool :=
  m.findsFrom 1 none (Array.replicate m.steps.size 0) [] text.toList

end Machine

end ZAssembler.Pattern
