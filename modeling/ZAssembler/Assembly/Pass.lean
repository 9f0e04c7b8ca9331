import ZAssembler.Assembly.Node

/-
  A pass over a program. The nodes before the first routine are read once, and each routine is
  walked until its local labels stand still. The `.END` node is the last one read.

  A routine that is walked again starts from the snapshot taken before its head: the image, the
  fixups, the records, the diagnostics and the counters are cut back to it. The globals stay, since
  the next walk defines them anew.
-/

namespace ZAssembler.Assembly

structure Routine where
  head : Node
  name : String
  body : List Node
  deriving DecidableEq, Repr

/-- A program cut at its routines. -/
structure Program where
  preamble : List Node
  routines : List Routine
  /-- The `.END` node, if there is one. -/
  closing : Option Node
  deriving DecidableEq, Repr

namespace Program

def endsProgram (n : Node) : Bool :=
  match n.kind with
  | .directive .stop => true
  | _ => false

/-- The nodes before the first routine, and the routines. -/
def sections : List Node → List Node × List Routine
  | [] => ([], [])
  | n :: rest =>
    let (nodes, routines) := sections rest
    match n.kind with
    | .directive (.funct name _) => ([], { head := n, name, body := nodes } :: routines)
    | _ => (n :: nodes, routines)

def ofNodes (nodes : List Node) : Program :=
  let (preamble, routines) := sections (nodes.takeWhile (!endsProgram ·))
  { preamble, routines, closing := nodes.find? endsProgram }

end Program

/-! ## Nodes -/

/-- Ends the run with a fatal problem. -/
def stopWith {α : Type} (problem : Problem) : Pass α := do
  modify (·.report .fatal problem)
  throw (.failed problem)

/-- Reports an error and goes on, unless that makes too many. -/
def recover (cx : Context) (problem : Problem) : Pass Unit := do
  modify (·.report .error problem)
  match (← get).tooManyErrors? cx with
  | some tooMany => stopWith tooMany
  | none => pure ()

/-- A step as part of a pass. -/
def runStep (cx : Context) (step : Step Unit) : Pass Unit := fun s =>
  match step s with
  | .ok () s => .ok () s
  | .error (.skip problem) s => recover cx problem s
  | .error (.abort problem) s => stopWith problem s
  | .error (.restart version) s => .error (.restart version) s

def visit (cx : Context) (index : Nat) (n : Node) : Pass Unit := do
  modify fun s => { s with index, location := n.location.known? }
  runStep cx (node cx n)

/-- Reads nodes that are numbered from `index`. -/
def visitAll (cx : Context) : Nat → List Node → Pass Unit
  | _, [] => pure ()
  | index, n :: rest => do
    visit cx index n
    visitAll cx (index + 1) rest

/-! ## Routines -/

def State.snapshot (s : State) : Snapshot :=
  { position := s.image.cursor, fixups := s.fixups.size, debugRecords := s.debug.size
    diagnostics := s.diagnostics.size, text := s.text.map (·.checkpoint), objects := s.objects
    globals := s.globalVars, abbreviations := s.encoder.abbreviations.length
    packing := s.packing.bases }

def rollbackText (text : Option Abbreviation.Finder) (mark : Option Abbreviation.Checkpoint) :
    Option Abbreviation.Finder :=
  match text, mark with
  | some finder, some mark => some (finder.rollback mark)
  | text, _ => text

/-- Cuts the state back to a snapshot; a table that was opened since is closed. -/
def State.rewind (s : State) (mark : Snapshot) : State :=
  { s with
    image := (s.image.truncate mark.position).seek mark.position
    fixups := s.fixups.take mark.fixups
    debug := s.debug.take mark.debugRecords
    diagnostics := s.diagnostics.take mark.diagnostics
    text := rollbackText s.text mark.text
    table := s.table.filter (·.start < mark.position)
    objects := mark.objects
    globalVars := mark.globals
    encoder := s.encoder.truncate mark.abbreviations
    packing := { s.packing with bases := mark.packing } }

/-- Leaves a routine that has settled, and judges the globals that changed in it. -/
def closeRoutine (cx : Context) (scope : RoutineScope) : Pass Unit := do
  modify fun s => { s with scope := none, locals := .empty }
  if 1 < scope.walks then
    modify fun s =>
      { s with
        log := s.log.push (.routineSettled scope.routine scope.walks cx.pass)
        counts := { s.counts with
          reassemblies := s.counts.reassemblies + (scope.walks - 1) } }
  runStep cx (scope.deferred.forM fun (name, old) => judgeChange cx name old)

/-- The state in which another walk begins. -/
def State.walkAgain (s : State) (next : RoutineScope) : State :=
  { s.rewind next.snapshot with
    scope := some next, log := s.log.push (.walkingAgain next.routine next.walks) }

/-- What follows a walk: the routine is left if its labels stood still; else `again` walks it once
    more, if its scope allows another walk. -/
def endWalk (cx : Context) (again : Option (Pass Unit)) : Pass Unit := do
  match (← get).scope with
  | none => pure ()
  | some scope =>
    if !scope.moved then closeRoutine cx scope
    else
      match scope.nextWalk?, again with
      | some next, some again =>
        modify (·.walkAgain next)
        again
      | _, _ => stopWith (.routineNotSettled scope.walks scope.routine)

/-- Walks a routine, and again while its labels move. The number of walks to come is at most
    `left`. -/
def walkRoutine (cx : Context) (start : Nat) (r : Routine) : (left : Nat) → Pass Unit
  | 0 => do
    visitAll cx start (r.head :: r.body)
    endWalk cx none
  | left + 1 => do
    visitAll cx start (r.head :: r.body)
    endWalk cx (some (walkRoutine cx start r left))

def routine (cx : Context) (start : Nat) (r : Routine) : Pass Unit := do
  modify fun s => { s with scope := some (.begin r.name start r.body s.snapshot) }
  walkRoutine cx start r maxWalks

/-- Walks routines of which the first starts at node `start`; gives the node after the last. -/
def routines (cx : Context) : Nat → List Routine → Pass Nat
  | start, [] => pure start
  | start, r :: rest => do
    routine cx start r
    routines cx (start + 1 + r.body.length) rest

/-! ## Passes -/

/-- The names that fixups wait for, in order and each once. -/
def waitingNames (fixups : List Fixup) : List String :=
  ((fixups.map (·.symbol)).mergeSort fun a b => !(b < a)).eraseReps

/-- Blocks have to be closed. A measuring pass is followed by another if one of its fixups is known
    at its end; the assembling pass may leave none. -/
def endPass (cx : Context) : Pass Unit := do
  match (← get).table with
  | some table =>
    modify fun s => { s with table := none }
    recover cx (.unclosedTable table.start)
  | none => pure ()
  match (← get).vocabulary with
  | some _ =>
    modify fun s => { s with vocabulary := none }
    recover cx .unclosedVocabulary
  | none => pure ()
  match cx.mode with
  | .measuring =>
    modify fun s => { s with changed := s.changed || s.fixups.any (·.resolves cx s) }
  | .assembling =>
    let fixups := (← get).fixups.toList
    if !fixups.isEmpty then stopWith (.unresolvedReferences (waitingNames fixups))

def pass (cx : Context) (program : Program) : Pass Unit := do
  visitAll cx 0 program.preamble
  let index ← routines cx program.preamble.length program.routines
  match program.closing with
  | some n => visit cx index n
  | none => pure ()
  endPass cx

end ZAssembler.Assembly
