import ZAssembler.Abbreviation
import ZAssembler.Node
import ZAssembler.Packing

/-
  Routines and their scopes. A routine is a `.FUNCT` node with the nodes up to the next `.FUNCT`,
  `.END` or the end of the program. While it is assembled its scope holds what is guessed about
  its local labels: a walk that finds a label elsewhere is repeated from the snapshot taken at the
  start, with the better guess, at most `maxWalks` times in all.
-/

namespace ZAssembler

def maxWalks : Nat := 8

/-- The nodes after a routine's head that belong to it. -/
def routineBody (rest : List Node) : List Node := rest.takeWhile (!·.endsRoutine)

/-- How far the assembly had come when the routine began. -/
structure Snapshot where
  position : Nat
  fixups : Nat
  debugRecords : Nat
  diagnostics : Nat
  text : Option Abbreviation.Checkpoint
  objects : Nat
  globals : Nat
  abbreviations : Nat
  packing : PackingBases
  deriving DecidableEq, Repr

structure RoutineScope where
  routine : String
  start : Nat
  finish : Nat
  snapshot : Snapshot
  labels : List String
  walks : Nat := 1
  /-- Where labels were found by earlier walks, last found first. -/
  guesses : List (String × Int32) := []
  moved : Bool := false
  /-- Globals that changed during a walk, with the value each had before. -/
  deferred : List (String × Int32) := []
  deriving DecidableEq, Repr

namespace RoutineScope

/-- The scope of the routine at node `start` with the given body. -/
def begin (routine : String) (start : Nat) (body : List Node) (snapshot : Snapshot) :
    RoutineScope :=
  { routine, start, finish := start + 1 + body.length, snapshot,
    labels := body.filterMap Node.localLabel? }

def guess (s : RoutineScope) (name : String) (fallback : Int32) : Int32 :=
  (s.guesses.lookup name).getD fallback

/-- Remembers where a label was found; the walk has to be repeated. -/
def recordMove (s : RoutineScope) (name : String) (actual : Int32) : RoutineScope :=
  { s with guesses := (name, actual) :: s.guesses, moved := true }

/-- The scope for another walk, or none once the walks are spent. -/
def nextWalk? (s : RoutineScope) : Option RoutineScope :=
  if maxWalks ≤ s.walks then none else some { s with walks := s.walks + 1, moved := false }

/-- Puts off judging a global until the walks are done; the first old value counts. -/
def defer (s : RoutineScope) (name : String) (old : Int32) : RoutineScope :=
  if s.deferred.any (·.1 == name) then s else { s with deferred := s.deferred ++ [(name, old)] }

end RoutineScope

end ZAssembler
