import ZAssembler.DebugRecord
import ZAssembler.Diagnostic
import ZAssembler.Event
import ZAssembler.Image
import ZAssembler.Routine
import ZAssembler.Table

/-
  The state of a pass and the steps that change it. A pass reads the nodes in order and writes the
  image. Measuring passes find out where everything goes; the assembling pass writes the story.

  A step keeps the changes it made before it was interrupted: a node that is given up half-way
  leaves what it wrote.
-/

namespace ZAssembler.Assembly

inductive Mode
  | measuring | assembling
  deriving DecidableEq, Repr

/-- What does not change during a pass. -/
structure Context where
  version : Version
  mode : Mode
  pass : Nat
  /-- The pass is given up when it has reported this many errors. -/
  errorLimit : Nat
  deriving DecidableEq, Repr

inductive FixupTarget
  | image (addr : Nat) (width : Width)
  /-- There is nothing to patch, but the layout hangs on the value. -/
  | dependency
  deriving DecidableEq, Repr

/-- A value that was not known when it was needed. -/
structure Fixup where
  symbol : String
  expr : Expr
  target : FixupTarget
  /-- A jump's operand is the distance from here. -/
  relativeTo : Option Nat := none
  deriving DecidableEq, Repr

/-- A global label inside a vocabulary block, with its value before the pass reached it. -/
structure VocabularyLabel where
  name : String
  position : Nat
  previous : Option Int32
  deriving DecidableEq, Repr

structure OpenVocabulary where
  recordSize : Nat
  keySize : Nat
  start : Nat
  /-- How many fixups there were when the block opened. -/
  fixupStart : Nat
  labels : List VocabularyLabel := []
  /-- Other globals that changed inside the block, with the value each had before. -/
  deferred : List (String × Int32) := []
  deriving DecidableEq, Repr

/-- What a run counts. -/
structure Counts where
  /-- Passes begun, of both modes. -/
  passes : Nat := 0
  measuringPasses : Nat := 0
  restarts : Nat := 0
  /-- Walks beyond the first of routines that settled. -/
  reassemblies : Nat := 0
  deriving DecidableEq, Repr

structure State where
  image : Image := {}
  globals : SymbolTable
  locals : SymbolTable := .empty
  fixups : Array Fixup := #[]
  table : Option OpenTable := none
  vocabulary : Option OpenVocabulary := none
  packing : Packing
  encoder : ZText.Encoder
  /-- The status line shows the time. -/
  timed : Bool := false
  sound : Bool := false
  objects : Nat := 0
  globalVars : Nat := 0
  scope : Option RoutineScope := none
  debug : Array DebugRecord := #[]
  text : Option Abbreviation.Finder := none
  diagnostics : Array Diagnostic := #[]
  /-- A global moved, so that another measuring pass is due. -/
  changed : Bool := false
  /-- The node that is being read, and its place. -/
  index : Nat := 0
  location : Option Location := none
  log : Array Event := #[]
  counts : Counts := {}
  /-- The debug records that are handed on. -/
  handed : Array DebugRecord := #[]
  deriving Repr

/-- Why a step did not finish. -/
inductive Interrupt
  /-- The node is given up and the pass goes on. -/
  | skip (problem : Problem)
  | abort (problem : Problem)
  /-- The assembly is to start again for another version. -/
  | restart (version : Version)
  deriving DecidableEq, Repr

/-- The work of one node. -/
abbrev Step := EStateM Interrupt State

/-- Why a pass did not finish. -/
inductive Stop
  | failed (problem : Problem)
  | restart (version : Version)
  deriving DecidableEq, Repr

/-- The work of a pass. -/
abbrev Pass := EStateM Stop State

/-! ## Diagnostics -/

def State.diagnostic (s : State) (severity : Severity) (problem : Problem) : Diagnostic :=
  { severity, problem, location := s.location }

/-- Adds a diagnostic at the current place. -/
def State.report (s : State) (severity : Severity) (problem : Problem) : State :=
  { s with diagnostics := s.diagnostics.push (s.diagnostic severity problem) }

/-- The problem that ends a pass with too many errors. -/
def State.tooManyErrors? (s : State) (cx : Context) : Option Problem :=
  let count := errorCount s.diagnostics.toList
  if cx.errorLimit ≤ count then some (.tooManyErrors count) else none

def skip {α : Type} (problem : Problem) : Step α := throw (.skip problem)

def abort {α : Type} (problem : Problem) : Step α := throw (.abort problem)

def logEvent (event : Event) : Step Unit :=
  modify fun s => { s with log := s.log.push event }

/-- Adds a warning; the assembling pass logs it too. -/
def warn (cx : Context) (problem : Problem) : Step Unit := do
  if cx.mode = .assembling then
    logEvent (.warned ((← get).diagnostic .warning problem).text)
  modify (·.report .warning problem)

/-- Reports an error and goes on with the node, unless that makes too many. -/
def reportError (cx : Context) (problem : Problem) : Step Unit := do
  modify (·.report .error problem)
  match (← get).tooManyErrors? cx with
  | some tooMany => abort tooMany
  | none => pure ()

/-! ## Writing the image -/

/-- Where the next byte goes. -/
def position : Step Nat := return (← get).image.cursor

def store (bytes : List UInt8) : Step Unit :=
  modify fun s => { s with image := s.image.store bytes }

def storeByte (value : UInt8) : Step Unit := store [value]

def storeWord (value : UInt16) : Step Unit := store (wordBytes value)

/-- Writes zeros. -/
def pad (count : Nat) : Step Unit := store (List.replicate count 0)

/-- Hands a literal text to the abbreviation search, if there is one. -/
def collectText (text : String) : Step Unit :=
  modify fun s => { s with text := s.text.map (·.add text) }

end ZAssembler.Assembly
