import ZAssembler.Assembly.Pass
import ZAssembler.Story

/-
  A run of the assembler. Measuring passes are repeated until nothing moves, then one assembling
  pass writes the story. A program that asks for another version starts the run again, once for
  each version.
-/

namespace ZAssembler

structure Options where
  /-- The version until the program says otherwise. -/
  version : Version := .standard
  maxErrors : Nat := 100
  identity : Story.Identity
  /-- Collect literal text for the abbreviation search. -/
  collectText : Bool := false
  deriving DecidableEq, Repr

structure AssembledStory where
  bytes : List UInt8
  /-- The collected text, if it was asked for. -/
  text : Option Abbreviation.Finder
  deriving DecidableEq, Repr

structure Outcome where
  result : Except Problem AssembledStory
  diagnostics : List Diagnostic
  counts : Assembly.Counts
  log : List Event
  /-- The debug records that are handed on. -/
  debug : List DebugRecord

/-- How many warnings the run counts: a run that succeeds takes each of its diagnostics for one. -/
def Outcome.warnings (r : Outcome) : Nat :=
  match r.result with
  | .ok _ => r.diagnostics.length
  | .error _ => r.diagnostics.length - errorCount r.diagnostics

namespace Assembly

def maxMeasuringPasses : Nat := 16

/-- The work of a run; it ends with a story or a problem. -/
abbrev Run := EStateM Problem State

/-- The globals that every program has. -/
def predefined : SymbolTable := (SymbolTable.empty.set "STACK" .var 0).2

/-- The state before the first pass. -/
def State.initial (v : Version) : State :=
  { globals := predefined, packing := { version := v }, encoder := { version := v } }

/-- The counts when a pass begins. -/
def Counts.beginPass (c : Counts) (mode : Mode) : Counts :=
  { c with
    passes := c.passes + 1
    measuringPasses := if mode = .measuring then c.measuringPasses + 1 else c.measuringPasses }

/-- The state in which a pass begins: globals, log, counts and what is handed on are those of the
    passes before. -/
def State.beginPass (s : State) (o : Options) (v : Version) (mode : Mode) : State :=
  { image := Image.fill {} Story.headerSize 0
    globals := s.globals
    packing := { version := v }
    encoder := { version := v }
    text := if mode = .assembling ∧ o.collectText then some {} else none
    log := s.log
    counts := s.counts.beginPass mode
    handed := s.handed }

def onePass (o : Options) (program : Program) (v : Version) (mode : Mode) : Pass Unit := do
  modify (·.beginPass o v mode)
  let cx : Context :=
    { version := v, mode, pass := (← get).counts.passes, errorLimit := max o.maxErrors 1 }
  pass cx program

/-- Measures until nothing moves, at most `left` times. -/
def measure (o : Options) (program : Program) (v : Version) : (left : Nat) → Pass Unit
  | 0 => modify fun s => { s with log := s.log.push (.stillMoving maxMeasuringPasses) }
  | left + 1 => do
    onePass o program v .measuring
    modify fun s =>
      let measured := .passMeasured (maxMeasuringPasses - left) s.image.cursor s.fixups.size
      { s with log := s.log.push measured }
    if (← get).changed then measure o program v left

/-- All passes for one version. -/
def passes (o : Options) (program : Program) (v : Version) : Pass Unit := do
  measure o program v maxMeasuringPasses
  onePass o program v .assembling

/-- The state in which the run starts again for version `v`. -/
def State.restart (s : State) (v : Version) : State :=
  { s with
    globals := predefined
    log := s.log.push (.restarting v.number s.counts.passes)
    counts := { s.counts with restarts := s.counts.restarts + 1 } }

/-- Runs the passes for version `v`, and again for each version that the program asks for. No
    version is tried twice; `left` is how many are left to try. Gives the version that stands. -/
def attempt (o : Options) (program : Program) (left : Nat) (tried : List Version) (v : Version) :
    Run Version := fun s =>
  match passes o program v s with
  | .ok () s => .ok v s
  | .error (.failed problem) s => .error problem s
  | .error (.restart wanted) s =>
    match left, decide (wanted ∈ tried) with
    | left + 1, false => attempt o program left (wanted :: tried) wanted (s.restart wanted)
    | _, _ =>
      let problem := .conflictingVersions v wanted
      .error problem (s.report .fatal problem)

/-- Makes the story of what the assembling pass left. The debug records are handed on only if there
    is a story. -/
def finishStory (o : Options) (v : Version) : Run AssembledStory := fun s =>
  let errors := errorCount s.diagnostics.toList
  let length := Story.lengthFor v s.image.length
  if 0 < errors then .error (.errorsInAssembly errors) s
  else if v.maxStorySize < length then
    let problem := .storyTooLong v (length - v.maxStorySize)
    let d : Diagnostic :=
      { severity := .error, problem
        notes := [s!"version {v.number} stories hold at most {v.maxStorySize} bytes"]
        help := ["define abbreviations with .FSTR to shorten the text"] }
    .error problem { s with diagnostics := s.diagnostics.push d }
  else
    let image := Story.finish v o.identity s
    let event := .assembled v.number image.length s.counts.measuringPasses
    .ok { bytes := image.bytes.toList, text := s.text }
      { s with log := s.log.push event, handed := s.handed ++ s.debug }

def run (o : Options) (program : Program) : Run AssembledStory := do
  let v ← attempt o program (Version.all.length - 1) [o.version] o.version
  finishStory o v

end Assembly

/-- Assembles a program. -/
def assemble (o : Options) (nodes : List Node) : Outcome :=
  let outcome (result : Except Problem AssembledStory) (s : Assembly.State) : Outcome :=
    { result, diagnostics := s.diagnostics.toList, counts := s.counts, log := s.log.toList
      debug := s.handed.toList }
  match Assembly.run o (.ofNodes nodes) (.initial o.version) with
  | .ok story s => outcome (.ok story) s
  | .error problem s => outcome (.error problem) s

end ZAssembler
