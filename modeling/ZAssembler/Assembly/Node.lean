import ZAssembler.Assembly.Block
import ZAssembler.Assembly.Data
import ZAssembler.Assembly.Instruction

/-
  What each node does to the state of a pass.
-/

namespace ZAssembler.Assembly

def maxLocals : Nat := 15

/-- A story version; one that differs from the present one calls for a restart. -/
def storyVersion (cx : Context) (e : Expr) : Step Unit := do
  let value ← constant cx "Story version" e
  match Version.ofNat? value.toInt.toNat with
  | none => skip (.unsupportedVersion value)
  | some version => if version = cx.version then pure () else throw (.restart version)

/-- Makes the locals the first variables of the routine. -/
def declareLocals (locals : List LocalDecl) : Step Unit :=
  modify fun s =>
    let declare (table : SymbolTable) (decl : LocalDecl × Nat) :=
      (table.set decl.1.name .var (Int32.ofNat (decl.2 + 1))).2
    { s with locals := locals.zipIdx.foldl declare s.locals }

/-- Declares the routine's local labels at their guesses, or else at the routine itself. -/
def predeclareLabels (start : Nat) : Step Unit :=
  modify fun s =>
    match s.scope with
    | none => s
    | some scope =>
      let declare (table : SymbolTable) (name : String) :=
        table.predeclare name (scope.guess name (Int32.ofNat start))
      { s with locals := scope.labels.foldl declare s.locals }

/-- The head of a routine: its packed address, the number of locals and, in old versions, their
    defaults. -/
def routineHead (cx : Context) (name : String) (locals : List LocalDecl) : Step Unit := do
  modify fun s => { s with locals := .empty }
  let packed ← placePacked cx .routine name
  let start ← position
  defineGlobal cx name .routine (Int32.ofNat (packed % 65536))
  if maxLocals < locals.length then reportError cx (.tooManyLocals locals.length)
  let locals := locals.take maxLocals
  storeByte (UInt8.ofNat locals.length)
  declareLocals locals
  if cx.version.hasLocalDefaults then locals.forM fun decl => writeDefault cx decl.default
  else if locals.any (·.default.isSome) then warn cx (.ignoredLocalDefaults cx.version name)
  predeclareLabels start

/-- The record of a debug directive that is reached at `pc`. -/
def debugRecord (cx : Context) (pc : Nat) : DebugDirective → Step DebugRecord
  | .file number includeName actualName => return .file number includeName actualName
  | .line point => return .line point pc
  | .routine point name locals => return .routineStart point pc name locals
  | .routineEnd point => return .routineEnd point pc
  | .named table number name => do
    return .named table (← constant cx "Debug record number" number) name

/-- Debug records are made by the assembling pass only. -/
def debugDirective (cx : Context) (d : DebugDirective) : Step Unit :=
  match cx.mode with
  | .measuring => pure ()
  | .assembling => do
    let record ← debugRecord cx (← position) d
    modify fun s => { s with debug := s.debug.push record }

def directive (cx : Context) : Directive → Step Unit
  | .new version => storyVersion cx version
  | .funct name locals => routineHead cx name locals
  | .stop => pure ()
  | .byte es => values cx .byte es
  | .word es => values cx .word es
  | .str text => stringData text
  | .strl text => countedString text
  | .len text => stringLength text
  | .zword text => dictionaryWord cx text
  | .gstr name text => packedString cx name text
  | .fstr name text => abbreviation cx name text
  | .equal name value => equate cx name value
  | .gvar name default => globalVariable cx name default
  | .table size => openTable cx size
  | .endt => closeTable
  | .vocbeg recordSize keySize => openVocabulary cx recordSize keySize
  | .vocend => closeVocabulary cx
  | .object entry => object cx entry
  | .prop size number => property cx size number
  | .pdef => do pad (alignment cx.version.packingDivisor (← position))
  | .time => modify fun s => { s with timed := s.timed || cx.version.number ≤ 3 }
  | .sound => modify fun s => { s with sound := true }
  | .debug d => debugDirective cx d

def node (cx : Context) (n : Node) : Step Unit :=
  match n.kind with
  | .directive d => directive cx d
  | .instruction i => instruction cx i
  | .globalLabel name => globalLabel cx name
  | .localLabel name => localLabel name

/-! ## The work of a node by its kind -/

section Kinds

variable {cx : Context} {n : Node}

theorem node_directive {d : Directive} (h : n.kind = .directive d) :
    node cx n = directive cx d := by
  unfold node
  rw [h]

theorem node_instruction {i : Instruction} (h : n.kind = .instruction i) :
    node cx n = instruction cx i := by
  unfold node
  rw [h]

theorem node_globalLabel {name : String} (h : n.kind = .globalLabel name) :
    node cx n = globalLabel cx name := by
  unfold node
  rw [h]

theorem node_localLabel {name : String} (h : n.kind = .localLabel name) :
    node cx n = localLabel name := by
  unfold node
  rw [h]

end Kinds

end ZAssembler.Assembly
