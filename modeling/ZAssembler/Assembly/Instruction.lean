import ZAssembler.Assembly.Value

/-
  Instructions: names become operands, the store variable and the branch destination, and the
  encoded bytes go into the image. An operand that is not known yet takes a word.
-/

namespace ZAssembler.Assembly

/-- A resolved operand, and the symbol it waits for if its value is only a placeholder. -/
structure Argument where
  operand : Operand
  expr : Expr
  waitsFor : Option String := none
  relativeTo : Option Nat := none
  deriving DecidableEq, Repr

/-- The opcode that a mnemonic names in this version, for this many operands. -/
def selectOpcode (cx : Context) (name : String) (count : Nat) : Step Opcode :=
  match Opcode.select name count cx.version with
  | .found opcode => pure opcode
  | .wrongVersion => abort (.opcodeNotAvailable cx.version name)
  | .unknown => abort (.unknownOpcode name)

/-- What an instruction has or lacks, against what its opcode takes. -/
def shapeProblem? (i : Instruction) (op : Opcode) : Option Problem :=
  if i.store.isSome && !op.stores then some (.storesNothing op.name)
  else if i.branch.isSome && !op.branches then some (.branchesNowhere op.name)
  else if i.branch.isNone && op.branches then some (.needsBranch op.name)
  else if i.text.isSome && !op.printsText then some (.takesNoText op.name)
  else if i.text.isNone && op.printsText then some (.needsText op.name)
  else none

def argument (cx : Context) (e : Expr) : Step Argument := do
  match ← evaluate cx e with
  | .known .var value => return { operand := .var (UInt8.ofInt value.toInt), expr := e }
  | .known _ value =>
    if fitsByte value && !e.needsLong ((← get).scoping cx) then
      return { operand := .byte (UInt8.ofInt value.toInt), expr := e }
    else return { operand := .word (lowWord value), expr := e }
  | .unknown symbol => return { operand := .word 0, expr := e, waitsFor := some symbol }

/-- The operand of a jump at `address`: the distance to a label. -/
def jumpArgument (cx : Context) (address : Nat) (e : Expr) : Step Argument := do
  match e with
  | .symbol name =>
    match ← evaluate cx e with
    | .known .label value =>
      return { operand := .word (Bytecode.jumpOffset value.toUInt32.toNat address), expr := e }
    | .known _ _ => skip (.jumpTarget (some name))
    | .unknown symbol =>
      return { operand := .word 0, expr := e, waitsFor := some symbol,
               relativeTo := some (address + 1) }
  | _ => skip (.jumpTarget none)

def arguments (cx : Context) (op : Opcode) (address : Nat) (operands : List Expr) :
    Step (List Argument) :=
  match operands with
  | [target] =>
    if op.name = "JUMP" then return [← jumpArgument cx address target]
    else return [← argument cx target]
  | _ => operands.mapM (argument cx)

/-- The variable that a result goes to, or 0 with the symbol it waits for. -/
def storeVariable (cx : Context) (e : Expr) : Step (UInt8 × Option String) := do
  match ← evaluate cx e with
  | .known .var value => return (UInt8.ofInt value.toInt, none)
  | .known _ _ => skip .storeTarget
  | .unknown symbol => return (0, some symbol)

def destination (target : BranchTarget) : Step Destination := do
  match target with
  | .returnTrue => return .ret true
  | .returnFalse => return .ret false
  | .label name =>
    let s ← get
    if s.scope.isNone then skip (.branchOutsideRoutine name)
    else
      match s.locals.lookup name with
      | some symbol =>
        if symbol.kind = .label then return .address symbol.value.toUInt32.toNat
        else skip (.branchTarget name)
      | none => skip (.branchTarget name)

/-- Remembers the operands that wait for a symbol; `offsets` tells where they were encoded. -/
def addOperandFixups (address : Nat) (args : List Argument) (offsets : List Nat) : Step Unit :=
  (args.zip offsets).forM fun (arg, offset) =>
    match arg.waitsFor with
    | some symbol =>
      addFixup { symbol, expr := arg.expr, target := .image (address + offset) .word,
                 relativeTo := arg.relativeTo }
    | none => pure ()

def instruction (cx : Context) (i : Instruction) : Step Unit := do
  let op ← selectOpcode cx i.opcode i.operands.length
  match shapeProblem? i op with
  | some problem => skip problem
  | none => pure ()
  let address ← position
  let args ← arguments cx op address i.operands
  let target ← i.store.mapM (storeVariable cx)
  let branch ← i.branch.mapM fun b => do
    return ({ onTrue := b.onTrue, destination := ← destination b.target } : BranchField)
  let encoder := (← get).encoder
  let request : Bytecode.Request :=
    { opcode := op, operands := args.map (·.operand), store := target.map (·.1), branch,
      text := i.text.map encoder.encode, address }
  match Bytecode.encode request with
  | .error error => skip (.encoding error)
  | .ok encoded =>
    store encoded.bytes
    addOperandFixups address args encoded.operandOffsets
    match i.store, target, encoded.storeOffset with
    | some e, some (_, some symbol), some offset =>
      addFixup { symbol, expr := e, target := .image (address + offset) .byte }
    | _, _, _ => pure ()
    match i.text with
    | some text => collectText text
    | none => pure ()

end ZAssembler.Assembly
