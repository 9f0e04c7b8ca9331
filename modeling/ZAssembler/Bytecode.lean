import ZAssembler.Opcode
import ZAssembler.Word

/-
  The bytecode of one instruction. Operands, store target and branch destination arrive resolved;
  `encode` picks the form of the opening bytes and reports where each value landed, so that a
  placeholder can be patched later.

  A branch is stored relative to the byte after it, plus two: offsets 0 and 1 mean a return. It
  takes one byte when the offset is 2 to 63, else two bytes with a signed 14-bit offset.
-/

namespace ZAssembler

inductive Operand
  | word (value : UInt16)
  | byte (value : UInt8)
  | var (number : UInt8)
  deriving DecidableEq, Repr

namespace Operand

def typeBits : Operand → Nat
  | word _ => 0
  | byte _ => 1
  | var _ => 2

def isWord : Operand → Bool
  | word _ => true
  | _ => false

def isVar : Operand → Bool
  | var _ => true
  | _ => false

def bytes : Operand → List UInt8
  | word value => wordBytes value
  | byte value => [value]
  | var number => [number]

end Operand

inductive Destination
  /-- Return from the routine with this value. -/
  | ret (value : Bool)
  | address (addr : Nat)
  deriving DecidableEq, Repr

structure BranchField where
  onTrue : Bool
  destination : Destination
  deriving DecidableEq, Repr

namespace Bytecode

inductive EncodeError
  | operandCount (op : Opcode) (given : Nat)
  | branchOutOfRange (offset : Int)
  /-- Offsets 0 and 1 mean a return and cannot reach a label. -/
  | branchIntoInstruction
  deriving DecidableEq, Repr

def EncodeError.message : EncodeError → String
  | .operandCount op given =>
    if op.minOperands = op.maxOperands then
      s!"{op.name} takes {op.minOperands} operands, {given} given"
    else
      s!"{op.name} takes {op.minOperands} to {op.maxOperands} operands, {given} given"
  | .branchOutOfRange offset => s!"Branch offset {offset} is out of range"
  | .branchIntoInstruction => "Branch target lies inside the branching instruction"

/-! ## Opening bytes -/

/-- The two type bits of an operand slot; a slot without operand has 3. -/
def slotBits (operands : List Operand) (slot : Nat) : Nat :=
  (operands[slot]?).elim 3 Operand.typeBits

/-- The types of the four operands from `first` on, two bits each. -/
def typeByte (operands : List Operand) (first : Nat) : UInt8 :=
  UInt8.ofNat (slotBits operands first * 64 + slotBits operands (first + 1) * 16 +
    slotBits operands (first + 2) * 4 + slotBits operands (first + 3))

/-- What precedes the operand values: the opcode's form and number, and type bytes if the form has
    them. A two-operand opcode with a word operand or another count takes the variable form. -/
def opening (op : Opcode) (operands : List Operand) : List UInt8 :=
  match op.form with
  | .twoOp =>
    match operands with
    | [a, b] =>
      if a.isWord || b.isWord then [UInt8.ofNat (0xC0 + op.number % 32), typeByte operands 0]
      else [UInt8.ofNat (op.number % 32 + (if a.isVar then 0x40 else 0) +
        (if b.isVar then 0x20 else 0))]
    | _ => [UInt8.ofNat (0xC0 + op.number % 32), typeByte operands 0]
  | .oneOp => [UInt8.ofNat (0x80 + slotBits operands 0 * 16 + op.number % 16)]
  | .zeroOp => [UInt8.ofNat (0xB0 + op.number % 16)]
  | .var =>
    if op.hasDoubleTypes then
      [UInt8.ofNat (0xE0 + op.number % 32), typeByte operands 0, typeByte operands 4]
    else [UInt8.ofNat (0xE0 + op.number % 32), typeByte operands 0]
  | .ext => [0xBE, UInt8.ofNat (op.number - 256), typeByte operands 0]

/-- Where each operand's value starts, when the first starts at `start`. -/
def offsetsFrom (start : Nat) : List Operand → List Nat
  | [] => []
  | operand :: rest => start :: offsetsFrom (start + operand.bytes.length) rest

/-! ## Branches -/

/-- The stored offset of a branch to `target` whose field ends before `after`. -/
def branchOffset (target after : Nat) : Int := wrap32 (target - after + 2)

/-- The operand word of a jump at `address` to `target`. -/
def jumpOffset (target address : Nat) : UInt16 := UInt16.ofInt (target - (address + 3) + 2)

/-- The branch field at address `start`, and whether it is the two-byte form. -/
def branchBytes (branch : BranchField) (start : Nat) : Except EncodeError (List UInt8 × Bool) :=
  let polarity := if branch.onTrue then 0x80 else 0
  match branch.destination with
  | .ret value => .ok ([UInt8.ofNat (polarity + 0x40 + value.toNat)], false)
  | .address target =>
    let short := branchOffset target (start + 1)
    let long := branchOffset target (start + 2)
    if 2 ≤ short ∧ short ≤ 63 then .ok ([UInt8.ofNat (polarity + 0x40 + short.toNat)], false)
    else if long < -8192 ∨ 8191 < long then .error (.branchOutOfRange long)
    else if long = 0 ∨ long = 1 then .error .branchIntoInstruction
    else
      let bits := (long % 16384).toNat
      .ok ([UInt8.ofNat (polarity + bits / 256), UInt8.ofNat bits], true)

/-! ## Instructions -/

/-- One instruction ready to be encoded at `address`. -/
structure Request where
  opcode : Opcode
  operands : List Operand
  store : Option UInt8 := none
  branch : Option BranchField := none
  /-- The encoded Z-string that follows. -/
  text : Option (List UInt8) := none
  address : Nat
  deriving Repr

structure Encoded where
  bytes : List UInt8
  /-- Where each operand's value lies within `bytes`. -/
  operandOffsets : List Nat
  storeOffset : Option Nat
  longBranch : Bool
  deriving DecidableEq, Repr

/-- A storing opcode without a target stores to variable 0, the stack. -/
def encode (req : Request) : Except EncodeError Encoded := do
  let op := req.opcode
  let count := req.operands.length
  if count < op.minOperands ∨ op.maxOperands < count then
    throw (.operandCount op count)
  let first := opening op req.operands
  let valued := first ++ req.operands.flatMap Operand.bytes
  let stored := if op.stores then valued ++ [req.store.getD 0] else valued
  let (branch, longBranch) ← match req.branch with
    | some field => branchBytes field (req.address + stored.length)
    | none => pure ([], false)
  return {
    bytes := stored ++ branch ++ req.text.getD []
    operandOffsets := offsetsFrom first.length req.operands
    storeOffset := if op.stores then some valued.length else none
    longBranch }

end Bytecode

end ZAssembler
