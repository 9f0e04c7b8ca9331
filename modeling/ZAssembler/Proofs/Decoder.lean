import ZAssembler.Bytecode

/-
  How the machine reads an instruction. The first byte tells the form, and with it the opcode's
  number and where the types of the operands are found; the number and the version tell what
  follows the operands. What follows is written out here from the machine's own tables and not
  from the assembler's: `table_follows` shows that the two agree on every opcode.

  Each reader takes the bytes from the place it reads on and gives back the bytes that it leaves.
-/

namespace ZAssembler.Machine

/-! ## Operands -/

/-- Reads an operand of the type that two type bits name. -/
def readOperand : Nat → List UInt8 → Option (Operand × List UInt8)
  | 0, high :: low :: rest => some (.word (UInt16.ofNat (high.toNat * 256 + low.toNat)), rest)
  | 1, value :: rest => some (.byte value, rest)
  | 2, number :: rest => some (.var number, rest)
  | _, _ => none

/-- Reads operands of the given types, each with the place of its first byte among the `size` bytes
    of the instruction. -/
def readOperands (size : Nat) : List Nat → List UInt8 → Option (List (Operand × Nat) × List UInt8)
  | [], bytes => some ([], bytes)
  | type :: types, bytes => do
    let (operand, rest) ← readOperand type bytes
    let (operands, rest) ← readOperands size types rest
    return ((operand, size - bytes.length) :: operands, rest)

/-- The four types of a type byte, two bits each. -/
def unpackTypes (b : UInt8) : List Nat :=
  [b.toNat / 64, b.toNat / 16 % 4, b.toNat / 4 % 4, b.toNat % 4]

/-- The types up to the first slot without operand. -/
def presentTypes (types : List Nat) : List Nat := types.takeWhile (· ≠ 3)

/-! ## Forms -/

/-- What the opening bytes of an instruction tell. -/
structure Opened where
  number : Nat
  types : List Nat
  rest : List UInt8
  deriving DecidableEq, Repr

/-- Reads the type bytes of an opcode in the variable or the extended form; two opcodes have a
    second type byte. -/
def readTypes (number : Nat) : List UInt8 → Option Opened
  | types :: rest =>
    if number = 236 ∨ number = 250 then
      match rest with
      | more :: rest => some ⟨number, presentTypes (unpackTypes types ++ unpackTypes more), rest⟩
      | [] => none
    else some ⟨number, presentTypes (unpackTypes types), rest⟩
  | [] => none

def readOpening (v : Version) : List UInt8 → Option Opened
  | [] => none
  | first :: rest =>
    let b := first.toNat
    if b < 0x80 then
      some ⟨b % 32, [if b / 64 % 2 = 1 then 2 else 1, if b / 32 % 2 = 1 then 2 else 1], rest⟩
    else if b < 0xB0 then some ⟨128 + b % 16, [b / 16 % 4], rest⟩
    else if b = 0xBE ∧ 5 ≤ v.number then
      match rest with
      | number :: rest => readTypes (256 + number.toNat) rest
      | [] => none
    else if b < 0xC0 then some ⟨176 + b % 16, [], rest⟩
    else if b < 0xE0 then readTypes (b % 32) rest
    else readTypes b rest

/-! ## What follows the operands -/

/-- The opcode has a store byte. -/
def hasStore (v : Version) (number : Nat) : Bool :=
  number ∈ [8, 9, 15, 16, 17, 18, 19, 20, 21, 22, 23, 24, 25, 129, 130, 131, 132, 136, 142, 224,
    231, 236, 246, 247, 248, 256, 257, 258, 259, 260, 265, 266, 268, 275] ||
  match v.number with
  | 4 => number ∈ [143, 181, 182]
  | 5 | 7 | 8 => number ∈ [185, 228]
  | 6 => number ∈ [185, 228, 233]
  | _ => number = 143

/-- The opcode has a branch field. -/
def hasBranch (v : Version) (number : Nat) : Bool :=
  number ∈ [1, 2, 3, 4, 5, 6, 7, 10, 128, 129, 130, 189, 191, 247, 255, 262, 280, 283] ||
  (v.number ≤ 3 && number ∈ [181, 182])

/-- The opcode has an inline string. -/
def hasText (number : Nat) : Bool := number = 178 || number = 179

/-- Where a branch with a stored offset goes, when its field ends before `after`. -/
def branchDestination (after : Nat) (offset : Int) : Destination :=
  if offset = 0 then .ret false
  else if offset = 1 then .ret true
  else .address (after + offset - 2).toNat

/-- Reads the branch field at address `start`. -/
def readBranch (start : Nat) : List UInt8 → Option (BranchField × List UInt8)
  | [] => none
  | first :: rest =>
    let onTrue : Bool := 128 ≤ first.toNat
    if first.toNat / 64 % 2 = 1 then
      some (⟨onTrue, branchDestination (start + 1) (first.toNat % 64 : Nat)⟩, rest)
    else
      match rest with
      | second :: rest =>
        let bits : Nat := first.toNat % 64 * 256 + second.toNat
        let offset : Int := if bits < 8192 then bits else bits - 16384
        some (⟨onTrue, branchDestination (start + 2) offset⟩, rest)
      | [] => none

/-! ## Instructions -/

structure Decoded where
  number : Nat
  operands : List Operand
  store : Option UInt8
  branch : Option BranchField
  deriving DecidableEq, Repr

def readStore (present : Bool) : List UInt8 → Option (Option UInt8 × List UInt8)
  | bytes =>
    if present then
      match bytes with
      | target :: rest => some (some target, rest)
      | [] => none
    else some (none, bytes)

def readBranchIf (present : Bool) (start : Nat) (bytes : List UInt8) :
    Option (Option BranchField × List UInt8) :=
  if present then (readBranch start bytes).map fun (field, rest) => (some field, rest)
  else some (none, bytes)

/-- Where the values of an instruction were read: how many of its bytes stand before each operand's
    value, and before the store byte. -/
structure Places where
  operands : List Nat
  store : Option Nat
  deriving DecidableEq, Repr

/-- Reads the instruction at `address` and tells where its values stand; what it leaves begins with
    the inline string of an opcode that has one. -/
def locate (v : Version) (address : Nat) (bytes : List UInt8) :
    Option (Decoded × Places × List UInt8) := do
  let passed (rest : List UInt8) := bytes.length - rest.length
  let opened ← readOpening v bytes
  let (operands, valued) ← readOperands bytes.length opened.types opened.rest
  let (store, stored) ← readStore (hasStore v opened.number) valued
  let (branch, rest) ←
    readBranchIf (hasBranch v opened.number) (address + passed stored) stored
  return (⟨opened.number, operands.map (·.1), store, branch⟩,
    ⟨operands.map (·.2), store.map fun _ => passed valued⟩, rest)

/-- Reads the instruction at `address`. -/
def decode (v : Version) (address : Nat) (bytes : List UInt8) : Option (Decoded × List UInt8) :=
  (locate v address bytes).map fun (decoded, _, rest) => (decoded, rest)

end ZAssembler.Machine
