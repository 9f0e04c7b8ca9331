import ZAssembler.Version
import ZAssembler.Word

/-
  Packed addresses of routines and strings. A packed address is the distance from a base divided
  by the version's divisor. The base is 0 except in versions 6 and 7, where the first routine and
  the first string of a pass each fix theirs at the multiple of 8 at or below them; there the
  distance is kept above 0, so that no packed address is 0.
-/

namespace ZAssembler

inductive PackedKind
  | routine | string
  deriving DecidableEq, Repr

/-- The bases fixed so far in a pass. -/
structure PackingBases where
  routine : Option Nat := none
  string : Option Nat := none
  deriving DecidableEq, Repr, Inhabited

namespace PackingBases

def get (b : PackingBases) : PackedKind → Option Nat
  | .routine => b.routine
  | .string => b.string

def set (b : PackingBases) (kind : PackedKind) (base : Nat) : PackingBases :=
  match kind with
  | .routine => { b with routine := some base }
  | .string => { b with string := some base }

end PackingBases

/-- Bytes from `position` to the next multiple of `divisor`. -/
def alignment (divisor position : Nat) : Nat := (divisor - position % divisor) % divisor

structure Packing where
  version : Version
  bases : PackingBases := {}
  deriving DecidableEq, Repr

namespace Packing

/-- The base for `kind`, fixed by `position` if none is fixed yet. -/
def baseAt (p : Packing) (kind : PackedKind) (position : Nat) : Nat :=
  (p.bases.get kind).getD (position / 8 * 8)

/-- The padding before a routine or string that comes at `position`, and the bases after it. -/
def padding (p : Packing) (kind : PackedKind) (position : Nat) : Nat × Packing :=
  let divisor := p.version.packingDivisor
  if p.version.usesPackingOffsets then
    let base := p.baseAt kind position
    let pad := alignment divisor (position - base)
    (if wrapAddress (position + pad) = base then pad + divisor else pad,
      { p with bases := p.bases.set kind base })
  else (alignment divisor position, p)

/-- The packed form of an aligned address; it may exceed 16 bits. -/
def pack (p : Packing) (kind : PackedKind) (addr : Nat) : Nat :=
  (addr - (p.bases.get kind).getD 0) / p.version.packingDivisor

/-- The header words that name the routine base and the string base. -/
def headerOffsets (p : Packing) : UInt16 × UInt16 :=
  if p.version.usesPackingOffsets then
    (UInt16.ofNat (p.bases.routine.getD 0 / 8), UInt16.ofNat (p.bases.string.getD 0 / 8))
  else (0, 0)

end Packing

end ZAssembler
