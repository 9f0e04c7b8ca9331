/-
  The numbers of the image: big-endian 16-bit words, and 32-bit values as the image stores them
  and as messages show them.
-/

namespace ZAssembler

/-- The signed 32-bit value that `n` wraps to. -/
def wrap32 (n : Int) : Int := n.bmod 4294967296

theorem wrap32_of_small {n : Int} (hlo : -2147483648 ≤ n) (hhi : n < 2147483648) :
    wrap32 n = n := by
  unfold wrap32 Int.bmod
  dsimp only
  split <;> omega

/-- Addresses are 32-bit numbers: the address that `addr` wraps to. -/
def wrapAddress (addr : Nat) : Nat := addr % 4294967296

theorem wrapAddress_of_lt {addr : Nat} (h : addr < 4294967296) : wrapAddress addr = addr :=
  Nat.mod_eq_of_lt h

/-- A word's two bytes, high byte first. -/
def wordBytes (w : UInt16) : List UInt8 := [UInt8.ofNat (w.toNat / 256), UInt8.ofNat w.toNat]

@[simp] theorem length_wordBytes (w : UInt16) : (wordBytes w).length = 2 := rfl

/-- Where and how wide a value is stored. -/
inductive Width
  | byte | word
  deriving DecidableEq, Repr

/-- The bytes a value is stored as: its low 8 or 16 bits. -/
def Width.bytes (width : Width) (value : Int32) : List UInt8 :=
  match width with
  | .byte => [UInt8.ofInt value.toInt]
  | .word => wordBytes (UInt16.ofInt value.toInt)

/-- A value fits an operand byte. -/
def fitsByte (value : Int32) : Bool := 0 ≤ value ∧ value ≤ 255

/-- The low 16 bits of a value. -/
def lowWord (value : Int32) : UInt16 := UInt16.ofInt value.toInt

/-! ## Hexadecimal text -/

def hex (n : Nat) : String := "0x" ++ String.ofList (Nat.toDigits 16 n)

/-- A negative value shows as its 32-bit two's complement. -/
def hexValue (value : Int32) : String := hex value.toUInt32.toNat

end ZAssembler
