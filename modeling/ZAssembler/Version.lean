/-
  Story file versions. The eight versions of the format differ in how addresses are packed, how
  long a story may be, and how objects, routines, text and the header are laid out; every such
  rule of the assembler is a function of `Version` and stands here.
-/

namespace ZAssembler

inductive Version
  | v1 | v2 | v3 | v4 | v5 | v6 | v7 | v8
  deriving DecidableEq, Repr, Inhabited

namespace Version

def number : Version → Nat
  | v1 => 1
  | v2 => 2
  | v3 => 3
  | v4 => 4
  | v5 => 5
  | v6 => 6
  | v7 => 7
  | v8 => 8

def ofNat? : Nat → Option Version
  | 1 => some v1
  | 2 => some v2
  | 3 => some v3
  | 4 => some v4
  | 5 => some v5
  | 6 => some v6
  | 7 => some v7
  | 8 => some v8
  | _ => none

@[simp] theorem ofNat?_number (v : Version) : ofNat? v.number = some v := by
  cases v <;> rfl

/-- The version a story has until a directive or an option names another. -/
def standard : Version := v3

def all : List Version := [v1, v2, v3, v4, v5, v6, v7, v8]

theorem mem_all (v : Version) : v ∈ all := by
  cases v <;> decide

/-! ## Addresses and sizes -/

/-- A packed address is a byte address divided by this. -/
def packingDivisor : Version → Nat
  | v1 | v2 | v3 => 2
  | v4 | v5 | v6 | v7 => 4
  | v8 => 8

/-- Versions 6 and 7 pack relative to a base that the header names. -/
def usesPackingOffsets : Version → Bool
  | v6 | v7 => true
  | _ => false

/-- The header counts the story's length in this many bytes. -/
def lengthUnit : Version → Nat
  | v1 | v2 | v3 => 2
  | v4 | v5 => 4
  | v6 | v7 | v8 => 8

def maxStorySize : Version → Nat
  | v1 | v2 | v3 => 128 * 1024
  | v4 | v5 => 256 * 1024
  | v7 => 320 * 1024
  | v6 | v8 => 512 * 1024

/-! ## Routines, objects, text and header -/

/-- Routine headers carry initial values of locals before version 5. -/
def hasLocalDefaults (v : Version) : Bool := v.number < 5

/-- Objects have byte links and 32 attributes before version 4. -/
def hasSmallObjects (v : Version) : Bool := v.number ≤ 3

/-- Versions 1 and 2 shift alphabets with the Z-characters 2 and 3. -/
def hasLegacyShifts (v : Version) : Bool := v.number ≤ 2

/-- Each bank holds 32 abbreviations. -/
def abbreviationBanks : Version → Nat
  | v1 => 0
  | v2 => 1
  | _ => 3

/-- Z-characters in a dictionary key. -/
def dictionaryKeyLength (v : Version) : Nat := if v.number ≤ 3 then 6 else 9

/-- The header has the terminating characters and extension words from version 5 on. -/
def hasExtendedHeader (v : Version) : Bool := 5 ≤ v.number

end Version

end ZAssembler
