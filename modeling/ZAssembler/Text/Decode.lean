/-
  Bytes read as text. Where they are not UTF-8, the longest part that could begin a character
  stands as one replacement character, and so does a byte that could not.
-/

namespace ZAssembler.Text

/-- How far a character has been read. -/
inductive Decoding
  | fresh
  /-- Bytes still to come, the bounds of the next one, and the value so far. -/
  | within (count : Nat) (lo hi : UInt8) (value : Nat)
  deriving DecidableEq, Repr

namespace Decoding

def replacement : Char := '�'

/-- The characters that the first byte of a character completes, and what follows it. -/
def first (b : UInt8) : List Char × Decoding :=
  let n := b.toNat
  if n < 0x80 then ([Char.ofNat n], fresh)
  else if n < 0xC2 then ([replacement], fresh)
  else if n < 0xE0 then ([], within 1 0x80 0xBF (n - 0xC0))
  else if n < 0xF0 then
    let lo := if n = 0xE0 then 0xA0 else 0x80
    let hi := if n = 0xED then 0x9F else 0xBF
    ([], within 2 lo hi (n - 0xE0))
  else if n < 0xF5 then
    let lo := if n = 0xF0 then 0x90 else 0x80
    let hi := if n = 0xF4 then 0x8F else 0xBF
    ([], within 3 lo hi (n - 0xF0))
  else ([replacement], fresh)

def step (d : Decoding) (b : UInt8) : List Char × Decoding :=
  match d with
  | fresh => first b
  | within count lo hi value =>
    if lo ≤ b ∧ b ≤ hi then
      let value := 64 * value + (b.toNat - 0x80)
      if count ≤ 1 then ([Char.ofNat value], fresh)
      else ([], within (count - 1) 0x80 0xBF value)
    else
      let (chars, d) := first b
      (replacement :: chars, d)

def run : Decoding → List UInt8 → List Char
  | fresh, [] => []
  | within _ _ _ _, [] => [replacement]
  | d, b :: rest =>
    let (chars, d) := d.step b
    chars ++ run d rest

end Decoding

/-- The text of some bytes. -/
def ofBytes (bytes : List UInt8) : String := String.ofList (Decoding.run .fresh bytes)

end ZAssembler.Text
