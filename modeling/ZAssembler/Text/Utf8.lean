/-
  The encoding of characters as bytes, for whole ranges of characters: a range is cut into ranges
  whose encodings are all sequences of one byte from each of some ranges of bytes.
-/

namespace ZAssembler.Text.Utf8

abbrev Range := Nat × Nat

/-- The bytes of a code point. -/
def encode (n : Nat) : List Nat :=
  let more (k : Nat) : Nat := 128 + n / k % 64
  if n < 0x80 then [n]
  else if n < 0x800 then [192 + n / 64, more 1]
  else if n < 0x10000 then [224 + n / 4096, more 64, more 1]
  else [240 + n / 262144, more 4096, more 64, more 1]

/-- Where a range has to be cut so that all encodings are of one length, and so that a byte takes
    on all its values if an earlier one takes on several: the last code point of the first part. -/
def cut? (lo hi : Nat) : Option Nat :=
  if hi < 0x80 then none
  else
    match [0x7F, 0x7FF, 0xFFFF].find? fun last => lo ≤ last && last < hi with
    | some last => some last
    | none =>
      [64, 4096, 262144].findSome? fun block =>
        if lo / block = hi / block then none
        else if lo % block ≠ 0 then some (lo - lo % block + block - 1)
        else if hi % block ≠ block - 1 then some (hi - hi % block - 1)
        else none

/-- The sequences for a range without surrogates, which takes no more than `fuel` cuts in a row. -/
def cutSequences : (fuel lo hi : Nat) → List (List Range)
  | 0, _, _ => []
  | fuel + 1, lo, hi =>
    match cut? lo hi with
    | some last => cutSequences fuel lo last ++ cutSequences fuel (last + 1) hi
    | none => [(encode lo).zip (encode hi)]

/-- The sequences for a range. Surrogates have no encoding. -/
def sequences (lo hi : Nat) : List (List Range) :=
  let below := if lo ≤ 0xD7FF then cutSequences 16 lo (min hi 0xD7FF) else []
  let above := if 0xE000 ≤ hi then cutSequences 16 (max lo 0xE000) hi else []
  below ++ above

end ZAssembler.Text.Utf8
