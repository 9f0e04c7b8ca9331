/-
  Decimal numbers as arguments and settings give them: digits, with a sign before them if it is
  allowed, and within bounds.
-/

namespace ZAssembler.Numeral

/-- The value of a non-empty run of decimal digits. -/
def digits? (cs : List Char) : Option Nat :=
  if cs.isEmpty || !cs.all Char.isDigit then none
  else some (cs.foldl (fun n c => 10 * n + (c.toNat - '0'.toNat)) 0)

/-- A number that fits 64 bits; a plus sign may precede it. -/
def natural? (text : String) : Option Nat :=
  let value := match text.toList with
    | '+' :: rest => digits? rest
    | cs => digits? cs
  value.filter (· < 18446744073709551616)

/-- A number from `lo` to `hi`; a sign may precede it. -/
def between? (lo hi : Nat) (text : String) : Option Nat :=
  let value := match text.toList with
    | '+' :: rest => digits? rest
    | '-' :: rest => (digits? rest).filter (· = 0)
    | cs => digits? cs
  value.filter fun n => lo ≤ n ∧ n ≤ hi

end ZAssembler.Numeral
