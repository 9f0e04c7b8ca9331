/-
  Open tables: a table may declare its size when it is opened, and the declaration is checked when
  it is closed.
-/

namespace ZAssembler

structure OpenTable where
  start : Nat
  size : Option Nat := none
  deriving DecidableEq, Repr

/-- The actual size of a table that ends at `finish`, if another one was declared. -/
def OpenTable.mismatch (t : OpenTable) (finish : Nat) : Option Nat :=
  match t.size with
  | some declared => if declared ≠ finish - t.start then some (finish - t.start) else none
  | none => none

end ZAssembler
