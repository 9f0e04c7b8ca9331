import ZAssembler.Word

/-
  Vocabulary blocks: records of one size that are sorted by their leading key bytes when the block
  closes. Labels and values inside a block follow their record to its new place.
-/

namespace ZAssembler.Vocabulary

/-- Byte-wise comparison of keys. -/
def keyLE : List UInt8 → List UInt8 → Bool
  | [], _ => true
  | _ :: _, [] => false
  | a :: as, b :: bs => a < b || (a == b && keyLE as bs)

/-- The record with a given index. -/
def recordAt (bytes : List UInt8) (recordSize index : Nat) : List UInt8 :=
  (bytes.drop (index * recordSize)).take recordSize

/-- The indices of the whole records, in the order of their keys; equal keys keep their order. -/
def sortOrder (bytes : List UInt8) (recordSize keySize : Nat) : List Nat :=
  if recordSize = 0 then []
  else
    let key (index : Nat) := (recordAt bytes recordSize index).take keySize
    (List.range (bytes.length / recordSize)).mergeSort fun a b => keyLE (key a) (key b)

/-- The records in a given order; bytes that fill no record stay at the end. -/
def arrange (bytes : List UInt8) (recordSize : Nat) (order : List Nat) : List UInt8 :=
  order.flatMap (recordAt bytes recordSize) ++ bytes.drop (order.length * recordSize)

/-- Where a position of the block that starts at `start` lands when the records are arranged. -/
def relocate (start recordSize : Nat) (order : List Nat) (position : Nat) : Nat :=
  if recordSize = 0 ∨ position < start then position
  else
    match order.idxOf? ((position - start) / recordSize) with
    | some slot => wrapAddress (start + slot * recordSize + (position - start) % recordSize)
    | none => position

end ZAssembler.Vocabulary
