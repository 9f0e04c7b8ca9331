import ZAssembler.Assembly.Label
import ZAssembler.Assembly.Value
import ZAssembler.Vocabulary

/-
  Tables and vocabulary blocks. A table checks its declared size when it closes. A vocabulary block
  is sorted when it closes: its labels and the values that wait in it follow their records.
-/

namespace ZAssembler.Assembly

/-! ## Tables -/

def openTable (cx : Context) (size : Option Expr) : Step Unit := do
  match (← get).table with
  | some table => skip (.nestedTable table.start)
  | none =>
    let declared ← match size with
      | some e => do pure ((← layoutValue cx e).map fun value => value.toInt.toNat)
      | none => pure none
    modify fun s => { s with table := some { start := s.image.cursor, size := declared } }

def closeTable : Step Unit := do
  let s ← get
  match s.table with
  | none => skip .tableNotOpen
  | some table =>
    set { s with table := none }
    match table.mismatch s.image.cursor with
    | some actual => skip (.tableSizeMismatch table.start (table.size.getD 0) actual)
    | none => pure ()

/-! ## Vocabulary blocks -/

def openVocabulary (cx : Context) (recordSize keySize : Expr) : Step Unit := do
  if (← get).vocabulary.isSome then skip .nestedVocabulary
  let recordSize ← constant cx "Vocabulary record size" recordSize
  let keySize ← constant cx "Vocabulary key size" keySize
  if recordSize ≤ 0 ∨ keySize ≤ 0 ∨ recordSize < keySize then
    skip (.vocabularySizes recordSize keySize)
  modify fun s =>
    let opened : OpenVocabulary :=
      { recordSize := recordSize.toInt.toNat, keySize := keySize.toInt.toNat
        start := s.image.cursor, fixupStart := s.fixups.size }
    { s with vocabulary := some opened }

/-- Moves a label with its record. -/
def relocateLabel (cx : Context) (v : OpenVocabulary) (order : List Nat) (label : VocabularyLabel) :
    Step Unit := do
  let moved := Vocabulary.relocate v.start v.recordSize order label.position
  modify fun s => { s with globals := s.globals.relocate label.name (Int32.ofNat moved) }
  match label.previous with
  | some old => noteChange cx label.name old
  | none => pure ()

/-- The fixup after its record has moved; `finish` is where the block ends. -/
def Fixup.relocate (f : Fixup) (v : OpenVocabulary) (order : List Nat) (finish : Nat) : Fixup :=
  match f.target with
  | .image addr width =>
    if v.start ≤ addr ∧ addr < finish then
      { f with target := .image (Vocabulary.relocate v.start v.recordSize order addr) width }
    else f
  | .dependency => f

/-- Applies a fixup, or keeps it for later. -/
def settleFixup (cx : Context) (f : Fixup) : Step Unit := do
  if !(← applyFixup cx f) then addFixup f

def closeVocabulary (cx : Context) : Step Unit := do
  let s ← get
  match s.vocabulary with
  | none => skip .vocabularyNotOpen
  | some v =>
    set { s with vocabulary := none }
    let finish := s.image.cursor
    let length := finish - v.start
    if length % v.recordSize ≠ 0 then warn cx (.partialRecord length v.recordSize)
    let bytes := s.image.read v.start length
    let order := Vocabulary.sortOrder bytes v.recordSize v.keySize
    modify fun s =>
      { s with image := s.image.patch v.start (Vocabulary.arrange bytes v.recordSize order) }
    logEvent (.vocabularySorted order.length v.start)
    v.labels.forM (relocateLabel cx v order)
    let pending := ((← get).fixups.toList.drop v.fixupStart).map (·.relocate v order finish)
    modify fun s => { s with fixups := s.fixups.take v.fixupStart }
    pending.forM (settleFixup cx)
    v.deferred.forM fun (name, old) => noteChange cx name old

end ZAssembler.Assembly
