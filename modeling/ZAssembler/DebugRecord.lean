import ZAssembler.Json.Print
import ZAssembler.Node

/-
  Debug records: what a debugger is told of a story. Records that name an address carry the image
  position at which they were reached.
-/

namespace ZAssembler

inductive DebugRecord
  | file (number : UInt16) (includeName actualName : String)
  | routineStart (point : SourcePoint) (pc : Nat) (name : String) (locals : List String)
  | routineEnd (point : SourcePoint) (pc : Nat)
  | line (point : SourcePoint) (pc : Nat)
  | named (table : DebugTable) (number : Int32) (name : String)
  deriving DecidableEq, Repr

namespace DebugRecord

def placeMembers (point : SourcePoint) (pc : Nat) : List (String × Json) :=
  [("file", .int point.file.toNat), ("line", .int point.line.toNat),
    ("column", .int point.column.toNat), ("pc", .int pc)]

def toJson : DebugRecord → Json
  | file number includeName actualName =>
    .object [("record", .string "file"), ("number", .int number.toNat),
      ("include_name", .string includeName), ("actual_name", .string actualName)]
  | routineStart point pc name locals =>
    .object ([("record", .string "routine_start")] ++ placeMembers point pc ++
      [("name", .string name), ("locals", .array (locals.map .string))])
  | routineEnd point pc => .object (("record", .string "routine_end") :: placeMembers point pc)
  | line point pc => .object (("record", .string "line") :: placeMembers point pc)
  | named table number name =>
    .object [("record", .string "named"), ("table", .string table.text),
      ("number", .int number.toInt), ("name", .string name)]

/-- The debug file of a story. -/
def listToText (records : List DebugRecord) : String :=
  (Json.array (records.map toJson)).pretty ++ "\n"

end DebugRecord

end ZAssembler
