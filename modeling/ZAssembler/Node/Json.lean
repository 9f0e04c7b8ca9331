import ZAssembler.Json.Library
import ZAssembler.Node

/-
  The hand-off format of programs: a list of nodes. `read?` reads a value, `write` writes one with
  every field given. The names of records and variants and the defaults of fields are those of this
  format; what they look like in JSON is left to the library. Readers take how many arrays and
  objects may still be opened.
-/

namespace ZAssembler

open Json (orElse?)

/-! ## Expressions -/

namespace Expr

def read? (lib : Json.Library) (d : Nat) (j : Json) : Option Expr :=
  match lib.variant? d j with
  | some ("number", some (value, _)) => (lib.int32? value).map .number
  | some ("symbol", some (name, _)) => (lib.text? name).map .symbol
  | some ("quote", some (name, _)) => (lib.text? name).map .quote
  | some ("add", some (sides, d)) =>
    match lib.items? d sides with
    | some ([left, right], d) => do
      return .add (← read? lib d left) (← read? lib d right)
    | _ => none
  | _ => none
termination_by d

def write (lib : Json.Library) : Expr → Json
  | number value => lib.tagged "number" (lib.int value.toInt)
  | symbol name => lib.tagged "symbol" (lib.string name)
  | quote name => lib.tagged "quote" (lib.string name)
  | add left right => lib.tagged "add" (lib.list [left.write lib, right.write lib])

end Expr

/-! ## Parts of nodes -/

namespace Location

def read? (lib : Json.Library) (d : Nat) (j : Json) : Option Location :=
  match lib.fields? ["file", "line"] d j with
  | some ([file, line], _) => do
    return { file := ← orElse? lib.text? "" file, line := ← orElse? lib.uint32? 0 line }
  | _ => none

def write (lib : Json.Library) (l : Location) : Json :=
  lib.record [("file", lib.string l.file), ("line", lib.int l.line.toNat)]

end Location

namespace BranchTarget

def read? (lib : Json.Library) (d : Nat) (j : Json) : Option BranchTarget := do
  let (name, data) ← lib.variant? d j
  if name = "true" ∧ lib.isBare data then some .returnTrue
  else if name = "false" ∧ lib.isBare data then some .returnFalse
  else if name = "label" then (data.bind fun (name, _) => lib.text? name).map .label
  else none

def write (lib : Json.Library) : BranchTarget → Json
  | returnTrue => lib.bare "true"
  | returnFalse => lib.bare "false"
  | label name => lib.tagged "label" (lib.string name)

end BranchTarget

namespace Branch

def read? (lib : Json.Library) (d : Nat) (j : Json) : Option Branch :=
  match lib.fields? ["on_true", "target"] d j with
  | some ([onTrue, target], d) => do
    return { onTrue := ← orElse? lib.bool? true onTrue,
             target := ← target.bind (BranchTarget.read? lib d) }
  | _ => none

def write (lib : Json.Library) (b : Branch) : Json :=
  lib.record [("on_true", lib.bool b.onTrue), ("target", b.target.write lib)]

end Branch

namespace Instruction

def read? (lib : Json.Library) (d : Nat) (j : Json) : Option Instruction :=
  match lib.fields? ["opcode", "operands", "store", "branch", "text"] d j with
  | some ([opcode, operands, store, branch, text], d) => do
    return { opcode := ← opcode.bind lib.text?
             operands := ← orElse? (lib.list? (Expr.read? lib) d) [] operands
             store := ← orElse? (lib.option? (Expr.read? lib) d) none store
             branch := ← orElse? (lib.option? (Branch.read? lib) d) none branch
             text := ← orElse? (lib.option? (fun _ => lib.text?) d) none text }
  | _ => none

def write (lib : Json.Library) (i : Instruction) : Json :=
  lib.record [("opcode", lib.string i.opcode), ("operands", lib.listOf (Expr.write lib) i.operands),
    ("store", lib.optionOf (Expr.write lib) i.store),
    ("branch", lib.optionOf (Branch.write lib) i.branch), ("text", lib.optionOf lib.string i.text)]

end Instruction

namespace LocalDecl

def read? (lib : Json.Library) (d : Nat) (j : Json) : Option LocalDecl :=
  match lib.fields? ["name", "default"] d j with
  | some ([name, value], d) => do
    return { name := ← name.bind lib.text?
             default := ← orElse? (lib.option? (Expr.read? lib) d) none value }
  | _ => none

def write (lib : Json.Library) (l : LocalDecl) : Json :=
  lib.record [("name", lib.string l.name), ("default", lib.optionOf (Expr.write lib) l.default)]

end LocalDecl

/-! ## Debug directives -/

namespace DebugTable

def all : List DebugTable := [action, attr, property, global, array, object]

def read? (lib : Json.Library) (d : Nat) (j : Json) : Option DebugTable := do
  let (name, data) ← lib.variant? d j
  if lib.isBare data then all.find? (·.text == name) else none

def write (lib : Json.Library) (t : DebugTable) : Json := lib.bare t.text

end DebugTable

namespace SourcePoint

def read? (lib : Json.Library) (file line column : Option Json) : Option SourcePoint := do
  return { file := ← file.bind lib.uint16?, line := ← line.bind lib.uint32?,
           column := ← column.bind lib.uint32? }

/-- The fields of a point, which stand among those of a larger record. -/
def members (lib : Json.Library) (p : SourcePoint) : List (String × Json) :=
  [("file", lib.int p.file.toNat), ("line", lib.int p.line.toNat),
    ("column", lib.int p.column.toNat)]

end SourcePoint

namespace DebugDirective

def read? (lib : Json.Library) (d : Nat) (j : Json) : Option DebugDirective := do
  let (name, data) ← lib.variant? d j
  let (data, d) ← data
  if name = "file" then
    match lib.fields? ["number", "include_name", "actual_name"] d data with
    | some ([number, includeName, actualName], _) =>
      return .file (← number.bind lib.uint16?) (← includeName.bind lib.text?)
        (← actualName.bind lib.text?)
    | _ => none
  else if name = "line" then
    match lib.fields? ["file", "line", "column"] d data with
    | some ([f, l, c], _) => return .line (← SourcePoint.read? lib f l c)
    | _ => none
  else if name = "routine" then
    match lib.fields? ["file", "line", "column", "name", "locals"] d data with
    | some ([f, l, c, title, locals], d) =>
      return .routine (← SourcePoint.read? lib f l c) (← title.bind lib.text?)
        (← orElse? (lib.list? (fun _ => lib.text?) d) [] locals)
    | _ => none
  else if name = "routine_end" then
    match lib.fields? ["file", "line", "column"] d data with
    | some ([f, l, c], _) => return .routineEnd (← SourcePoint.read? lib f l c)
    | _ => none
  else if name = "named" then
    match lib.fields? ["table", "number", "name"] d data with
    | some ([table, number, thing], d) =>
      return .named (← table.bind (DebugTable.read? lib d)) (← number.bind (Expr.read? lib d))
        (← thing.bind lib.text?)
    | _ => none
  else none

def write (lib : Json.Library) : DebugDirective → Json
  | file number includeName actualName =>
    lib.tagged "file" (lib.record [("number", lib.int number.toNat),
      ("include_name", lib.string includeName), ("actual_name", lib.string actualName)])
  | line point => lib.tagged "line" (lib.record (point.members lib))
  | routine point name locals =>
    lib.tagged "routine" (lib.record (point.members lib ++
      [("name", lib.string name), ("locals", lib.listOf lib.string locals)]))
  | routineEnd point => lib.tagged "routine_end" (lib.record (point.members lib))
  | named table number name =>
    lib.tagged "named" (lib.record [("table", table.write lib), ("number", number.write lib),
      ("name", lib.string name)])

end DebugDirective

/-! ## Directives -/

namespace ObjectEntry

def read? (lib : Json.Library) (d : Nat) (j : Json) : Option ObjectEntry :=
  match lib.fields? ["name", "flags", "parent", "sibling", "child", "properties"] d j with
  | some ([name, flags, parent, sibling, child, properties], d) => do
    return { name := ← name.bind lib.text?
             flags := ← flags.bind (lib.list? (Expr.read? lib) d)
             parent := ← parent.bind (Expr.read? lib d)
             sibling := ← sibling.bind (Expr.read? lib d)
             child := ← child.bind (Expr.read? lib d)
             properties := ← properties.bind (Expr.read? lib d) }
  | _ => none

def write (lib : Json.Library) (o : ObjectEntry) : Json :=
  lib.record [("name", lib.string o.name), ("flags", lib.listOf (Expr.write lib) o.flags),
    ("parent", o.parent.write lib), ("sibling", o.sibling.write lib), ("child", o.child.write lib),
    ("properties", o.properties.write lib)]

end ObjectEntry

namespace Directive

/-- The directives without data. -/
def bare? : String → Option Directive
  | "end" => some .stop
  | "endt" => some .endt
  | "vocend" => some .vocend
  | "pdef" => some .pdef
  | "time" => some .time
  | "sound" => some .sound
  | _ => none

/-- The two fields of a record, of which the first has to be there. -/
def pair? {α β : Type} (lib : Json.Library) (first second : String)
    (readFirst : Nat → Json → Option α) (readSecond : Nat → Option Json → Option β) (d : Nat)
    (data : Json) : Option (α × β) :=
  match lib.fields? [first, second] d data with
  | some ([some a, b], d) => do return (← readFirst d a, ← readSecond d b)
  | _ => none

/-- A field that has to be there. -/
def needed? {α : Type} (read : Nat → Json → Option α) (d : Nat) (field : Option Json) : Option α :=
  field.bind (read d)

/-- The data of a table is a record of one field. -/
def size? (lib : Json.Library) (d : Nat) (data : Json) : Option (Option Expr) :=
  match lib.fields? ["size"] d data with
  | some ([size], d) => orElse? (lib.option? (Expr.read? lib) d) none size
  | _ => none

/-- A directive with data, by its name. -/
def withData? (lib : Json.Library) (d : Nat) (name : String) (data : Json) : Option Directive :=
  let text := fun (_ : Nat) => lib.text?
  let expr := Expr.read? lib
  match name with
  | "new" => (expr d data).map .new
  | "funct" =>
    (pair? lib "name" "locals" text (fun d => orElse? (lib.list? (LocalDecl.read? lib) d) []) d
      data).map fun p => .funct p.1 p.2
  | "byte" => (lib.list? expr d data).map .byte
  | "word" => (lib.list? expr d data).map .word
  | "str" => (lib.text? data).map .str
  | "strl" => (lib.text? data).map .strl
  | "len" => (lib.text? data).map .len
  | "zword" => (lib.text? data).map .zword
  | "gstr" => (pair? lib "name" "text" text (needed? text) d data).map fun p => .gstr p.1 p.2
  | "fstr" => (pair? lib "name" "text" text (needed? text) d data).map fun p => .fstr p.1 p.2
  | "equal" => (pair? lib "name" "value" text (needed? expr) d data).map fun p => .equal p.1 p.2
  | "gvar" =>
    (pair? lib "name" "default" text (fun d => orElse? (lib.option? expr d) none) d data).map
      fun p => .gvar p.1 p.2
  | "table" => (size? lib d data).map .table
  | "vocbeg" =>
    (pair? lib "record_size" "key_size" expr (needed? expr) d data).map fun p => .vocbeg p.1 p.2
  | "object" => (ObjectEntry.read? lib d data).map .object
  | "prop" => (pair? lib "size" "number" expr (needed? expr) d data).map fun p => .prop p.1 p.2
  | "debug" => (DebugDirective.read? lib d data).map .debug
  | _ => none

def read? (lib : Json.Library) (d : Nat) (j : Json) : Option Directive := do
  let (name, data) ← lib.variant? d j
  match bare? name with
  | some directive => if lib.isBare data then some directive else none
  | none =>
    let (data, d) ← data
    withData? lib d name data

def write (lib : Json.Library) : Directive → Json
  | new version => lib.tagged "new" (version.write lib)
  | funct name locals =>
    lib.tagged "funct" (lib.record [("name", lib.string name),
      ("locals", lib.listOf (LocalDecl.write lib) locals)])
  | stop => lib.bare "end"
  | byte values => lib.tagged "byte" (lib.listOf (Expr.write lib) values)
  | word values => lib.tagged "word" (lib.listOf (Expr.write lib) values)
  | str text => lib.tagged "str" (lib.string text)
  | strl text => lib.tagged "strl" (lib.string text)
  | len text => lib.tagged "len" (lib.string text)
  | zword text => lib.tagged "zword" (lib.string text)
  | gstr name text =>
    lib.tagged "gstr" (lib.record [("name", lib.string name), ("text", lib.string text)])
  | fstr name text =>
    lib.tagged "fstr" (lib.record [("name", lib.string name), ("text", lib.string text)])
  | equal name value =>
    lib.tagged "equal" (lib.record [("name", lib.string name), ("value", value.write lib)])
  | gvar name value =>
    lib.tagged "gvar" (lib.record [("name", lib.string name),
      ("default", lib.optionOf (Expr.write lib) value)])
  | table size => lib.tagged "table" (lib.record [("size", lib.optionOf (Expr.write lib) size)])
  | endt => lib.bare "endt"
  | vocbeg recordSize keySize =>
    lib.tagged "vocbeg" (lib.record [("record_size", recordSize.write lib),
      ("key_size", keySize.write lib)])
  | vocend => lib.bare "vocend"
  | object entry => lib.tagged "object" (entry.write lib)
  | prop size number =>
    lib.tagged "prop" (lib.record [("size", size.write lib), ("number", number.write lib)])
  | pdef => lib.bare "pdef"
  | time => lib.bare "time"
  | sound => lib.bare "sound"
  | debug directive => lib.tagged "debug" (directive.write lib)

end Directive

/-! ## Nodes -/

namespace NodeKind

def read? (lib : Json.Library) (d : Nat) (j : Json) : Option NodeKind := do
  let (name, data) ← lib.variant? d j
  let (data, d) ← data
  if name = "directive" then (Directive.read? lib d data).map .directive
  else if name = "instruction" then (Instruction.read? lib d data).map .instruction
  else if name = "global_label" then (lib.text? data).map .globalLabel
  else if name = "local_label" then (lib.text? data).map .localLabel
  else none

def write (lib : Json.Library) : NodeKind → Json
  | directive d => lib.tagged "directive" (d.write lib)
  | instruction i => lib.tagged "instruction" (i.write lib)
  | globalLabel name => lib.tagged "global_label" (lib.string name)
  | localLabel name => lib.tagged "local_label" (lib.string name)

end NodeKind

namespace Node

def read? (lib : Json.Library) (d : Nat) (j : Json) : Option Node :=
  match lib.fields? ["kind", "location"] d j with
  | some ([kind, location], d) => do
    return { kind := ← kind.bind (NodeKind.read? lib d)
             location := ← orElse? (Location.read? lib d) {} location }
  | _ => none

def write (lib : Json.Library) (n : Node) : Json :=
  lib.record [("kind", n.kind.write lib), ("location", n.location.write lib)]

/-- The nodes of a program given as a text. -/
def readText? (lib : Json.Library) (text : String) : Option (List Node) :=
  (lib.parse? text).bind (lib.list? (read? lib) lib.limit)

def writeText (lib : Json.Library) (nodes : List Node) : String :=
  lib.print (lib.listOf (write lib) nodes)

/-! ## With the library of the program -/

def nestingLimit : Nat := Json.library.limit

def toJson : Node → Json := write Json.library

/-- The nodes of a program given as a JSON value. -/
def listOfJson? (j : Json) : Option (List Node) :=
  Json.library.list? (read? Json.library) nestingLimit j

/-- The nodes of a program given as JSON text. -/
def listOfText? : String → Option (List Node) := readText? Json.library

def listToText : List Node → String := writeText Json.library

end Node

def Expr.ofJson? : Nat → Json → Option Expr := Expr.read? Json.library

end ZAssembler
