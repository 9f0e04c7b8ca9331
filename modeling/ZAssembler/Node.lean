import ZAssembler.Expr

/-
  The nodes of a program: directives, instructions and labels, each with the place it came from. A
  program is a list of nodes; this is what the assembler reads.
-/

namespace ZAssembler

/-- Where a node came from. -/
structure Location where
  file : String := ""
  line : UInt32 := 0
  deriving DecidableEq, Repr, Inhabited

namespace Location

def text (l : Location) : String :=
  if l.file.isEmpty then s!"line {l.line.toNat}" else s!"{l.file}:{l.line.toNat}"

/-- A node that names neither file nor line has no place to report. -/
def known? (l : Location) : Option Location :=
  if l.file.isEmpty && l.line == 0 then none else some l

end Location

inductive BranchTarget
  | returnTrue
  | returnFalse
  | label (name : String)
  deriving DecidableEq, Repr

structure Branch where
  /-- Branch when the condition holds, or else when it fails. -/
  onTrue : Bool := true
  target : BranchTarget
  deriving DecidableEq, Repr

structure Instruction where
  opcode : String
  operands : List Expr := []
  store : Option Expr := none
  branch : Option Branch := none
  text : Option String := none
  deriving DecidableEq, Repr

structure LocalDecl where
  name : String
  default : Option Expr := none
  deriving DecidableEq, Repr

inductive DebugTable
  | action | attr | property | global | array | object
  deriving DecidableEq, Repr

def DebugTable.text : DebugTable → String
  | action => "action"
  | attr => "attribute"
  | property => "property"
  | global => "global"
  | array => "array"
  | object => "object"

/-- A place in the source program that a debug record tells of. -/
structure SourcePoint where
  file : UInt16
  line : UInt32
  column : UInt32
  deriving DecidableEq, Repr

inductive DebugDirective
  | file (number : UInt16) (includeName actualName : String)
  | line (point : SourcePoint)
  | routine (point : SourcePoint) (name : String) (locals : List String)
  | routineEnd (point : SourcePoint)
  | named (table : DebugTable) (number : Expr) (name : String)
  deriving DecidableEq, Repr

/-- An object's entry in the object table. -/
structure ObjectEntry where
  name : String
  flags : List Expr
  parent : Expr
  sibling : Expr
  child : Expr
  properties : Expr
  deriving DecidableEq, Repr

inductive Directive
  | new (version : Expr)
  | funct (name : String) (locals : List LocalDecl)
  /-- The program ends here; later nodes are not read. -/
  | stop
  | byte (values : List Expr)
  | word (values : List Expr)
  | str (text : String)
  | strl (text : String)
  | len (text : String)
  | zword (text : String)
  | gstr (name text : String)
  | fstr (name text : String)
  | equal (name : String) (value : Expr)
  | gvar (name : String) (default : Option Expr)
  | table (size : Option Expr)
  | endt
  | vocbeg (recordSize keySize : Expr)
  | vocend
  | object (entry : ObjectEntry)
  | prop (size number : Expr)
  | pdef
  | time
  | sound
  | debug (directive : DebugDirective)
  deriving DecidableEq, Repr

def Directive.name : Directive → String
  | .new _ => ".NEW"
  | .funct _ _ => ".FUNCT"
  | .stop => ".END"
  | .byte _ => ".BYTE"
  | .word _ => ".WORD"
  | .str _ => ".STR"
  | .strl _ => ".STRL"
  | .len _ => ".LEN"
  | .zword _ => ".ZWORD"
  | .gstr _ _ => ".GSTR"
  | .fstr _ _ => ".FSTR"
  | .equal _ _ => ".EQUAL"
  | .gvar _ _ => ".GVAR"
  | .table _ => ".TABLE"
  | .endt => ".ENDT"
  | .vocbeg _ _ => ".VOCBEG"
  | .vocend => ".VOCEND"
  | .object _ => ".OBJECT"
  | .prop _ _ => ".PROP"
  | .pdef => ".PDEF"
  | .time => ".TIME"
  | .sound => ".SOUND"
  | .debug _ => ".DEBUG"

inductive NodeKind
  | directive (directive : Directive)
  | instruction (instruction : Instruction)
  | globalLabel (name : String)
  | localLabel (name : String)
  deriving DecidableEq, Repr

structure Node where
  kind : NodeKind
  location : Location := {}
  deriving DecidableEq, Repr

namespace Node

/-- The node closes the routine before it. -/
def endsRoutine (n : Node) : Bool :=
  match n.kind with
  | .directive (.funct _ _) | .directive .stop => true
  | _ => false

def localLabel? (n : Node) : Option String :=
  match n.kind with
  | .localLabel name => some name
  | _ => none

end Node

end ZAssembler
