import ZAssembler.Word

/-
  Symbols and symbol tables. A table keeps its symbols by name, in the order they first appeared.
  A symbol remembers where it was last defined: the same node may define it again, as a routine
  that is walked again does, but a second node of the same pass is a duplicate. A local label is
  predeclared as a phantom at a guessed position and confirmed once, where it is reached.
-/

namespace ZAssembler

/-- What a symbol's value means. -/
inductive SymbolKind
  /-- Referred to, but not defined. -/
  | unknown
  | constant
  | label
  | var
  /-- A packed routine address. -/
  | routine
  /-- A packed string address. -/
  | string
  | object
  deriving DecidableEq, Repr, Inhabited

namespace SymbolKind

/-- Values of this kind may be added. -/
def isAddable : SymbolKind → Bool
  | constant | label | object => true
  | _ => false

def isPacked : SymbolKind → Bool
  | routine | string => true
  | _ => false

def text : SymbolKind → String
  | unknown => "unknown"
  | constant => "constant"
  | label => "label"
  | var => "variable"
  | routine => "function"
  | string => "string"
  | object => "object"

end SymbolKind

/-- The pass and the node that defined a symbol. -/
structure Site where
  pass : Nat
  node : Nat
  deriving DecidableEq, Repr

structure Symbol where
  name : String
  kind : SymbolKind
  value : Int32
  /-- A predeclared local label that has not been reached. -/
  phantom : Bool := false
  site : Option Site := none
  deriving DecidableEq, Repr

def Symbol.isDefined (s : Symbol) : Bool := s.kind != .unknown

/-- What defining a symbol did. -/
inductive Definition
  | defined
  | unchanged
  | changed (old : Int32)
  /-- Another node of the same pass defines it, as this kind. -/
  | duplicate (kind : SymbolKind)
  deriving DecidableEq, Repr

/-- What reaching a local label did. -/
inductive Confirmation
  | confirmed
  | moved (guess actual : Int32)
  | duplicate
  | notDeclared
  deriving DecidableEq, Repr

structure SymbolTable where
  symbols : List Symbol := []
  deriving DecidableEq, Repr, Inhabited

namespace SymbolTable

def empty : SymbolTable := {}

def size (t : SymbolTable) : Nat := t.symbols.length

def lookup (t : SymbolTable) (name : String) : Option Symbol :=
  t.symbols.find? (·.name == name)

/-- The value of a defined symbol. -/
def valueOf (t : SymbolTable) (name : String) : Option Int32 :=
  ((t.lookup name).filter Symbol.isDefined).map Symbol.value

/-- Puts a symbol in the place of the one with its name, or at the end. -/
def putIn (s : Symbol) : List Symbol → List Symbol
  | [] => [s]
  | old :: rest => if old.name == s.name then s :: rest else old :: putIn s rest

def put (t : SymbolTable) (s : Symbol) : SymbolTable := { symbols := putIn s t.symbols }

/-- Remembers a name that has no value yet. -/
def mention (t : SymbolTable) (name : String) : SymbolTable :=
  match t.lookup name with
  | some _ => t
  | none => t.put { name, kind := .unknown, value := 0 }

/-- Defines a symbol, or moves it to a new value. -/
def define (t : SymbolTable) (name : String) (kind : SymbolKind) (value : Int32) (site : Site) :
    Definition × SymbolTable :=
  match t.lookup name with
  | none => (.defined, t.put { name, kind, value, site := some site })
  | some s =>
    if !s.isDefined then
      (.defined, t.put { s with kind, value, site := some site })
    else if s.site.any (fun old => old.pass == site.pass && old.node != site.node) then
      (.duplicate s.kind, t)
    else
      (if s.value = value then .unchanged else .changed s.value,
        t.put { name, kind, value, site := some site })

/-- Gives a symbol a value that belongs to no node. -/
def set (t : SymbolTable) (name : String) (kind : SymbolKind) (value : Int32) :
    Definition × SymbolTable :=
  let result : Definition := match t.valueOf name with
    | none => .defined
    | some old => if old = value then .unchanged else .changed old
  (result, t.put { name, kind, value })

/-- Moves a symbol's value, whatever node defined it. -/
def relocate (t : SymbolTable) (name : String) (value : Int32) : SymbolTable :=
  match t.lookup name with
  | some s => t.put { s with value }
  | none => t

/-- Declares a local label at a guessed position. -/
def predeclare (t : SymbolTable) (name : String) (guess : Int32) : SymbolTable :=
  t.put { name, kind := .label, value := guess, phantom := true }

/-- Reaches a local label at `position`. -/
def confirm (t : SymbolTable) (name : String) (position : Int32) : Confirmation × SymbolTable :=
  match t.lookup name with
  | none => (.notDeclared, t)
  | some s =>
    if !s.phantom then (.duplicate, t)
    else
      (if s.value = position then .confirmed else .moved s.value position,
        t.put { s with value := position, phantom := false })

/-! ## Looking up after a change -/

theorem find?_putIn (s : Symbol) (l : List Symbol) (name : String) :
    (putIn s l).find? (·.name == name) =
      if s.name = name then some s else l.find? (·.name == name) := by
  induction l with
  | nil => by_cases h : s.name = name <;> simp [putIn, h]
  | cons old rest ih =>
    by_cases hs : old.name = s.name
    · by_cases h : s.name = name <;> simp [putIn, hs, h]
    · by_cases h : s.name = name
      · have hn : ¬ old.name = name := fun e => hs (e.trans h.symm)
        simp [putIn, hn, ih, h]
      · simp only [putIn, hs, beq_iff_eq, if_false, List.find?_cons, ih, h]

theorem lookup_put (t : SymbolTable) (s : Symbol) (name : String) :
    (t.put s).lookup name = if s.name = name then some s else t.lookup name :=
  find?_putIn s t.symbols name

end SymbolTable

end ZAssembler
