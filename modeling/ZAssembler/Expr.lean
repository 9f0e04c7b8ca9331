import ZAssembler.Symbol

/-
  Operand expressions: numbers, symbols, quoted variables and sums. While layout is measured, a
  symbol without value makes the result unknown, and the first such name is kept; on the final pass
  it is an error.
-/

namespace ZAssembler

inductive Expr
  | number (value : Int32)
  | symbol (name : String)
  /-- The number of a variable, as a constant. -/
  | quote (name : String)
  | add (left right : Expr)
  deriving DecidableEq, Repr, Inhabited

inductive EvalError
  | undefined (name : String)
  | notAddable (kind : SymbolKind)
  | notVariable (name : String)
  deriving DecidableEq, Repr

namespace EvalError

def message : EvalError → String
  | undefined _ => "Undefined symbol"
  | notAddable _ => "Cannot add symbol of kind"
  | notVariable _ => "Quoted symbol is not a variable"

/-- What the message is about. -/
def subject : EvalError → String
  | undefined name => name
  | notAddable kind => kind.text
  | notVariable name => name

end EvalError

/-- The result of an evaluation. -/
inductive Resolved
  | known (kind : SymbolKind) (value : Int32)
  /-- It hangs on this symbol, which has no value yet. -/
  | unknown (name : String)
  deriving DecidableEq, Repr

/-- How names are looked up, and whether a name without value is an error. -/
structure Scoping where
  lookup : String → Option Symbol
  final : Bool

namespace Expr

def resolve (sc : Scoping) (name : String) : Except EvalError Resolved :=
  match (sc.lookup name).filter Symbol.isDefined with
  | some s => .ok (.known s.kind s.value)
  | none => if sc.final then .error (.undefined name) else .ok (.unknown name)

/-- A sum with a label is a label, any other sum a constant. -/
def sum (lk : SymbolKind) (lv : Int32) (rk : SymbolKind) (rv : Int32) :
    Except EvalError Resolved :=
  if !lk.isAddable then .error (.notAddable lk)
  else if !rk.isAddable then .error (.notAddable rk)
  else .ok (.known (if lk = .label ∨ rk = .label then .label else .constant) (lv + rv))

def eval (sc : Scoping) : Expr → Except EvalError Resolved
  | number value => .ok (.known .constant value)
  | symbol name => resolve sc name
  | quote name =>
    match resolve sc name with
    | .ok (.known .var value) => .ok (.known .constant value)
    | .ok (.known _ _) => .error (.notVariable name)
    | other => other
  | add left right =>
    match left.eval sc with
    | .error e => .error e
    | .ok l =>
      match right.eval sc with
      | .error e => .error e
      | .ok r =>
        match l, r with
        | .unknown name, _ => .ok (.unknown name)
        | _, .unknown name => .ok (.unknown name)
        | .known lk lv, .known rk rv => sum lk lv rk rv

/-- The expression takes a word as an operand. A name without value is taken to be long, so that a
    measured size never falls below the final one. -/
def needsLong (sc : Scoping) : Expr → Bool
  | number value => !fitsByte value
  | quote _ => false
  | symbol name =>
    match (sc.lookup name).filter Symbol.isDefined with
    | some s => s.kind != .var && !fitsByte s.value
    | none => true
  | add left right =>
    left.needsLong sc || right.needsLong sc ||
      match (add left right).eval sc with
      | .ok (.known _ value) => !fitsByte value
      | _ => true

end Expr

end ZAssembler
