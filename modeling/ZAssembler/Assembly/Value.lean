import ZAssembler.Assembly.State

/-
  Values of expressions during a pass. Names are looked up among the locals of the routine, then
  among the globals. A value that is not known yet is written as zero and remembered as a fixup.
-/

namespace ZAssembler.Assembly

/-- How names are looked up in a state. -/
def State.scoping (s : State) (cx : Context) : Scoping :=
  { lookup := fun name => (s.locals.lookup name).or (s.globals.lookup name)
    final := cx.mode = .assembling }

/-- The value of an expression. A name without value is remembered among the globals. -/
def evaluate (cx : Context) (e : Expr) : Step Resolved := do
  match e.eval ((← get).scoping cx) with
  | .ok (.unknown name) =>
    modify fun s => { s with globals := s.globals.mention name }
    return .unknown name
  | .ok known => return known
  | .error (.undefined name) => abort (.expression (.undefined name))
  | .error error => skip (.expression error)

def addFixup (fixup : Fixup) : Step Unit :=
  modify fun s => { s with fixups := s.fixups.push fixup }

/-- A value that the layout hangs on; none while it is unknown. -/
def layoutValue (cx : Context) (e : Expr) : Step (Option Int32) := do
  match ← evaluate cx e with
  | .known _ value => return some value
  | .unknown symbol =>
    addFixup { symbol, expr := e, target := .dependency }
    return none

/-- A value that has to be known at once; `what` names it in the problem. -/
def constant (cx : Context) (what : String) (e : Expr) : Step Int32 := do
  match ← evaluate cx e with
  | .known _ value => return value
  | .unknown name => skip (.neededAtOnce what name)

/-- The first global label that an expression names; locals hide globals. -/
def State.globalLabelIn (s : State) : Expr → Option String
  | .number _ | .quote _ => none
  | .symbol name =>
    if (s.locals.lookup name).isSome then none
    else if (s.globals.lookup name).any (·.kind = .label) then some name
    else none
  | .add left right => (s.globalLabelIn left).or (s.globalLabelIn right)

/-- Writes a value. Inside a vocabulary block a value with a global label is written again when the
    block is sorted, since the label may move with its record. -/
def writeValue (cx : Context) (width : Width) (e : Expr) : Step Unit := do
  let addr ← position
  match ← evaluate cx e with
  | .known _ value =>
    let s ← get
    if s.vocabulary.isSome then
      match s.globalLabelIn e with
      | some symbol => addFixup { symbol, expr := e, target := .image addr width }
      | none => pure ()
    store (width.bytes value)
  | .unknown symbol =>
    addFixup { symbol, expr := e, target := .image addr width }
    store (width.bytes 0)

/-- The fixup's value is known now. -/
def Fixup.resolves (f : Fixup) (cx : Context) (s : State) : Bool :=
  match f.expr.eval (s.scoping cx) with
  | .ok (.known _ _) => true
  | _ => false

/-- Patches the image if the fixup's value is known; tells whether it was. -/
def applyFixup (cx : Context) (f : Fixup) : Step Bool := do
  match ← evaluate cx f.expr with
  | .unknown _ => return false
  | .known _ value =>
    match f.target with
    | .image addr width =>
      let stored := match f.relativeTo with
        | some origin => value - Int32.ofNat origin
        | none => value
      modify fun s => { s with image := s.image.patch addr (width.bytes stored) }
    | .dependency => pure ()
    return true

end ZAssembler.Assembly
