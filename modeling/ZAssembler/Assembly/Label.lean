import ZAssembler.Assembly.State

/-
  Defining symbols during a pass. A global that changes its value calls for another measuring pass;
  in the assembling pass it is fatal. Inside a routine or a vocabulary block the verdict waits until
  the routine has settled or the block is sorted, and only the value then counts.
-/

namespace ZAssembler.Assembly

/-- Judges a global whose value was `old` before. -/
def judgeChange (cx : Context) (name : String) (old : Int32) : Step Unit := do
  match (← get).globals.valueOf name with
  | none => pure ()
  | some new =>
    if new = old then pure ()
    else
      match cx.mode with
      | .measuring =>
        logEvent (.globalMoved name old new cx.pass)
        modify fun s => { s with changed := true }
      | .assembling => abort (.valueChanged old new name)

/-- Puts a change off until the block is sorted; the first old value counts. -/
def OpenVocabulary.defer (v : OpenVocabulary) (name : String) (old : Int32) : OpenVocabulary :=
  if v.deferred.any (·.1 == name) then v else { v with deferred := v.deferred ++ [(name, old)] }

/-- Notes that a global changed, to be judged now or later. -/
def noteChange (cx : Context) (name : String) (old : Int32) : Step Unit := do
  let s ← get
  match s.vocabulary, s.scope with
  | some v, _ => set { s with vocabulary := some (v.defer name old) }
  | none, some scope => set { s with scope := some (scope.defer name old) }
  | none, none => judgeChange cx name old

/-- Enters a symbol among the globals. -/
def enterGlobal (cx : Context) (name : String) (kind : SymbolKind) (value : Int32) :
    Step Definition :=
  modifyGet fun s =>
    let (result, globals) := s.globals.define name kind value { pass := cx.pass, node := s.index }
    (result, { s with globals })

def defineGlobal (cx : Context) (name : String) (kind : SymbolKind) (value : Int32) :
    Step Unit := do
  match ← enterGlobal cx name kind value with
  | .defined | .unchanged => pure ()
  | .changed old => noteChange cx name old
  | .duplicate kind => skip (.alreadyDefined kind name)

/-- A global label. Inside a vocabulary block it is judged only after the records are sorted. -/
def globalLabel (cx : Context) (name : String) : Step Unit := do
  let s ← get
  let here := s.image.cursor
  match s.vocabulary with
  | none => defineGlobal cx name .label (Int32.ofNat here)
  | some _ =>
    let previous := s.globals.valueOf name
    match ← enterGlobal cx name .label (Int32.ofNat here) with
    | .duplicate kind => skip (.alreadyDefined kind name)
    | _ =>
      let label : VocabularyLabel := { name, position := here, previous }
      modify fun s =>
        { s with vocabulary := s.vocabulary.map fun v => { v with labels := v.labels ++ [label] } }

/-- A local label: its guess is confirmed, or the routine has to be walked again. -/
def localLabel (name : String) : Step Unit := do
  let s ← get
  match s.scope with
  | none => skip (.localLabelOutsideRoutine name)
  | some scope =>
    let (result, locals) := s.locals.confirm name (Int32.ofNat s.image.cursor)
    set { s with locals }
    match result with
    | .confirmed => pure ()
    | .moved guess actual =>
      logEvent (.labelMoved name scope.routine guess actual)
      modify fun s => { s with scope := some (scope.recordMove name actual) }
    | .duplicate => skip (.duplicateLocalLabel name)
    | .notDeclared => skip (.undeclaredLocalLabel name)

end ZAssembler.Assembly
