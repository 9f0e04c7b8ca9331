import ZAssembler.Assembly.Node
import ZAssembler.Proofs.Expressions
import ZAssembler.Proofs.Running

/-
  What the work of a node can do to the state of the assembling pass. `Change` lists the single
  changes, each with what holds when it is made. Whatever a node does, if the pass goes on after it,
  is a chain of them, so an invariant of the pass is a fact about each change.

  In the assembling pass a name without value stops the run, so no expression is left open: nothing
  waits for a symbol, and only a value inside a vocabulary block is remembered as a fixup.
-/

namespace ZAssembler.Assembly

/-! ## Changes -/

/-- The states differ at most in what no invariant of the pass is about. -/
structure Aside (s t : State) : Prop where
  image : t.image = s.image
  globals : t.globals = s.globals
  locals : t.locals = s.locals
  fixups : t.fixups = s.fixups
  vocabulary : t.vocabulary = s.vocabulary
  scope : t.scope = s.scope
  diagnostics : t.diagnostics = s.diagnostics
  index : t.index = s.index

/-- The site of what is defined now. -/
def State.site (s : State) (cx : Context) : Site := { pass := cx.pass, node := s.index }

/-- Another node of the pass has defined the symbol. -/
def Taken (t : SymbolTable) (name : String) (site : Site) : Prop :=
  ∃ symbol other, t.lookup name = some symbol ∧ symbol.isDefined = true ∧
    symbol.site = some other ∧ other.pass = site.pass ∧ other.node ≠ site.node

/-- A global label of an open block, as it is entered. -/
def State.blockLabel (s : State) (cx : Context) (name : String) : State :=
  { s with
    globals := (s.globals.define name .label (Int32.ofNat s.image.cursor) (s.site cx)).2
    vocabulary := s.vocabulary.map fun v =>
      { v with labels := v.labels ++ [⟨name, s.image.cursor, s.globals.valueOf name⟩] } }

/-- The block that is opened here. -/
def State.newBlock (s : State) (recordSize keySize : Nat) : OpenVocabulary :=
  { recordSize, keySize, start := s.image.cursor, fixupStart := s.fixups.size }

/-- A change that node `n` can make in the assembling pass. -/
inductive Change (cx : Context) (n : Node) : State → State → Prop
  | aside {s t : State} (h : Aside s t) : Change cx n s t
  | report (s : State) (d : Diagnostic) :
    Change cx n s { s with diagnostics := s.diagnostics.push d }
  | store (s : State) (bytes : List UInt8) :
    Change cx n s { s with image := s.image.store bytes }
  | fixup (s : State) (f : Fixup) (width : Width) (hblock : s.vocabulary.isSome)
    (htarget : f.target = .image s.image.cursor width) :
    Change cx n s { s with fixups := s.fixups.push f }
  | define {s t : State} (name : String) (kind : SymbolKind) (value : Int32)
    (hkind : kind ≠ .unknown)
    (hlabel : ∀ label, n.kind = .globalLabel label → s.vocabulary = none)
    (h : defineGlobal cx name kind value s = .ok () t) : Change cx n s t
  | label (s : State) (v : OpenVocabulary) (name : String) (hnode : n.kind = .globalLabel name)
    (hblock : s.vocabulary = some v) (hnew : ¬ Taken s.globals name (s.site cx)) :
    Change cx n s (s.blockLabel cx name)
  | openBlock (s : State) (recordSize keySize : Nat)
    (hnode : ∃ r k, n.kind = .directive (.vocbeg r k)) (hblock : s.vocabulary = none) :
    Change cx n s { s with vocabulary := some (s.newBlock recordSize keySize) }
  | closeBlock {s t : State} (hnode : n.kind = .directive .vocend)
    (h : closeVocabulary cx s = .ok () t ∨ ∃ p, closeVocabulary cx s = .error (.skip p) t) :
    Change cx n s t
  | localLabel {s t : State} (name : String) (hnode : n.kind = .localLabel name)
    (h : Assembly.localLabel name s = .ok () t) : Change cx n s t
  | locals (s : State) (table : SymbolTable) (name : String) (decls : List LocalDecl)
    (hnode : n.kind = .directive (.funct name decls)) :
    Change cx n s { s with locals := table }

/-- A chain of changes. -/
abbrev Changes (cx : Context) (n : Node) : State → State → Prop :=
  Relation.ReflTransGen (Change cx n)

section Steps

variable {cx : Context} {n : Node}

theorem does_logEvent (event : Event) (s : State) : Does (Changes cx n) (logEvent event) s :=
  does_of_ok rfl (.single (.aside ⟨rfl, rfl, rfl, rfl, rfl, rfl, rfl, rfl⟩))

theorem does_report (severity : Severity) (problem : Problem) (s : State) :
    Does (Changes cx n) (modify (·.report severity problem) : Step Unit) s :=
  does_of_ok rfl (.single (.report s _))

theorem does_warn (problem : Problem) (s : State) : Does (Changes cx n) (warn cx problem) s := by
  unfold warn
  split
  · exact does_get ((does_logEvent _ s).bind fun _ t _ => does_report _ _ t)
  · exact does_report _ _ s

theorem does_reportError (problem : Problem) (s : State) :
    Does (Changes cx n) (reportError cx problem) s := by
  unfold reportError
  refine (does_report _ _ s).bind fun _ t _ => does_get ?_
  split
  · exact does_abort _ t
  · exact does_pure _ t

end Steps

/-! ## Values -/

/-- Where a name without value is an error, an expression that can be evaluated has a value. -/
theorem eval_final {sc : Scoping} (h : sc.final = true) (e : Expr) {r : Resolved}
    (he : e.eval sc = .ok r) : ∃ kind value, r = .known kind value ∧ kind ≠ .unknown := by
  cases r with
  | known kind value => exact ⟨kind, value, rfl, Expr.kind_of_eval he⟩
  | unknown name => exact absurd he (Expr.eval_ne_unknown h e name)

/-- In the assembling pass an evaluation leaves the state as it is. -/
theorem evaluate_get (cx : Context) (e : Expr) (s : State) :
    evaluate cx e s = (match e.eval (s.scoping cx) with
      | .ok (.unknown name) => do
        modify fun s => { s with globals := s.globals.mention name }
        return .unknown name
      | .ok known => return known
      | .error (.undefined name) => abort (.expression (.undefined name))
      | .error error => skip (.expression error) : Step Resolved) s :=
  rfl

theorem evaluate_eq {cx : Context} (hm : cx.mode = .assembling) (e : Expr) (s : State) :
    evaluate cx e s = match e.eval (s.scoping cx) with
      | .ok r => .ok r s
      | .error (.undefined name) => .error (.abort (.expression (.undefined name))) s
      | .error error => .error (.skip (.expression error)) s := by
  have hfinal : (s.scoping cx).final = true := by simp [State.scoping, hm]
  rw [evaluate_get]
  cases he : e.eval (s.scoping cx) with
  | ok r =>
    obtain ⟨kind, value, rfl, -⟩ := eval_final hfinal e he
    rfl
  | error error => cases error <;> rfl

theorem evaluate_ok {cx : Context} (hm : cx.mode = .assembling) {e : Expr} {s t : State}
    {r : Resolved} (h : evaluate cx e s = .ok r t) :
    t = s ∧ ∃ kind value, r = .known kind value ∧ kind ≠ .unknown ∧
      e.eval (s.scoping cx) = .ok (.known kind value) := by
  have hfinal : (s.scoping cx).final = true := by simp [State.scoping, hm]
  rw [evaluate_eq hm] at h
  split at h
  · next r' he =>
    obtain ⟨kind, value, rfl, hk⟩ := eval_final hfinal e he
    cases h
    exact ⟨rfl, kind, value, rfl, hk, he⟩
  · cases h
  · cases h

theorem evaluate_error {cx : Context} (hm : cx.mode = .assembling) {e : Expr} {s t : State}
    {i : Interrupt} (h : evaluate cx e s = .error i t) : t = s := by
  rw [evaluate_eq hm] at h
  split at h
  · cases h
  · cases h; rfl
  · cases h; rfl

/-- Only the measuring pass goes on without a value. -/
theorem measuring_of_eval {cx : Context} {e : Expr} {s : State} {name : String}
    (h : e.eval (s.scoping cx) = .ok (.unknown name)) : cx.mode = .measuring := by
  cases hm : cx.mode with
  | measuring => rfl
  | assembling =>
    have hfinal : (s.scoping cx).final = true := by simp [State.scoping, hm]
    exact absurd h (Expr.eval_ne_unknown hfinal e name)

theorem measuring_of_evaluate {cx : Context} {e : Expr} {s t : State} {name : String}
    (h : evaluate cx e s = .ok (.unknown name) t) : cx.mode = .measuring := by
  cases hm : cx.mode with
  | measuring => rfl
  | assembling =>
    obtain ⟨-, kind, value, hr, -⟩ := evaluate_ok hm h
    cases hr

/-! ## Symbols -/

section Symbols

variable {cx : Context} {n : Node}

theorem enterGlobal_eq (cx : Context) (name : String) (kind : SymbolKind) (value : Int32)
    (s : State) :
    enterGlobal cx name kind value s =
      .ok (s.globals.define name kind value (s.site cx)).1
        { s with globals := (s.globals.define name kind value (s.site cx)).2 } := rfl

theorem name_of_lookup {t : SymbolTable} {name : String} {symbol : Symbol}
    (h : t.lookup name = some symbol) : symbol.name = name := by
  simpa using List.find?_some h

theorem valueOf_of_lookup {t : SymbolTable} {name : String} {symbol : Symbol}
    (h : t.lookup name = some symbol) :
    t.valueOf name = if symbol.isDefined then some symbol.value else none := by
  unfold SymbolTable.valueOf
  rw [h]
  cases hd : symbol.isDefined <;> simp [Option.filter, hd]

/-- What a definition reports when it takes place. -/
def report (old : Option Int32) (value : Int32) : Definition :=
  match old with
  | none => .defined
  | some old => if old = value then .unchanged else .changed old

/-- The symbol is as a definition at `site` enters it. -/
structure Entered (symbol : Symbol) (name : String) (kind : SymbolKind) (value : Int32)
    (site : Site) : Prop where
  name : symbol.name = name
  kind : symbol.kind = kind
  value : symbol.value = value
  site : symbol.site = some site

/-- A definition is refused if another node of the pass has defined the symbol; else it takes
    place. -/
theorem define_cases (t : SymbolTable) (name : String) (kind : SymbolKind) (value : Int32)
    (site : Site) :
    (Taken t name site ∧ ∃ old, t.define name kind value site = (.duplicate old, t)) ∨
    (¬ Taken t name site ∧ ∃ symbol, Entered symbol name kind value site ∧
      t.define name kind value site = (report (t.valueOf name) value, t.put symbol)) := by
  unfold SymbolTable.define
  cases hl : t.lookup name with
  | none =>
    have hv : t.valueOf name = none := by simp [SymbolTable.valueOf, hl]
    rw [hv]
    refine .inr ⟨?_, ⟨name, kind, value, false, some site⟩, ⟨rfl, rfl, rfl, rfl⟩, rfl⟩
    rintro ⟨symbol, other, hs, -⟩
    rw [hl] at hs
    cases hs
  | some symbol =>
    have hname := name_of_lookup hl
    have hv := valueOf_of_lookup hl
    rw [hv]
    cases hd : symbol.isDefined with
    | false =>
      refine .inr ⟨?_, { symbol with kind, value, site := some site }, ⟨hname, rfl, rfl, rfl⟩, ?_⟩
      · rintro ⟨other, _, hs, hdefined, -⟩
        rw [hl] at hs
        cases hs
        rw [hd] at hdefined
        cases hdefined
      · simp [hd, report]
    | true =>
      by_cases hs : symbol.site.any (fun old => old.pass == site.pass && old.node != site.node)
      · obtain ⟨other, hsite, ho⟩ := (Option.any_eq_true _ _).mp hs
        simp only [Bool.and_eq_true, beq_iff_eq, bne_iff_ne, ne_eq] at ho
        refine .inl ⟨⟨symbol, other, hl, hd, hsite, ho.1, ho.2⟩, symbol.kind, ?_⟩
        simp [hd, hs]
      · refine .inr ⟨?_, ⟨name, kind, value, false, some site⟩, ⟨rfl, rfl, rfl, rfl⟩, ?_⟩
        · rintro ⟨_, other, hsym, -, hsite, hp, hn⟩
          rw [hl] at hsym
          cases hsym
          refine hs ((Option.any_eq_true _ _).mpr ⟨other, hsite, ?_⟩)
          simp [hp, hn]
        · simp [hd, hs, report]

theorem judgeChange_get (name : String) (old : Int32) (s : State) :
    judgeChange cx name old s = (match s.globals.valueOf name with
      | none => pure ()
      | some new =>
        if new = old then pure ()
        else
          match cx.mode with
          | .measuring => do
            logEvent (.globalMoved name old new cx.pass)
            modify fun s => { s with changed := true }
          | .assembling => abort (.valueChanged old new name) : Step Unit) s :=
  rfl

theorem judgeChange_eq (hm : cx.mode = .assembling) (name : String) (old : Int32) (s : State) :
    judgeChange cx name old s =
      match s.globals.valueOf name with
      | none => .ok () s
      | some new =>
        if new = old then .ok () s else .error (.abort (.valueChanged old new name)) s := by
  rw [judgeChange_get, hm]
  cases s.globals.valueOf name with
  | none => rfl
  | some new => by_cases h : new = old <;> simp only [h, if_true, if_false] <;> rfl

/-- Judges changes one after the other. -/
def judgeAll (cx : Context) (changes : List (String × Int32)) : Step Unit :=
  changes.forM fun change => judgeChange cx change.1 change.2

theorem noteChange_eq (name : String) (old : Int32) (s : State) :
    noteChange cx name old s =
      match s.vocabulary, s.scope with
      | some v, _ => .ok () { s with vocabulary := some (v.defer name old) }
      | none, some scope => .ok () { s with scope := some (scope.defer name old) }
      | none, none => judgeChange cx name old s := by
  have hget : noteChange cx name old s = (match s.vocabulary, s.scope with
      | some v, _ => set { s with vocabulary := some (v.defer name old) }
      | none, some scope => set { s with scope := some (scope.defer name old) }
      | none, none => judgeChange cx name old : Step Unit) s := rfl
  rw [hget]
  cases s.vocabulary <;> cases s.scope <;> rfl

theorem noteChange_modify (cx : Context) (name : String) (old : Int32) :
    noteChange cx name old = (do
      let s ← get
      match s.vocabulary, s.scope with
      | some v, _ => modify fun s => { s with vocabulary := some (v.defer name old) }
      | none, some scope => modify fun s => { s with scope := some (scope.defer name old) }
      | none, none => judgeChange cx name old) := by
  funext s
  rcases s with ⟨_, _, _, _, _, _ | v, _, _, _, _, _, _, _ | scope, _⟩ <;> rfl

/-- Noting a change does not give a node up. -/
theorem noteChange_not_skip (hm : cx.mode = .assembling) {name : String} {old : Int32} {s t : State}
    {p : Problem} : noteChange cx name old s ≠ .error (.skip p) t := by
  rw [noteChange_eq]
  split
  · simp
  · simp
  · rw [judgeChange_eq hm]
    split
    · simp
    · split <;> simp

/-- A definition leaves the state as it is if it is refused; else what it reports is noted. -/
theorem defineGlobal_get (cx : Context) (name : String) (kind : SymbolKind) (value : Int32)
    (s : State) :
    defineGlobal cx name kind value s =
      (match (s.globals.define name kind value (s.site cx)).1 with
        | .defined | .unchanged => pure ()
        | .changed old => noteChange cx name old
        | .duplicate kind => skip (.alreadyDefined kind name) : Step Unit)
        { s with globals := (s.globals.define name kind value (s.site cx)).2 } :=
  rfl

theorem defineGlobal_cases (cx : Context) (name : String) (kind : SymbolKind) (value : Int32)
    (s : State) :
    (Taken s.globals name (s.site cx) ∧
      ∃ old, defineGlobal cx name kind value s = .error (.skip (.alreadyDefined old name)) s) ∨
    (¬ Taken s.globals name (s.site cx) ∧ ∃ symbol, Entered symbol name kind value (s.site cx) ∧
      defineGlobal cx name kind value s =
        match s.globals.valueOf name with
        | none => .ok () { s with globals := s.globals.put symbol }
        | some old =>
          if old = value then .ok () { s with globals := s.globals.put symbol }
          else noteChange cx name old { s with globals := s.globals.put symbol }) := by
  rw [defineGlobal_get]
  obtain ⟨htaken, old, h⟩ | ⟨htaken, symbol, hsymbol, h⟩ :=
    define_cases s.globals name kind value (s.site cx)
  · refine .inl ⟨htaken, old, ?_⟩
    rw [h]
    rfl
  · refine .inr ⟨htaken, symbol, hsymbol, ?_⟩
    rw [h]
    unfold report
    cases s.globals.valueOf name with
    | none => rfl
    | some old =>
      by_cases ho : old = value
      · simp only [ho, if_true]
        rfl
      · simp only [ho, if_false]

theorem does_defineGlobal (hm : cx.mode = .assembling) (name : String) (kind : SymbolKind)
    (value : Int32) (hkind : kind ≠ .unknown) (s : State)
    (hlabel : ∀ label, n.kind = .globalLabel label → s.vocabulary = none) :
    Does (Changes cx n) (defineGlobal cx name kind value) s := by
  obtain ⟨-, old, h⟩ | ⟨-, symbol, -, h⟩ := defineGlobal_cases cx name kind value s
  · exact does_of_error h .refl
  · cases hr : defineGlobal cx name kind value s with
    | ok a t => exact does_of_ok hr (.single (.define name kind value hkind hlabel hr))
    | error i t =>
      cases i with
      | skip p =>
        rw [hr] at h
        split at h
        · cases h
        · split at h
          · cases h
          · exact absurd h.symm (noteChange_not_skip hm)
      | abort p => simp only [Does, hr]
      | restart v => simp only [Does, hr]

theorem valueOf_put (t : SymbolTable) (symbol : Symbol) (hkind : symbol.kind ≠ .unknown)
    (name : String) :
    (t.put symbol).valueOf name = if symbol.name = name then some symbol.value
      else t.valueOf name := by
  unfold SymbolTable.valueOf
  rw [SymbolTable.lookup_put]
  by_cases h : symbol.name = name
  · have hd : symbol.isDefined = true := by simpa [Symbol.isDefined] using hkind
    simp [h, Option.filter, hd]
  · simp [h]

/-- What a definition that succeeds does with a value that changes. -/
inductive Noted (name : String) (value : Int32) (s : State) : State → Prop
  /-- The value is new or the same. -/
  | same (h : ∀ old, s.globals.valueOf name = some old → old = value) : Noted name value s s
  | inBlock (v : OpenVocabulary) (old : Int32) (hold : s.globals.valueOf name = some old)
    (hne : old ≠ value) (hv : s.vocabulary = some v) :
    Noted name value s { s with vocabulary := some (v.defer name old) }
  | inRoutine (scope : RoutineScope) (old : Int32) (hold : s.globals.valueOf name = some old)
    (hne : old ≠ value) (hv : s.vocabulary = none) (hs : s.scope = some scope) :
    Noted name value s { s with scope := some (scope.defer name old) }

theorem defineGlobal_ok (hm : cx.mode = .assembling) {name : String} {kind : SymbolKind}
    {value : Int32} (hkind : kind ≠ .unknown) {s t : State}
    (h : defineGlobal cx name kind value s = .ok () t) :
    ¬ Taken s.globals name (s.site cx) ∧ ∃ symbol u, Entered symbol name kind value (s.site cx) ∧
      Noted name value s u ∧ t = { u with globals := s.globals.put symbol } := by
  obtain ⟨-, old, hc⟩ | ⟨htaken, symbol, hsymbol, hc⟩ := defineGlobal_cases cx name kind value s
  · rw [hc] at h
    cases h
  · refine ⟨htaken, symbol, ?_⟩
    rw [hc] at h
    cases hold : s.globals.valueOf name with
    | none =>
      rw [hold] at h
      cases h
      exact ⟨s, hsymbol, .same (by simp [hold]), rfl⟩
    | some old =>
      rw [hold] at h
      dsimp only at h
      by_cases hne : old = value
      · rw [if_pos hne] at h
        cases h
        exact ⟨s, hsymbol, .same (by simp [hold, hne]), rfl⟩
      · rw [if_neg hne, noteChange_eq] at h
        split at h
        · next v hv =>
          cases h
          exact ⟨_, hsymbol, .inBlock v old hold hne hv, rfl⟩
        · next scope hv hs =>
          cases h
          exact ⟨_, hsymbol, .inRoutine scope old hold hne hv hs, rfl⟩
        · -- the change is judged at once, and it is one
          rw [judgeChange_eq hm, valueOf_put _ _ (hsymbol.kind ▸ hkind), if_pos hsymbol.name,
            hsymbol.value] at h
          dsimp only at h
          rw [if_neg (Ne.symm hne)] at h
          cases h

end Symbols

/-! ## Labels and blocks -/

section Labels

variable {cx : Context} {n : Node}

/-- Inside a block a label is entered and waits, unless another node has defined the symbol. -/
theorem blockLabel_cases (cx : Context) (name : String) {s : State} {v : OpenVocabulary}
    (hv : s.vocabulary = some v) :
    (∃ old, globalLabel cx name s = .error (.skip (.alreadyDefined old name)) s) ∨
    (¬ Taken s.globals name (s.site cx) ∧ globalLabel cx name s =
      .ok () (s.blockLabel cx name)) := by
  unfold globalLabel
  rw [get_bind, hv]
  dsimp only
  have henter := enterGlobal_eq cx name .label (Int32.ofNat s.image.cursor) s
  rw [bind_of_ok henter]
  obtain ⟨-, old, h⟩ | ⟨htaken, symbol, -, h⟩ :=
    define_cases s.globals name .label (Int32.ofNat s.image.cursor) (s.site cx)
  · refine .inl ⟨old, ?_⟩
    rw [h]
    rfl
  · refine .inr ⟨htaken, ?_⟩
    unfold State.blockLabel
    rw [h]
    unfold report
    cases s.globals.valueOf name with
    | none => rfl
    | some old =>
      by_cases ho : old = Int32.ofNat s.image.cursor <;> simp only [ho, if_true, if_false] <;> rfl

theorem does_blockLabel (cx : Context) {name : String} (hnode : n.kind = .globalLabel name)
    {s : State} {v : OpenVocabulary} (hv : s.vocabulary = some v) :
    Does (Changes cx n) (globalLabel cx name) s := by
  obtain ⟨old, h⟩ | ⟨htaken, h⟩ := blockLabel_cases cx name hv
  · exact does_of_error h .refl
  · exact does_of_ok h (.single (.label s v name hnode hv htaken))

/-- Reaching a local label: without a scope, or where the label is not expected, the state stays as
    it is. -/
theorem localLabel_get (name : String) (s : State) :
    localLabel name s = (match s.scope with
      | none => skip (.localLabelOutsideRoutine name)
      | some scope => do
        set { s with locals := (s.locals.confirm name (Int32.ofNat s.image.cursor)).2 }
        match (s.locals.confirm name (Int32.ofNat s.image.cursor)).1 with
        | .confirmed => pure ()
        | .moved guess actual =>
          logEvent (.labelMoved name scope.routine guess actual)
          modify fun s => { s with scope := some (scope.recordMove name actual) }
        | .duplicate => skip (.duplicateLocalLabel name)
        | .notDeclared => skip (.undeclaredLocalLabel name) : Step Unit) s :=
  rfl

theorem localLabel_eq (name : String) (s : State) :
    localLabel name s =
      match s.scope with
      | none => .error (.skip (.localLabelOutsideRoutine name)) s
      | some scope =>
        match s.locals.confirm name (Int32.ofNat s.image.cursor) with
        | (.confirmed, locals) => .ok () { s with locals }
        | (.moved guess actual, locals) =>
          .ok () { s with
            locals
            log := s.log.push (.labelMoved name scope.routine guess actual)
            scope := some (scope.recordMove name actual) }
        | (.duplicate, locals) => .error (.skip (.duplicateLocalLabel name)) { s with locals }
        | (.notDeclared, locals) =>
          .error (.skip (.undeclaredLocalLabel name)) { s with locals } := by
  rw [localLabel_get]
  cases s.scope with
  | none => rfl
  | some scope =>
    generalize s.locals.confirm name (Int32.ofNat s.image.cursor) = result
    obtain ⟨result, locals⟩ := result
    cases result <;> rfl

theorem localLabel_modify (name : String) :
    localLabel name = (do
      let s ← get
      match s.scope with
      | none => skip (.localLabelOutsideRoutine name)
      | some scope =>
        modify fun t => { t with locals := (s.locals.confirm name (Int32.ofNat s.image.cursor)).2 }
        match (s.locals.confirm name (Int32.ofNat s.image.cursor)).1 with
        | .confirmed => pure ()
        | .moved guess actual =>
          logEvent (.labelMoved name scope.routine guess actual)
          modify fun s => { s with scope := s.scope.map (·.recordMove name actual) }
        | .duplicate => skip (.duplicateLocalLabel name)
        | .notDeclared => skip (.undeclaredLocalLabel name)) := by
  funext s
  rcases s with ⟨_, _, locals, _, _, _, _, _, _, _, _, _, _ | scope, _⟩
  · rfl
  · unfold localLabel
    rw [get_bind, get_bind]
    dsimp only
    generalize locals.confirm name _ = confirmed
    obtain ⟨result, locals⟩ := confirmed
    cases result <;> rfl

theorem confirm_cases (t : SymbolTable) (name : String) (position : Int32) :
    t.confirm name position = (.notDeclared, t) ∨ t.confirm name position = (.duplicate, t) ∨
    ∃ symbol, t.lookup name = some symbol ∧
      t.confirm name position =
        (if symbol.value = position then .confirmed else .moved symbol.value position,
          t.put { symbol with value := position, phantom := false }) := by
  unfold SymbolTable.confirm
  cases hl : t.lookup name with
  | none => exact .inl rfl
  | some symbol =>
    cases hp : symbol.phantom with
    | false => exact .inr (.inl (by simp [hp]))
    | true => exact .inr (.inr ⟨symbol, rfl, by simp [hp]⟩)

theorem localLabel_error {name : String} {s t : State} {i : Interrupt}
    (h : localLabel name s = .error i t) : t = s := by
  rw [localLabel_eq] at h
  split at h
  · cases h; rfl
  · obtain hc | hc | ⟨symbol, -, hc⟩ :=
      confirm_cases s.locals name (Int32.ofNat s.image.cursor)
    · rw [hc] at h
      cases h
      rfl
    · rw [hc] at h
      cases h
      rfl
    · rw [hc] at h
      by_cases hv : symbol.value = Int32.ofNat s.image.cursor
      · simp only [hv, if_true] at h
        cases h
      · simp only [hv, if_false] at h
        cases h

/-- A local label that is reached was expected, at its guess or elsewhere. -/
theorem localLabel_ok {name : String} {s t : State} (h : localLabel name s = .ok () t) :
    ∃ scope symbol, s.scope = some scope ∧ s.locals.lookup name = some symbol ∧
      t.locals = s.locals.put
        { symbol with value := Int32.ofNat s.image.cursor, phantom := false } ∧
      (symbol.value = Int32.ofNat s.image.cursor ∧ t = { s with locals := t.locals } ∨
        t = { s with locals := t.locals, log := t.log, scope := t.scope } ∧
          t.scope = some (scope.recordMove name (Int32.ofNat s.image.cursor))) := by
  rw [localLabel_eq] at h
  cases hs : s.scope with
  | none => rw [hs] at h; cases h
  | some scope =>
    rw [hs] at h
    dsimp only at h
    obtain hc | hc | ⟨symbol, hl, hc⟩ :=
      confirm_cases s.locals name (Int32.ofNat s.image.cursor)
    · rw [hc] at h
      cases h
    · rw [hc] at h
      cases h
    · refine ⟨scope, symbol, rfl, hl, ?_⟩
      rw [hc] at h
      by_cases hv : symbol.value = Int32.ofNat s.image.cursor
      · rw [if_pos hv] at h
        cases h
        exact ⟨rfl, .inl ⟨hv, rfl⟩⟩
      · rw [if_neg hv] at h
        cases h
        exact ⟨rfl, .inr ⟨rfl, rfl⟩⟩

theorem does_localLabel (name : String) (hnode : n.kind = .localLabel name) (s : State) :
    Does (Changes cx n) (localLabel name) s := by
  cases h : localLabel name s with
  | ok a t => exact does_of_ok h (.single (.localLabel name hnode h))
  | error i t =>
    obtain rfl := localLabel_error h
    exact does_of_error h .refl

theorem closeTable_modify :
    closeTable = (do
      let s ← get
      match s.table with
      | none => skip .tableNotOpen
      | some table =>
        modify fun s => { s with table := none }
        match table.mismatch s.image.cursor with
        | some actual => skip (.tableSizeMismatch table.start (table.size.getD 0) actual)
        | none => pure ()) := by
  funext s
  rcases s with ⟨_, _, _, _, _ | table, _⟩ <;> rfl

theorem does_closeVocabulary (hnode : n.kind = .directive .vocend) (s : State) :
    Does (Changes cx n) (closeVocabulary cx) s := by
  cases h : closeVocabulary cx s with
  | ok a t => exact does_of_ok h (.single (.closeBlock hnode (.inl h)))
  | error i t =>
    cases i with
    | skip p => simpa only [Does, h] using .single (.closeBlock hnode (.inr ⟨p, h⟩))
    | abort p => simp only [Does, h]
    | restart v => simp only [Does, h]

end Labels

/-! ## Data -/

/-- Numbers a global variable and defines it. -/
def variableHead (cx : Context) (name : String) : Step Unit := do
  let number := (← get).globalVars
  if maxGlobals ≤ number then skip (.tooManyGlobals name)
  modify fun s => { s with globalVars := number + 1 }
  defineGlobal cx name .var (Int32.ofNat (firstGlobal + number))

/-- Numbers an object and defines it. -/
def objectHead (cx : Context) (entry : ObjectEntry) : Step Unit := do
  let layout := objectLayout cx.version
  if layout.flagWords < entry.flags.length then
    skip (.tooManyFlagWords cx.version layout.flagWords entry.name)
  let count := (← get).objects
  if layout.maxObjects ≤ count then skip (.tooManyObjects entry.name)
  modify fun s => { s with objects := count + 1 }
  defineGlobal cx entry.name .object (Int32.ofNat (count + 1))

theorem globalVariable_eq (cx : Context) (name : String) (default : Option Expr) :
    globalVariable cx name default = (do
      variableHead cx name
      writeDefault cx default) := by
  unfold globalVariable variableHead
  simp only [bind_assoc]
  refine bind_congr fun s => ?_
  split <;> simp only [bind_assoc, skip_bind]

theorem object_eq (cx : Context) (entry : ObjectEntry) :
    object cx entry = (do
      objectHead cx entry
      values cx .word entry.flags
      pad (2 * ((objectLayout cx.version).flagWords - entry.flags.length))
      values cx (objectLayout cx.version).linkWidth [entry.parent, entry.sibling, entry.child]
      writeValue cx .word entry.properties) := by
  unfold object objectHead
  dsimp only
  split
  · rfl
  · simp only [bind_assoc]
    refine bind_congr fun s => ?_
    split <;> simp only [bind_assoc, skip_bind]

theorem placePacked_modify (cx : Context) (kind : PackedKind) (name : String) :
    placePacked cx kind name = (do
      let s ← get
      modify fun t => { t with packing := (s.packing.padding kind s.image.cursor).2 }
      pad (s.packing.padding kind s.image.cursor).1
      let packed := (s.packing.padding kind s.image.cursor).2.pack kind (← position)
      if 0xFFFF < packed then warn cx (.packedOverflow packed name)
      return packed) := rfl

/-! ## Instructions -/

section Instructions

variable {cx : Context} (hm : cx.mode = .assembling)

include hm

/-- In the assembling pass no operand waits for a symbol. -/
theorem yields_argument (e : Expr) (s : State) :
    Yields (fun arg _ => arg.waitsFor = none) (argument cx e) s := by
  unfold argument
  refine yields_bind fun r t h => ?_
  obtain ⟨-, kind, value, rfl, -⟩ := evaluate_ok hm h
  split
  · exact yields_pure (by rfl)
  · refine yields_bind fun _ t _ => ?_
    split
    · exact yields_pure (by rfl)
    · exact yields_pure (by rfl)
  · next h => cases h

theorem yields_jumpArgument (address : Nat) (e : Expr) (s : State) :
    Yields (fun arg _ => arg.waitsFor = none) (jumpArgument cx address e) s := by
  unfold jumpArgument
  split
  · refine yields_bind fun r t h => ?_
    obtain ⟨-, kind, value, rfl, -⟩ := evaluate_ok hm h
    split
    · exact yields_pure (by rfl)
    · exact yields_skip _ t
    · next h => cases h
  · exact yields_skip _ s

theorem yields_arguments (op : Opcode) (address : Nat) (operands : List Expr) (s : State) :
    Yields (fun args _ => ∀ arg ∈ args, arg.waitsFor = none)
      (arguments cx op address operands) s := by
  unfold arguments
  split
  · split
    · refine yields_bind fun arg t h => yields_pure ?_
      simpa using yields_jumpArgument hm address _ s arg t h
    · refine yields_bind fun arg t h => yields_pure ?_
      simpa using yields_argument hm _ s arg t h
  · exact yields_mapM _ _ (fun e t => yields_argument hm e t) s

theorem yields_storeVariable (e : Expr) (s : State) :
    Yields (fun target _ => target.2 = none) (storeVariable cx e) s := by
  unfold storeVariable
  refine yields_bind fun r t h => ?_
  obtain ⟨-, kind, value, rfl, -⟩ := evaluate_ok hm h
  split
  · exact yields_pure (by rfl)
  · exact yields_skip _ t
  · next h => cases h

theorem yields_storeTarget (store : Option Expr) (s : State) :
    Yields (fun target _ => ∀ number symbol, target ≠ some (number, some symbol))
      (store.mapM (storeVariable cx)) s := by
  cases store with
  | none => exact yields_pure (by simp)
  | some e =>
    refine yields_bind fun target t h => yields_pure ?_
    intro number symbol htarget
    have := yields_storeVariable hm e s target t h
    simp only [Option.some.injEq] at htarget
    rw [htarget] at this
    cases this

end Instructions

/-- What follows the bytes of an instruction. -/
def finishInstruction (i : Instruction) (address : Nat) (args : List Argument)
    (target : Option (UInt8 × Option String)) (encoded : Bytecode.Encoded) : Step Unit := do
  addOperandFixups address args encoded.operandOffsets
  match i.store, target, encoded.storeOffset with
  | some e, some (_, some symbol), some offset =>
    addFixup { symbol, expr := e, target := .image (address + offset) .byte }
  | _, _, _ => pure ()
  match i.text with
  | some text => collectText text
  | none => pure ()

/-! ## Heads of routines -/

/-- The locals with the routine's labels declared. -/
def State.withLabels (s : State) (start : Nat) : SymbolTable :=
  match s.scope with
  | none => s.locals
  | some scope =>
    scope.labels.foldl
      (fun table name => table.predeclare name (scope.guess name (Int32.ofNat start))) s.locals

theorem predeclareLabels_eq (start : Nat) (s : State) :
    predeclareLabels start s = .ok () { s with locals := s.withLabels start } := by
  have h : predeclareLabels start s = .ok () (match s.scope with
      | none => s
      | some scope =>
        { s with
          locals := scope.labels.foldl
            (fun table name => table.predeclare name (scope.guess name (Int32.ofNat start)))
            s.locals }) := rfl
  rw [h]
  unfold State.withLabels
  split <;> rfl

/-- The head of a routine up to the defaults of its locals; gives where the routine starts. -/
def headOpening (cx : Context) (name : String) (locals : List LocalDecl) : Step Nat := do
  modify fun s => { s with locals := .empty }
  let packed ← placePacked cx .routine name
  let start ← position
  defineGlobal cx name .routine (Int32.ofNat (packed % 65536))
  if maxLocals < locals.length then reportError cx (.tooManyLocals locals.length)
  storeByte (UInt8.ofNat (locals.take maxLocals).length)
  declareLocals (locals.take maxLocals)
  return start

/-- Writes the defaults of the locals, in the versions that have them. -/
def localDefaults (cx : Context) (name : String) (locals : List LocalDecl) : Step Unit :=
  if cx.version.hasLocalDefaults then locals.forM fun decl => writeDefault cx decl.default
  else if locals.any (·.default.isSome) then warn cx (.ignoredLocalDefaults cx.version name)
  else pure ()

theorem routineHead_eq (cx : Context) (name : String) (locals : List LocalDecl) :
    routineHead cx name locals = (do
      let start ← headOpening cx name locals
      localDefaults cx name (locals.take maxLocals)
      predeclareLabels start) := by
  unfold routineHead headOpening localDefaults
  -- the two differ in where the branches come together
  by_cases hl : maxLocals < locals.length <;> cases cx.version.hasLocalDefaults <;>
    cases ha : (locals.take maxLocals).any (·.default.isSome) <;>
    simp only [hl, ha, if_true, if_false, Bool.false_eq_true, bind_assoc, pure_bind]

end ZAssembler.Assembly
