import ZAssembler.Proofs.Defining

/-
  Two passes in step. A measuring pass and an assembling pass do the same to everything that the
  layout hangs on, until the assembling pass stops or the measuring pass is off. Where the
  assembling pass stops because a value has changed, the measuring pass is off, too; where it stops
  because a name has no value, the measuring pass goes on and waits for it.

  `node_work` compares passes of one mode. Here the modes differ, and the passes part wherever a
  name has no value, so there is one more lemma for each function of a node, which follows its
  definition. Where the assembling pass knows how the globals end, the names that the node reads
  have to be known to both passes.
-/

namespace ZAssembler

/-! ## The expressions of a node -/

/-- The expressions that a directive reads in every pass. -/
def Directive.exprs : Directive → List Expr
  | .new version => [version]
  | .funct _ locals => locals.filterMap LocalDecl.default
  | .byte values | .word values => values
  | .equal _ value => [value]
  | .gvar _ default => default.toList
  | .table size => size.toList
  | .vocbeg recordSize keySize => [recordSize, keySize]
  | .object entry => entry.flags ++ [entry.parent, entry.sibling, entry.child, entry.properties]
  | .prop size number => [size, number]
  | _ => []

def Node.exprs (n : Node) : List Expr :=
  match n.kind with
  | .directive d => d.exprs
  | .instruction i => i.operands ++ i.store.toList
  | _ => []

/-- The node opens a vocabulary block. -/
def Node.opensBlock (n : Node) : Bool :=
  match n.kind with
  | .directive (.vocbeg _ _) => true
  | _ => false

namespace Assembly

open Halting

section Steps

variable {k : Outlook} {known : String → Prop} {R : Context → State → State → Prop} [Following k R]
  {cm ca : Context} (hc : Defining k known R cm ca)

include hc

/-! ## Values -/

theorem inStep_layoutValue {e : Expr} (hsees : k.Sees known e) :
    InStep k known R cm ca (layoutValue cm e) (layoutValue ca e) := by
  refine (inStep_evaluate hc.toPairing hsees).bind fun r => ?_
  cases r with
  | known kind value => exact inStep_pure _
  | unknown name => exact (inStep_addFixup _).bind fun _ => inStep_pure _

theorem inStep_constant (what : String) {e : Expr} (hsees : k.Sees known e) :
    InStep k known R cm ca (constant cm what e) (constant ca what e) := by
  refine (inStep_evaluate hc.toPairing hsees).bind fun r => ?_
  cases r with
  | known kind value => exact inStep_pure _
  | unknown name => exact inStep_skip _

omit hc in
theorem inStep_writeKnown (width : Width) (e : Expr) (addr : Nat) (value : Int32)
    (seen : Bool × Option String) : InStep k known R cm ca
      (do
        if seen.1 then
          match seen.2 with
          | some symbol => addFixup { symbol, expr := e, target := .image addr width }
          | none => pure ()
        store (width.bytes value))
      (do
        if seen.1 then
          match seen.2 with
          | some symbol => addFixup { symbol, expr := e, target := .image addr width }
          | none => pure ()
        store (width.bytes value)) := by
  obtain ⟨inBlock, label⟩ := seen
  cases inBlock with
  | false => exact inStep_store _
  | true =>
    cases label with
    | none => exact inStep_store _
    | some symbol => exact (inStep_addFixup _).bind fun _ => inStep_store _

theorem inStep_writeValue (width : Width) {e : Expr} (hsees : k.Sees known e) :
    InStep k known R cm ca (writeValue cm width e) (writeValue ca width e) := by
  refine inStep_position.bind fun addr => (inStep_evaluate hc.toPairing hsees).bind fun r => ?_
  cases r with
  | unknown symbol => exact (inStep_addFixup _).bind fun _ => inStep_store _
  | known kind value =>
    have hseen : ∀ m a, Twin k known cm ca m a → (a.vocabulary.isSome, a.globalLabelIn e) =
        (m.vocabulary.isSome, m.globalLabelIn e) := by
      intro m a h
      rw [show a.vocabulary = m.vocabulary from congrArg Layout.vocabulary h.layout,
        h.globalLabelIn hsees]
    have hread := inStep_read hseen (inStep_writeKnown (R := R) width e addr value)
    exact hread

theorem inStep_values (width : Width) {es : List Expr} (hsees : ∀ e ∈ es, k.Sees known e) :
    InStep k known R cm ca (values cm width es) (values ca width es) :=
  inStep_forM fun e he => inStep_writeValue hc width (hsees e he)

theorem inStep_writeDefault {e : Option Expr} (hsees : ∀ x ∈ e, k.Sees known x) :
    InStep k known R cm ca (writeDefault cm e) (writeDefault ca e) := by
  cases e with
  | none => exact inStep_store _
  | some e => exact inStep_writeValue hc .word (hsees e rfl)

/-! ## Local labels, tables and blocks -/

omit hc in
theorem inStep_localLabel (name : String) :
    InStep k known R cm ca (localLabel name) (localLabel name) := by
  rw [localLabel_modify]
  refine inStep_get fun m a h => ?_
  rw [show a.image = m.image from congrArg Layout.image h,
    show a.locals = m.locals from congrArg Layout.locals h]
  obtain ⟨hm, ha⟩ | ⟨x, y, hm, ha, hxy⟩ := scope_cases h
  · rw [hm, ha]
    exact inStep_skip _
  · rw [hm, ha]
    refine InStep.bind (inStep_modify (fun l => { l with locals := _ }) (fun _ => rfl)
      (fun _ => rfl) (fun _ => rfl) (fun _ => rfl)) fun _ => ?_
    cases (m.locals.confirm name (Int32.ofNat m.image.cursor)).1 with
    | confirmed => exact inStep_pure _
    | duplicate => exact inStep_skip _
    | notDeclared => exact inStep_skip _
    | moved guess actual =>
      have hmoved : ∀ s : State, (s.scope.map (·.recordMove name actual)).map RoutineScope.plain =
          (s.scope.map RoutineScope.plain).map (·.recordMove name actual) := fun s => by
        rw [Option.map_map, Option.map_map]
        rfl
      have hrest : ∀ s : State,
          ({ s with scope := s.scope.map (·.recordMove name actual) } : State).rest = s.rest :=
          fun s => by
        unfold State.rest
        rw [Option.map_map]
        rfl
      exact (inStep_logEvent _ _).bind fun _ => inStep_modify
        (fun l => { l with scope := l.scope.map (·.recordMove name actual) })
        (fun s => congrArg (fun scope => { s.layout with scope }) (hmoved s))
        (fun s => congrArg (fun scope => { s.layout with scope }) (hmoved s)) hrest hrest

theorem inStep_openTable {size : Option Expr} (hsees : ∀ x ∈ size, k.Sees known x) :
    InStep k known R cm ca (openTable cm size) (openTable ca size) := by
  have hopen : ∀ declared : Option Nat, InStep k known R cm ca
      (modify fun s => { s with table := some { start := s.image.cursor, size := declared } } :
        Step Unit)
      (modify fun s => { s with table := some { start := s.image.cursor, size := declared } }) :=
    fun declared => inStep_modify
      (fun l => { l with table := some { start := l.image.cursor, size := declared } })
      (fun _ => rfl)
      (fun _ => rfl) (fun _ => rfl) (fun _ => rfl)
  refine inStep_get fun m a h => ?_
  rw [show a.table = m.table from congrArg Layout.table h]
  cases m.table with
  | some table => exact inStep_skip _
  | none =>
    cases size with
    | none => exact (inStep_pure none).bind hopen
    | some e => exact (inStep_layoutValue hc (hsees e rfl)).bind fun _ => (inStep_pure _).bind hopen

omit hc in
theorem inStep_closeTable : InStep k known R cm ca closeTable closeTable := by
  rw [closeTable_modify]
  refine inStep_get fun m a h => ?_
  rw [show a.table = m.table from congrArg Layout.table h,
    show a.image = m.image from congrArg Layout.image h]
  cases m.table with
  | none => exact inStep_skip _
  | some table =>
    refine InStep.bind (inStep_modify (fun l => { l with table := none }) (fun _ => rfl)
      (fun _ => rfl) (fun _ => rfl) (fun _ => rfl)) fun _ => ?_
    cases table.mismatch m.image.cursor with
    | some actual => exact inStep_skip _
    | none => exact inStep_pure _

theorem inStep_openVocabulary (hk : k = .level) (recordSize keySize : Expr) :
    InStep k known R cm ca (openVocabulary cm recordSize keySize)
      (openVocabulary ca recordSize keySize) := by
  subst hk
  refine inStep_get fun m a h => ?_
  rw [show a.vocabulary = m.vocabulary from congrArg Layout.vocabulary h]
  split
  · exact inStep_skip _
  · refine (inStep_constant hc _ (.inl rfl)).bind fun recordSize => ?_
    refine (inStep_constant hc _ (.inl rfl)).bind fun keySize => ?_
    dsimp only
    split
    · exact inStep_skip _
    · exact inStep_modifyLevel (fun l => { l with vocabulary := some ⟨recordSize.toInt.toNat,
        keySize.toInt.toNat, l.image.cursor, l.fixups.size, [], []⟩ }) (fun _ => rfl) (fun _ => rfl)
        (fun _ => rfl) (fun _ => rfl)

/-! ## Data -/

omit hc in
theorem inStep_encodeText (text : String) :
    InStep k known R cm ca (encodeText text) (encodeText text) := by
  refine inStep_get fun m a h => ?_
  rw [show a.encoder = m.encoder from congrArg Layout.encoder h]
  exact inStep_pure _

omit hc in
theorem inStep_storeLength (encoded : List UInt8) :
    InStep k known R cm ca (storeLength encoded) (storeLength encoded) := by
  unfold storeLength
  dsimp only
  split
  · exact inStep_skip _
  · exact inStep_store _

omit hc in
theorem inStep_stringData (text : String) :
    InStep k known R cm ca (stringData text) (stringData text) :=
  (inStep_encodeText text).bind fun _ => (inStep_store _).bind fun _ => inStep_collectText text

omit hc in
theorem inStep_placePacked (kind : PackedKind) (name : String) :
    InStep k known R cm ca (placePacked cm kind name) (placePacked ca kind name) := by
  rw [placePacked_modify, placePacked_modify]
  refine inStep_get fun m a h => ?_
  rw [show a.packing = m.packing from congrArg Layout.packing h,
    show a.image = m.image from congrArg Layout.image h]
  refine InStep.bind (inStep_modify (fun l => { l with packing := _ }) (fun _ => rfl) (fun _ => rfl)
    (fun _ => rfl) (fun _ => rfl)) fun _ => ?_
  refine (inStep_store _).bind fun _ => inStep_position.bind fun _ => ?_
  dsimp only
  split
  · exact (inStep_warn _).bind fun _ => inStep_pure _
  · exact inStep_pure _

theorem inStep_abbreviation (name text : String) :
    InStep k known R cm ca (abbreviation cm name text) (abbreviation ca name text) := by
  refine inStep_get fun m a h => ?_
  rw [show a.encoder = m.encoder from congrArg Layout.encoder h]
  cases m.encoder.register text with
  | error error => exact inStep_skip _
  | ok registered =>
    have hrest : InStep k known R cm ca
        (do
          defineGlobal cm name .constant (Int32.ofNat ((← position) / 2))
          store (registered.2.encodePlain text))
        (do
          defineGlobal ca name .constant (Int32.ofNat ((← position) / 2))
          store (registered.2.encodePlain text)) := by
      refine inStep_position.bind fun _ => ?_
      exact (hc.define name (by decide) _).bind fun _ => inStep_store _
    refine InStep.bind (inStep_modify (fun l => { l with encoder := registered.2 }) (fun _ => rfl)
      (fun _ => rfl) (fun _ => rfl) (fun _ => rfl)) fun _ => inStep_position.bind fun position => ?_
    dsimp only
    split
    · exact (inStep_store _).bind fun _ => hrest
    · exact hrest

omit hc in
/-- The value of a symbol is of a known kind. -/
theorem known_evaluate {cx : Context} {name : String} {s t : State} {kind : SymbolKind}
    {value : Int32} (h : evaluate cx (.symbol name) s = .ok (.known kind value) t) :
    kind ≠ .unknown := by
  rw [evaluate_get] at h
  have hresolve : (Expr.symbol name).eval (s.scoping cx) = .ok (.known kind value) := by
    cases heval : (Expr.symbol name).eval (s.scoping cx) with
    | ok r =>
      rw [heval] at h
      cases r <;> cases h
      rfl
    | error error =>
      rw [heval] at h
      cases error <;> cases h
  exact Expr.kind_of_eval hresolve

theorem inStep_equate (name : String) {e : Expr} (hsees : k.Sees known e) :
    InStep k known R cm ca (equate cm name e) (equate ca name e) := by
  refine (inStep_evaluate hc.toPairing hsees).bind_of
    (fun r => ∀ other kind value, e = .symbol other → r = .known kind value → kind ≠ .unknown) ?_
    fun r hr => ?_
  · rintro s r t h other kind value rfl rfl
    exact known_evaluate h
  · cases r with
    | known kind value =>
      cases e with
      | symbol other => exact hc.define name (hr other kind value rfl rfl) value
      | number | quote | add => exact hc.define name (by simp) value
    | unknown symbol =>
      refine (inStep_addFixup _).bind fun _ => ⟨fun s => ?_, fun m a h => ?_⟩
      · exact leaves_modify (Keeping.mention cm s name)
      · exact .ok () rfl rfl (h.mention name)

theorem inStep_variableHead (name : String) :
    InStep k known R cm ca (variableHead cm name) (variableHead ca name) := by
  refine inStep_get fun m a h => ?_
  rw [show a.globalVars = m.globalVars from congrArg Layout.globalVars h]
  dsimp only
  split
  · exact inStep_skip _
  · refine InStep.bind (inStep_modify (fun l => { l with globalVars := _ }) (fun _ => rfl)
      (fun _ => rfl) (fun _ => rfl) (fun _ => rfl)) fun _ => hc.define name (by decide) _

theorem inStep_objectHead (entry : ObjectEntry) :
    InStep k known R cm ca (objectHead cm entry) (objectHead ca entry) := by
  unfold objectHead
  rw [hc.version]
  dsimp only
  split
  · exact inStep_skip _
  · refine inStep_get fun m a h => ?_
    rw [show a.objects = m.objects from congrArg Layout.objects h]
    split
    · exact inStep_skip _
    · refine InStep.bind (inStep_modify (fun l => { l with objects := _ }) (fun _ => rfl)
        (fun _ => rfl) (fun _ => rfl) (fun _ => rfl)) fun _ => hc.define _ (by decide) _

theorem inStep_object {entry : ObjectEntry}
    (hsees : ∀ e ∈ (Directive.object entry).exprs, k.Sees known e) :
    InStep k known R cm ca (object cm entry) (object ca entry) := by
  rw [object_eq, object_eq, hc.version]
  refine (inStep_objectHead hc entry).bind fun _ => ?_
  refine (inStep_values hc _ fun e he => hsees e (List.mem_append_left _ he)).bind fun _ => ?_
  refine (inStep_store _).bind fun _ => (inStep_values hc _ fun e he => hsees e ?_).bind fun _ => ?_
  · refine List.mem_append_right _ ?_
    simp only [List.mem_cons, List.not_mem_nil, or_false] at he ⊢
    tauto
  · exact inStep_writeValue hc _ (hsees _ (by simp [Directive.exprs]))

theorem inStep_property {size number : Expr} (hsize : k.Sees known size)
    (hnumber : k.Sees known number) :
    InStep k known R cm ca (property cm size number) (property ca size number) := by
  unfold property
  rw [hc.version]
  refine (inStep_constant hc _ hsize).bind fun size =>
    (inStep_constant hc _ hnumber).bind fun number => ?_
  dsimp only
  split
  · exact inStep_skip _
  · split
    · exact inStep_skip _
    · exact inStep_store _

/-! ## Instructions -/

theorem inStep_argument {e : Expr} (hsees : k.Sees known e) :
    InStep k known R cm ca (argument cm e) (argument ca e) := by
  refine (inStep_evaluate hc.toPairing hsees).bind fun r => ?_
  have hnumber : ∀ value : Int32, InStep k known R cm ca
      (do
        if fitsByte value && !e.needsLong ((← get).scoping cm) then
          return { operand := .byte (UInt8.ofInt value.toInt), expr := e }
        else return { operand := .word (lowWord value), expr := e } : Step Argument)
      (do
        if fitsByte value && !e.needsLong ((← get).scoping ca) then
          return { operand := .byte (UInt8.ofInt value.toInt), expr := e }
        else return { operand := .word (lowWord value), expr := e }) := by
    intro value
    have hsized : ∀ long : Bool, InStep k known R cm ca
        (if fitsByte value && !long then
          return { operand := .byte (UInt8.ofInt value.toInt), expr := e }
        else return { operand := .word (lowWord value), expr := e } : Step Argument)
        (if fitsByte value && !long then
          return { operand := .byte (UInt8.ofInt value.toInt), expr := e }
        else return { operand := .word (lowWord value), expr := e }) := by
      intro long
      split <;> exact inStep_pure _
    have hlong : ∀ m a, Twin k known cm ca m a →
        e.needsLong (a.scoping ca) = e.needsLong (m.scoping cm) :=
      fun m a h => Expr.needsLong_of_meaning e fun _ hname => h.meaning (hsees.knows hname)
    have hread := inStep_read hlong hsized
    exact hread
  cases r with
  | unknown symbol => exact inStep_pure _
  | known kind value =>
    cases kind with
    | var => exact inStep_pure _
    | unknown | constant | label | routine | string | object => exact hnumber value

theorem inStep_jumpArgument (address : Nat) {e : Expr} (hsees : k.Sees known e) :
    InStep k known R cm ca (jumpArgument cm address e) (jumpArgument ca address e) := by
  cases e with
  | symbol name =>
    refine (inStep_evaluate hc.toPairing hsees).bind fun r => ?_
    cases r with
    | unknown symbol => exact inStep_pure _
    | known kind value =>
      cases kind with
      | label => exact inStep_pure _
      | unknown | constant | var | routine | string | object => exact inStep_skip _
  | number | quote | add => exact inStep_skip _

theorem inStep_arguments (op : Opcode) (address : Nat) {operands : List Expr}
    (hsees : ∀ e ∈ operands, k.Sees known e) :
    InStep k known R cm ca (arguments cm op address operands)
      (arguments ca op address operands) := by
  unfold arguments
  split
  · split
    · exact (inStep_jumpArgument hc address (hsees _ List.mem_cons_self)).bind fun _ =>
        inStep_pure _
    · exact (inStep_argument hc (hsees _ List.mem_cons_self)).bind fun _ => inStep_pure _
  · exact inStep_mapM fun e he => inStep_argument hc (hsees e he)

theorem inStep_storeTarget {target : Option Expr} (hsees : ∀ x ∈ target, k.Sees known x) :
    InStep k known R cm ca (target.mapM (storeVariable cm)) (target.mapM (storeVariable ca)) := by
  cases target with
  | none => exact inStep_pure _
  | some e =>
    have hstore : InStep k known R cm ca (storeVariable cm e) (storeVariable ca e) := by
      refine (inStep_evaluate hc.toPairing (hsees e rfl)).bind fun r => ?_
      cases r with
      | unknown symbol => exact inStep_pure _
      | known kind value =>
        cases kind with
        | var => exact inStep_pure _
        | unknown | constant | label | routine | string | object => exact inStep_skip _
    exact hstore.bind fun _ => inStep_pure _

omit hc in
theorem inStep_destination (target : BranchTarget) :
    InStep k known R cm ca (destination target) (destination target) := by
  cases target with
  | returnTrue => exact inStep_pure _
  | returnFalse => exact inStep_pure _
  | label name =>
    refine inStep_get fun m a h => ?_
    have hscope : a.scope.isNone = m.scope.isNone := by
      obtain ⟨hm, ha⟩ | ⟨x, y, hm, ha, -⟩ := scope_cases h
      · rw [hm, ha]
      · rw [hm, ha, Option.isNone_some, Option.isNone_some]
    rw [hscope, show a.locals = m.locals from congrArg Layout.locals h]
    split
    · exact inStep_skip _
    · cases m.locals.lookup name with
      | none => exact inStep_skip _
      | some symbol =>
        dsimp only
        split
        · exact inStep_pure _
        · exact inStep_skip _

omit hc in
theorem inStep_branchField (branch : Option Branch) :
    InStep k known R cm ca
      (branch.mapM fun b => do
        return ({ onTrue := b.onTrue, destination := ← destination b.target } : BranchField))
      (branch.mapM fun b => do
        return ({ onTrue := b.onTrue, destination := ← destination b.target } : BranchField)) := by
  cases branch with
  | none => exact inStep_pure _
  | some b =>
    refine InStep.bind ?_ fun _ => inStep_pure _
    exact (inStep_destination b.target).bind fun _ => inStep_pure _

omit hc in
theorem inStep_instructionText (text : Option String) :
    InStep k known R cm ca
      (match text with
        | some text => collectText text
        | none => pure () : Step Unit)
      (match text with
        | some text => collectText text
        | none => pure ()) := by
  cases text with
  | none => exact inStep_pure _
  | some text => exact inStep_collectText text

omit hc in
theorem inStep_finishInstruction (i : Instruction) (address : Nat) (args : List Argument)
    (target : Option (UInt8 × Option String)) (encoded : Bytecode.Encoded) :
    InStep k known R cm ca (finishInstruction i address args target encoded)
      (finishInstruction i address args target encoded) := by
  unfold finishInstruction
  refine InStep.bind (inStep_forM fun pair _ => ?_) fun _ => ?_
  · dsimp only
    cases pair.1.waitsFor with
    | none => exact inStep_pure _
    | some symbol => exact inStep_addFixup _
  · dsimp only
    split
    · exact (inStep_addFixup _).bind fun _ => inStep_instructionText i.text
    · exact inStep_instructionText i.text

theorem inStep_instruction {i : Instruction}
    (hsees : ∀ e ∈ i.operands ++ i.store.toList, k.Sees known e) :
    InStep k known R cm ca (instruction cm i) (instruction ca i) := by
  have hselect : InStep k known R cm ca (selectOpcode cm i.opcode i.operands.length)
      (selectOpcode ca i.opcode i.operands.length) := by
    unfold selectOpcode
    rw [hc.version]
    split
    · exact inStep_pure _
    · exact inStep_abort _
    · exact inStep_abort _
  refine hselect.bind fun op => ?_
  dsimp only
  split
  · exact inStep_skip _
  · refine inStep_position.bind fun address => ?_
    have hoperands : ∀ e ∈ i.operands, k.Sees known e :=
      fun e he => hsees e (List.mem_append_left _ he)
    have hstore : ∀ e ∈ i.store, k.Sees known e := fun e he =>
      hsees e (List.mem_append_right _ (Option.mem_toList.mpr he))
    refine (inStep_arguments hc op address hoperands).bind fun args => ?_
    refine (inStep_storeTarget hc hstore).bind fun target =>
      (inStep_branchField _).bind fun branch => ?_
    refine inStep_get fun m a h => ?_
    rw [show a.encoder = m.encoder from congrArg Layout.encoder h]
    split
    · exact inStep_skip _
    · next encoded _ =>
      exact (inStep_store _).bind fun _ => inStep_finishInstruction i address args target encoded

/-! ## Nodes -/

theorem inStep_storyVersion {e : Expr} (hsees : k.Sees known e) :
    InStep k known R cm ca (storyVersion cm e) (storyVersion ca e) := by
  unfold storyVersion
  rw [hc.version]
  refine (inStep_constant hc _ hsees).bind fun value => ?_
  split
  · exact inStep_skip _
  · split
    · exact inStep_pure _
    · refine ⟨fun s => refl_of (R cm) s, fun _ _ _ => .lost _ ?_ rfl⟩
      rintro ⟨problem, h⟩
      cases h

theorem inStep_headOpening (name : String) (locals : List LocalDecl) :
    InStep k known R cm ca (headOpening cm name locals) (headOpening ca name locals) := by
  have hdeclare : ∀ start : Nat, InStep k known R cm ca
      (do
        storeByte (UInt8.ofNat (locals.take maxLocals).length)
        declareLocals (locals.take maxLocals)
        return start : Step Nat)
      (do
        storeByte (UInt8.ofNat (locals.take maxLocals).length)
        declareLocals (locals.take maxLocals)
        return start) := by
    intro start
    refine (inStep_store _).bind fun _ => InStep.bind ?_ fun _ => inStep_pure start
    exact inStep_modify (fun l => { l with
        locals := (locals.take maxLocals).zipIdx.foldl
          (fun table decl => (table.set decl.1.name .var (Int32.ofNat (decl.2 + 1))).2) l.locals })
      (fun _ => rfl) (fun _ => rfl) (fun _ => rfl) (fun _ => rfl)
  refine InStep.bind (inStep_modify (fun l => { l with locals := .empty }) (fun _ => rfl)
    (fun _ => rfl) (fun _ => rfl) (fun _ => rfl)) fun _ => ?_
  refine (inStep_placePacked .routine name).bind fun packed => inStep_position.bind fun start => ?_
  refine (hc.define name (by decide) _).bind fun _ => ?_
  dsimp only
  split
  · exact (inStep_reportError _).bind fun _ => hdeclare start
  · exact hdeclare start

omit hc in
theorem inStep_predeclareLabels (start : Nat) :
    InStep k known R cm ca (predeclareLabels start) (predeclareLabels start) := by
  refine inStep_modify (fun l => l.scope.elim l fun scope => { l with
      locals := scope.labels.foldl
        (fun table name => table.predeclare name (scope.guess name (Int32.ofNat start))) l.locals })
    (fun s => ?_) (fun s => ?_) (fun s => ?_) (fun s => ?_) <;>
      rcases s with ⟨_, _, _, _, _, _, _, _, _, _, _, _, _ | scope, _⟩ <;> rfl

theorem inStep_routineHead (name : String) {locals : List LocalDecl}
    (hsees : ∀ e ∈ locals.filterMap LocalDecl.default, k.Sees known e) :
    InStep k known R cm ca (routineHead cm name locals) (routineHead ca name locals) := by
  rw [routineHead_eq, routineHead_eq]
  refine (inStep_headOpening hc name locals).bind fun start => ?_
  refine InStep.bind ?_ fun _ => inStep_predeclareLabels start
  unfold localDefaults
  rw [hc.version]
  split
  · exact inStep_forM fun decl hdecl => inStep_writeDefault hc fun e he =>
      hsees e (List.mem_filterMap.mpr ⟨decl, List.mem_of_mem_take hdecl, he⟩)
  · split
    · exact inStep_warn _
    · exact inStep_pure _

omit hc [Following k R] in
/-- A debug directive does nothing to the layout, whether it makes its record or not. -/
theorem kept_debugDirective [Keeping R] (d : DebugDirective) (s : State) :
    Leaves (R cm) (debugDirective cm d) s := by
  have hconstant : ∀ what e t, Leaves (R cm) (constant cm what e) t := by
    intro what e t
    refine Leaves.bind (kept_evaluate e t) fun r t _ => ?_
    cases r with
    | known kind value => exact leaves_pure _ t
    | unknown name => exact leaves_skip _ t
  unfold debugDirective
  split
  · exact leaves_pure _ s
  · refine Leaves.bind (m := position) (refl_of (R cm) s) fun pc t _ => ?_
    refine Leaves.bind (m := debugRecord cm pc d) ?_ fun record t _ => ?_
    · cases d with
      | named table number name => exact (hconstant _ _ t).bind fun _ t _ => leaves_pure _ t
      | file | line | routine | routineEnd => exact leaves_pure _ t
    · exact leaves_modify (Keeping.of_rest rfl)

/-- The nodes that set no flag and make no record. -/
theorem inStep_node {n : Node} (hsees : ∀ e ∈ n.exprs, k.Sees known e)
    (hblock : k = .level ∨ n.opensBlock = false)
    (hdebug : n.debug? = none) (htime : n.kind ≠ .directive .time)
    (hsound : n.kind ≠ .directive .sound) :
    InStep k known R cm ca (node cm n) (node ca n) := by
  obtain ⟨kind, location⟩ := n
  cases kind with
  | instruction i => exact inStep_instruction hc hsees
  | globalLabel name => exact hc.label name
  | localLabel name => exact inStep_localLabel name
  | directive d =>
    cases d with
    | new version => exact inStep_storyVersion hc (hsees _ List.mem_cons_self)
    | funct name locals => exact inStep_routineHead hc name hsees
    | stop => exact inStep_pure _
    | byte es => exact inStep_values hc .byte hsees
    | word es => exact inStep_values hc .word hsees
    | str text => exact inStep_stringData text
    | strl text =>
      refine (inStep_encodeText text).bind fun _ => ?_
      exact (inStep_storeLength _).bind fun _ => inStep_stringData text
    | len text => exact (inStep_encodeText text).bind fun _ => inStep_storeLength _
    | zword text =>
      show InStep k known R cm ca (store (Dictionary.key cm.version text))
        (store (Dictionary.key ca.version text))
      rw [hc.version]
      exact inStep_store _
    | gstr name text =>
      refine (inStep_placePacked .string name).bind fun _ => ?_
      exact (hc.define name (by decide) _).bind fun _ => inStep_stringData text
    | fstr name text => exact inStep_abbreviation hc name text
    | equal name value => exact inStep_equate hc name (hsees _ List.mem_cons_self)
    | gvar name default =>
      show InStep k known R cm ca (globalVariable cm name default) (globalVariable ca name default)
      rw [globalVariable_eq, globalVariable_eq]
      exact (inStep_variableHead hc name).bind fun _ => inStep_writeDefault hc fun e he =>
        hsees e (Option.mem_toList.mpr he)
    | table size => exact inStep_openTable hc fun e he => hsees e (Option.mem_toList.mpr he)
    | endt => exact inStep_closeTable
    | vocbeg recordSize keySize =>
      exact inStep_openVocabulary hc (hblock.resolve_right (nomatch ·)) recordSize keySize
    | vocend => exact hc.close
    | object entry => exact inStep_object hc hsees
    | prop size number =>
      exact inStep_property hc (hsees _ List.mem_cons_self)
        (hsees _ (by simp [Node.exprs, Directive.exprs]))
    | pdef =>
      refine inStep_position.bind fun position => ?_
      rw [hc.version]
      exact inStep_store _
    | time => exact absurd rfl htime
    | sound => exact absurd rfl hsound
    | debug d => cases hdebug

end Steps

end Assembly

end ZAssembler
