import ZAssembler.Proofs.Closing
import ZAssembler.Proofs.Image

/-
  What the work of a node does in any pass, however it ends. `Change` follows the symbols of the
  assembling pass; here the symbols do not matter, and what is counted, collected and kept for later
  does. `Effect` lists the single effects of a step and `Act` those of a node, which may also count
  or collect something. A node does nothing else, so an invariant of a pass is a fact about each
  act.
-/

namespace ZAssembler

namespace Node

def object? (n : Node) : Option ObjectEntry :=
  match n.kind with
  | .directive (.object entry) => some entry
  | _ => none

/-- The global variable that a node declares. -/
def globalVar? (n : Node) : Option String :=
  match n.kind with
  | .directive (.gvar name _) => some name
  | _ => none

def debug? (n : Node) : Option DebugDirective :=
  match n.kind with
  | .directive (.debug d) => some d
  | _ => none

/-- The literal texts of a node. -/
def texts (n : Node) : List String :=
  match n.kind with
  | .directive (.str text) | .directive (.strl text) | .directive (.gstr _ text) => [text]
  | .instruction i => i.text.toList
  | _ => []

end Node

def Event.walksAgain : Event → Bool
  | .walkingAgain _ _ => true
  | _ => false

namespace Assembly

/-- The scope `b` is the scope `a` of the same walk, later. -/
structure Continues (a b : RoutineScope) : Prop where
  snapshot : b.snapshot = a.snapshot
  labels : b.labels = a.labels
  walks : b.walks = a.walks
  moved : a.moved = true → b.moved = true

theorem Continues.refl (a : RoutineScope) : Continues a a := ⟨rfl, rfl, rfl, id⟩

theorem Continues.trans {a b c : RoutineScope} (h : Continues a b) (h' : Continues b c) :
    Continues a c :=
  ⟨h'.snapshot.trans h.snapshot, h'.labels.trans h.labels, h'.walks.trans h.walks,
    fun hm => h'.moved (h.moved hm)⟩

theorem continues_defer (a : RoutineScope) (name : String) (old : Int32) :
    Continues a (a.defer name old) := by
  unfold RoutineScope.defer
  split
  · exact .refl a
  · exact ⟨rfl, rfl, rfl, id⟩

/-! ## Effects -/

/-- What nodes count and collect. -/
structure Tally where
  objects : Nat
  globalVars : Nat
  debug : Array DebugRecord
  text : Option Abbreviation.Finder
  deriving DecidableEq

def State.tally (s : State) : Tally := ⟨s.objects, s.globalVars, s.debug, s.text⟩

/-- How far a pass has come. -/
structure Mark where
  tally : Tally
  diagnostics : Array Diagnostic
  encoder : ZText.Encoder
  packing : Packing
  position : Nat
  deriving DecidableEq

def State.mark (s : State) : Mark := ⟨s.tally, s.diagnostics, s.encoder, s.packing, s.image.cursor⟩

/-- The walks that the log tells of. -/
def State.walksTold (s : State) : List Event := s.log.toList.filter Event.walksAgain

/-- The states differ at most in their symbols, in what the log tells besides walks, and in what is
    only ever set. -/
structure Quiet (s t : State) : Prop where
  mark : t.mark = s.mark
  image : t.image = s.image
  fixups : t.fixups = s.fixups
  table : t.table = s.table
  vocabulary : t.vocabulary = s.vocabulary
  scope : t.scope = s.scope
  told : t.walksTold = s.walksTold

instance : Std.Refl Quiet where
  refl _ := ⟨rfl, rfl, rfl, rfl, rfl, rfl, rfl⟩

instance : IsTrans State Quiet where
  trans _ _ _ hst htu :=
    ⟨htu.mark.trans hst.mark, htu.image.trans hst.image, htu.fixups.trans hst.fixups,
      htu.table.trans hst.table, htu.vocabulary.trans hst.vocabulary, htu.scope.trans hst.scope,
      htu.told.trans hst.told⟩

/-- An effect of a step of a node that is reached at `here`. -/
inductive Effect (here : Nat) : State → State → Prop
  | quiet {s t : State} (h : Quiet s t) : Effect here s t
  | report (s : State) (d : Diagnostic) :
    Effect here s { s with diagnostics := s.diagnostics.push d }
  | store (s : State) (bytes : List UInt8) : Effect here s { s with image := s.image.store bytes }
  | fixup (s : State) (f : Fixup)
    (h : ∀ addr width, f.target = .image addr width → addr = s.image.cursor ∨ here ≤ addr) :
    Effect here s { s with fixups := s.fixups.push f }
  | block (s : State) (v v' : OpenVocabulary) (hv : s.vocabulary = some v)
    (hstart : v'.start = v.start) (hfixups : v'.fixupStart = v.fixupStart) :
    Effect here s { s with vocabulary := some v' }
  | openBlock (s : State) (recordSize keySize : Nat) :
    Effect here s { s with vocabulary := some (s.newBlock recordSize keySize) }
  | table (s : State) (table : Option OpenTable)
    (h : ∀ open', table = some open' → open'.start = s.image.cursor) :
    Effect here s { s with table }
  | scope (s : State) (a b : RoutineScope) (ha : s.scope = some a) (hab : Continues a b) :
    Effect here s { s with scope := some b }
  | pack (s : State) (kind : PackedKind) :
    Effect here s { s with packing := (s.packing.padding kind s.image.cursor).2 }
  | register (s : State) (text : String) (number : Nat) (encoder : ZText.Encoder)
    (h : s.encoder.register text = .ok (number, encoder)) : Effect here s { s with encoder }

/-- A chain of effects. -/
abbrev Effects (here : Nat) : State → State → Prop := Relation.ReflTransGen (Effect here)

/-- What the end of a block may do beside the effects of its steps: it rewrites the image, settles
    fixups and closes the block. -/
structure Closing (s t : State) : Prop where
  mark : t.mark = s.mark
  size : s.image.size ≤ t.image.size
  table : t.table = s.table
  scope : t.scope = s.scope
  told : t.walksTold = s.walksTold

/-- An act of node `n`, which is reached at `here`. -/
inductive Act (n : Node) (here : Nat) : State → State → Prop
  | effect {s t : State} (h : Effect here s t) : Act n here s t
  | object (s : State) (h : n.object?.isSome = true) :
    Act n here s { s with objects := s.objects + 1 }
  | globalVar (s : State) (h : n.globalVar?.isSome = true) :
    Act n here s { s with globalVars := s.globalVars + 1 }
  | record (s : State) (r : DebugRecord) (h : n.debug?.isSome = true) :
    Act n here s { s with debug := s.debug.push r }
  | text (s : State) (text : String) (h : text ∈ n.texts) :
    Act n here s { s with text := s.text.map (·.add text) }
  | close {s t : State} (hnode : n.kind = .directive .vocend) (h : Closing s t) : Act n here s t

/-- A chain of acts. -/
abbrev Acts (n : Node) (here : Nat) : State → State → Prop := Relation.ReflTransGen (Act n here)

section Lifting

variable {ε α : Type} {here : Nat} {n : Node} {m : EStateM ε State α} {s : State}

theorem Leaves.effects (h : Leaves Quiet m s) : Leaves (Effects here) m s :=
  h.imp fun _ hst => .single (.quiet hst)

theorem Leaves.acts (h : Leaves (Effects here) m s) : Leaves (Acts n here) m s :=
  h.imp fun t hst => Relation.ReflTransGen.mono (fun _ _ hact => .effect hact) s t hst

end Lifting

/-! ## Quiet steps -/

section Quiet

theorem walksTold_push (s : State) {event : Event} (h : event.walksAgain = false) :
    { s with log := s.log.push event }.walksTold = s.walksTold := by
  simp [State.walksTold, h]

theorem quiet_logEvent {event : Event} (h : event.walksAgain = false) (s : State) :
    Leaves Quiet (logEvent event) s :=
  leaves_modify ⟨rfl, rfl, rfl, rfl, rfl, rfl, walksTold_push s h⟩

theorem quiet_judgeChange (cx : Context) (name : String) (old : Int32) (s : State) :
    Leaves Quiet (judgeChange cx name old) s := by
  unfold judgeChange
  refine leaves_get ?_
  split
  · exact leaves_pure _ s
  · split
    · exact leaves_pure _ s
    · split
      · refine (quiet_logEvent rfl s).bind fun _ t _ => leaves_modify ?_
        exact ⟨rfl, rfl, rfl, rfl, rfl, rfl, rfl⟩
      · exact leaves_abort _ s

end Quiet

/-! ## Steps -/

section Steps

variable {here : Nat}

theorem leaves_effect {ε : Type} {f : State → State} {s : State} (h : Effect here s (f s)) :
    Leaves (Effects here) (modify f : EStateM ε State PUnit) s :=
  leaves_modify (.single h)

theorem leaves_act {ε : Type} {n : Node} {f : State → State} {s : State} (h : Act n here s (f s)) :
    Leaves (Acts n here) (modify f : EStateM ε State PUnit) s :=
  leaves_modify (.single h)

theorem effects_report (severity : Severity) (problem : Problem) (s : State) :
    Leaves (Effects here) (modify (·.report severity problem) : Step Unit) s :=
  leaves_effect (.report s _)

theorem effects_warn (cx : Context) (problem : Problem) (s : State) :
    Leaves (Effects here) (warn cx problem) s := by
  unfold warn
  split
  · refine leaves_get ?_
    exact (quiet_logEvent rfl s).effects.bind fun _ t _ => effects_report _ _ t
  · exact effects_report _ _ s

theorem effects_reportError (cx : Context) (problem : Problem) (s : State) :
    Leaves (Effects here) (reportError cx problem) s := by
  unfold reportError
  refine (effects_report _ _ s).bind fun _ t _ => leaves_get ?_
  split
  · exact leaves_abort _ t
  · exact leaves_pure _ t

end Steps

end Assembly

end ZAssembler
