import ZAssembler.Proofs.Closing
import ZAssembler.Proofs.Effect
import ZAssembler.Proofs.Tables

/-
  Twin states of a measuring pass and an assembling pass: the same layout, and globals that agree.
  The passes may begin with the same symbols; then the globals always match. Or the assembling pass
  knows how the measuring pass ends (`Outlook.ahead`); then a global may be pending, which is to say
  that neither pass has defined it yet and that only the assembling pass is sure to know it.

  `InStep` says of a step that it takes twin states to twin states, unless one of the passes has to
  stop or the measuring pass is off: something has moved in it, or it holds a global to another
  value than the one that the assembling pass was told.
-/

namespace ZAssembler

/-- A scope without what the snapshot holds beside the layout. -/
def RoutineScope.plain (scope : RoutineScope) : RoutineScope :=
  { scope with
    snapshot := { scope.snapshot with debugRecords := 0, diagnostics := 0, text := none } }

namespace Assembly

/-! ## What a pass keeps -/

/-- The globals, the flags and the number of the pass. -/
structure Core where
  globals : SymbolTable
  timed : Bool
  sound : Bool
  changed : Bool
  passes : Nat

/-- What a step may do only in ways of its own. -/
structure Rest extends Core where
  /-- No block is open. -/
  shut : Bool
  /-- The changes that wait for the end of the routine. -/
  deferred : Option (List (String × Int32))

def State.core (s : State) : Core := ⟨s.globals, s.timed, s.sound, s.changed, s.counts.passes⟩

def State.rest (s : State) : Rest :=
  { s.core with shut := s.vocabulary.isNone, deferred := s.scope.map RoutineScope.deferred }

/-- What every part of a pass keeps, however it ends. -/
structure Carried (cx : Context) (s t : State) : Prop where
  changed : s.changed = true → t.changed = true
  passes : t.counts.passes = s.counts.passes
  sites : DefinedBefore (cx.pass + 1) (fun _ => True) s.globals →
    DefinedBefore (cx.pass + 1) (fun _ => True) t.globals

/-- What the steps of nodes keep, those apart that set a flag. -/
structure Kept (cx : Context) (s t : State) : Prop extends Carried cx s t where
  timed : t.timed = s.timed
  sound : t.sound = s.sound

/-- No block is open, and the changes that wait are those of globals with values. -/
structure State.Orderly (s : State) : Prop where
  shut : s.vocabulary = none
  valued : ∀ changes, s.scope.map RoutineScope.deferred = some changes →
    ∀ change ∈ changes, (s.globals.valueOf change.1).isSome = true

/-- What a measuring pass keeps in which no block is opened: the values that it holds globals to, or
    something moves. -/
structure Steady (cx : Context) (s t : State) : Prop extends Carried cx s t where
  held : cx.mode = .measuring → s.Orderly → t.Orderly ∧
    (t.changed = true ∨ ∀ name value, s.heldTo name = some value → t.heldTo name = some value)

/-- A relation of this sort. -/
class Keeping (R : Context → State → State → Prop) : Prop where
  refl (cx : Context) (s : State) : R cx s s
  trans {cx : Context} {s t u : State} (hst : R cx s t) (htu : R cx t u) : R cx s u
  carried {cx : Context} {s t : State} (h : R cx s t) : Carried cx s t
  of_rest {cx : Context} {s t : State} (h : t.rest = s.rest) : R cx s t
  mention (cx : Context) (s : State) (name : String) :
    R cx s { s with globals := s.globals.mention name }
  moved (cx : Context) (s : State) : R cx s { s with changed := true }
  inBlock {cx : Context} {s t : State} (hs : s.vocabulary ≠ none) (h : t.core = s.core) : R cx s t

instance (R : Context → State → State → Prop) [Keeping R] (cx : Context) : Std.Refl (R cx) :=
  ⟨Keeping.refl cx⟩

instance (R : Context → State → State → Prop) [Keeping R] (cx : Context) : IsTrans State (R cx) :=
  ⟨fun _ _ _ => Keeping.trans⟩

section Keeping

variable {cx : Context} {s t u : State}

theorem Carried.trans (hst : Carried cx s t) (htu : Carried cx t u) : Carried cx s u :=
  ⟨fun h => htu.changed (hst.changed h), htu.passes.trans hst.passes,
    fun h => htu.sites (hst.sites h)⟩

theorem carried_of_core (h : t.core = s.core) : Carried cx s t := by
  have hglobals : t.globals = s.globals := congrArg Core.globals h
  have hchanged : t.changed = s.changed := congrArg Core.changed h
  refine ⟨fun hs => hchanged.trans hs, congrArg Core.passes h, fun hs => ?_⟩
  rw [hglobals]
  exact hs

theorem kept_of_core (h : t.core = s.core) : Kept cx s t :=
  ⟨carried_of_core h, congrArg Core.timed h, congrArg Core.sound h⟩

instance : Keeping Carried where
  refl _ _ := ⟨id, rfl, id⟩
  trans := Carried.trans
  carried h := h
  of_rest h := carried_of_core (congrArg Rest.toCore h)
  mention _ _ _ := ⟨id, rfl, fun h => h.mention _⟩
  moved _ _ := ⟨fun _ => rfl, rfl, id⟩
  inBlock _ h := carried_of_core h

instance : Keeping Kept where
  refl _ _ := ⟨⟨id, rfl, id⟩, rfl, rfl⟩
  trans hst htu := ⟨hst.toCarried.trans htu.toCarried, htu.timed.trans hst.timed,
    htu.sound.trans hst.sound⟩
  carried h := h.toCarried
  of_rest h := kept_of_core (congrArg Rest.toCore h)
  mention _ _ _ := ⟨⟨id, rfl, fun h => h.mention _⟩, rfl, rfl⟩
  moved _ _ := ⟨⟨fun _ => rfl, rfl, id⟩, rfl, rfl⟩
  inBlock _ h := kept_of_core h

/-- Where no block is open, only the routine puts changes off. -/
theorem State.Orderly.heldTo (h : s.Orderly) (name : String) :
    s.heldTo name =
      ((s.scope.map RoutineScope.deferred).bind (·.lookup name)).or (s.globals.valueOf name) := by
  unfold State.heldTo
  rw [h.shut, Option.bind_map]
  rfl

/-- A change that waits is that of a global with a value. -/
theorem State.Orderly.known (h : s.Orderly) {changes : List (String × Int32)} {name : String}
    {old : Int32} (hchanges : s.scope.map RoutineScope.deferred = some changes)
    (hlookup : changes.lookup name = some old) : (s.globals.valueOf name).isSome = true := by
  obtain ⟨before, after, rfl, -⟩ := List.lookup_eq_some_iff.mp hlookup
  exact h.valued _ hchanges (name, old) (by simp)

theorem State.Orderly.waits (h : s.Orderly) {name : String}
    (hvalue : s.globals.valueOf name = none) :
    (s.scope.map RoutineScope.deferred).bind (·.lookup name) = none := by
  rw [Option.bind_eq_none_iff]
  intro changes hchanges
  cases hlookup : changes.lookup name with
  | none => rfl
  | some old =>
    have hknown := h.known hchanges hlookup
    rw [hvalue] at hknown
    cases hknown

/-- The values that globals have and the changes that wait are all that counts. -/
theorem State.Orderly.of_values (hs : s.Orderly) (hshut : t.vocabulary = none)
    (hdeferred : t.scope.map RoutineScope.deferred = s.scope.map RoutineScope.deferred)
    (hvalues : ∀ name, t.globals.valueOf name = s.globals.valueOf name) : t.Orderly := by
  refine ⟨hshut, fun changes hchanges change hchange => ?_⟩
  rw [hvalues]
  exact hs.valued changes (hdeferred.symm.trans hchanges) change hchange

theorem steady_of_values (hcarried : Carried cx s t)
    (hshut : s.vocabulary = none → t.vocabulary = none)
    (hdeferred : t.scope.map RoutineScope.deferred = s.scope.map RoutineScope.deferred)
    (hvalues : ∀ name, t.globals.valueOf name = s.globals.valueOf name) : Steady cx s t := by
  refine ⟨hcarried, fun _ hs => ?_⟩
  have ht := hs.of_values (hshut hs.shut) hdeferred hvalues
  refine ⟨ht, .inr fun name value hvalue => ?_⟩
  rw [hs.heldTo] at hvalue
  rw [ht.heldTo, hdeferred, hvalues]
  exact hvalue

theorem shut_of_rest (h : t.rest = s.rest) (hs : s.vocabulary = none) : t.vocabulary = none := by
  have hshut : t.vocabulary.isNone = s.vocabulary.isNone := congrArg Rest.shut h
  rw [hs] at hshut
  exact Option.isNone_iff_eq_none.mp hshut

/-- Nothing is asked of a pass while a block is open. -/
theorem steady_of_block (hcarried : Carried cx s t) (hs : s.vocabulary ≠ none) : Steady cx s t :=
  ⟨hcarried, fun _ horderly => absurd horderly.shut hs⟩

theorem valueOf_mention (t : SymbolTable) (name other : String) :
    (t.mention name).valueOf other = t.valueOf other := by
  rw [valueOf_eq, valueOf_eq, defined_mention]

instance : Keeping Steady where
  refl _ _ := steady_of_values ⟨id, rfl, id⟩ id rfl fun _ => rfl
  trans {cx s t u} hst htu := by
    refine ⟨hst.toCarried.trans htu.toCarried, fun hm hs => ?_⟩
    obtain ⟨ht, hheld⟩ := hst.held hm hs
    obtain ⟨hu, hheld'⟩ := htu.held hm ht
    refine ⟨hu, ?_⟩
    rcases hheld with hchanged | hheld
    · exact .inl (htu.changed hchanged)
    · exact hheld'.imp_right fun h name value hvalue => h name value (hheld name value hvalue)
  carried h := h.toCarried
  of_rest {cx s t} h := by
    have hglobals : t.globals = s.globals := congrArg (·.globals) h
    exact steady_of_values (carried_of_core (congrArg Rest.toCore h)) (shut_of_rest h)
      (congrArg Rest.deferred h) fun name => by rw [hglobals]
  mention cx s name :=
    steady_of_values ⟨id, rfl, fun h => h.mention _⟩ id rfl fun other =>
      valueOf_mention s.globals name other
  moved _ _ := ⟨⟨fun _ => rfl, rfl, id⟩, fun _ hs => ⟨⟨hs.shut, hs.valued⟩, .inl rfl⟩⟩
  inBlock hs h := steady_of_block (carried_of_core h) hs

end Keeping

/-! ## What the assembling pass knows before -/

/-- The symbols with which two passes begin. -/
inductive Outlook
  /-- They are the same. -/
  | level
  /-- The assembling pass begins with those that the measuring pass ends with. -/
  | ahead (ending : String → Option (SymbolKind × Int32))

/-- Neither pass has defined the name yet. The assembling pass knows how it ends; the measuring pass
    may know its value. -/
structure Pending (ending : String → Option (SymbolKind × Int32)) (p q : Nat) (g h : SymbolTable)
    (name : String) : Prop where
  ends : (h.defined name).map (fun y => (y.kind, y.value)) = ending name
  value : ∀ value, g.valueOf name = some value → h.valueOf name = some value
  fresh : ∀ x node, g.defined name = some x → x.site ≠ some ⟨p, node⟩
  fresh' : ∀ y node, h.defined name = some y → y.site ≠ some ⟨q, node⟩

/-- The globals of both passes match, except that a name which is not among the known ones may be
    pending. -/
def Outlook.Agree (k : Outlook) (known : String → Prop) (p q : Nat) (g h : SymbolTable) : Prop :=
  ∀ name, MatchingAt p q g h name ∨ ¬ known name ∧ ∃ ending, k = .ahead ending ∧
    Pending ending p q g h name

section Agree

variable {k : Outlook} {known : String → Prop} {p q : Nat} {g h g' h' : SymbolTable}

/-- Only the definitions count. -/
theorem Outlook.Agree.congr (hagree : k.Agree known p q g h) {name : String}
    (hg : g'.defined name = g.defined name) (hh : h'.defined name = h.defined name) :
    MatchingAt p q g' h' name ∨
      ¬ known name ∧ ∃ ending, k = .ahead ending ∧ Pending ending p q g' h' name := by
  refine (hagree name).imp (fun hmatch => ?_) fun ⟨hunknown, ending, hk, hpending⟩ => ?_
  · unfold MatchingAt at hmatch ⊢
    rwa [hg, hh]
  · refine ⟨hunknown, ending, hk, hh ▸ hpending.ends, ?_, hg ▸ hpending.fresh, hh ▸ hpending.fresh'⟩
    rw [valueOf_eq, valueOf_eq, hg, hh]
    exact hpending.value

theorem Outlook.Agree.mention (hagree : k.Agree known p q g h) (name : String) :
    k.Agree known p q (g.mention name) (h.mention name) := fun other =>
  hagree.congr (defined_mention g name other) (defined_mention h name other)

/-- A name is defined by the same node in both passes. -/
theorem Outlook.Agree.enter (hagree : k.Agree known p q g h) {name : String} {kind : SymbolKind}
    {value : Int32} {site site' : Site}
    (hname : MatchingAt p q (g.define name kind value site).2 (h.define name kind value site').2
      name) :
    k.Agree known p q (g.define name kind value site).2 (h.define name kind value site').2 := by
  intro other
  by_cases hother : other = name
  · subst hother
    exact .inl hname
  · exact hagree.congr (defined_define g kind value site hother)
      (defined_define h kind value site' hother)

theorem Outlook.Agree.define (hagree : k.Agree known p q g h) {name : String}
    (hname : MatchingAt p q g h name) (kind : SymbolKind) (value : Int32) (node : Nat) :
    (h.define name kind value ⟨q, node⟩).1 = (g.define name kind value ⟨p, node⟩).1 ∧
      k.Agree known p q (g.define name kind value ⟨p, node⟩).2
        (h.define name kind value ⟨q, node⟩).2 := by
  obtain ⟨hresult, hafter⟩ := hname.define kind value node
  exact ⟨hresult, hagree.enter hafter⟩

end Agree

/-- The measuring pass cannot end with nothing moved and with the symbols that the assembling pass
    begins with. -/
def Outlook.Off (k : Outlook) (cx : Context) (s : State) : Prop :=
  s.changed = true ∨ ∃ ending, k = .ahead ending ∧ cx.mode = .measuring ∧ s.Orderly ∧
    ∃ name value, s.heldTo name = some value ∧ (ending name).map Prod.snd ≠ some value

/-- The names of an expression are known, where that counts. -/
def Outlook.Sees (k : Outlook) (known : String → Prop) (e : Expr) : Prop :=
  k = .level ∨ ∀ name ∈ e.names, known name

/-- What is kept by the steps of a measuring pass under an outlook. -/
class Following (k : Outlook) (R : Context → State → State → Prop) : Prop extends Keeping R where
  off {cx : Context} {s t : State} (h : R cx s t) (hs : k.Off cx s) : k.Off cx t
  level {cx : Context} {s t : State} (hk : k = .level) (h : t.core = s.core) : R cx s t

section Following

variable {cx : Context} {s t : State}

theorem off_level : Outlook.level.Off cx s ↔ s.changed = true := by
  refine ⟨fun h => ?_, .inl⟩
  rcases h with h | ⟨ending, hk, -⟩
  · exact h
  · cases hk

instance : Following .level Carried where
  off h hs := off_level.mpr (h.changed (off_level.mp hs))
  level _ h := carried_of_core h

instance : Following .level Kept where
  off h hs := off_level.mpr (h.changed (off_level.mp hs))
  level _ h := kept_of_core h

instance (ending : String → Option (SymbolKind × Int32)) : Following (.ahead ending) Steady where
  off {cx s t} h hs := by
    rcases hs with hs | ⟨ending', hk, hm, hs, name, value, hvalue, hne⟩
    · exact .inl (h.changed hs)
    · obtain ⟨ht, hheld⟩ := h.held hm hs
      refine hheld.imp_right fun hheld => ?_
      exact ⟨ending', hk, hm, ht, name, value, hheld name value hvalue, hne⟩
  level hk := nomatch hk

end Following

/-! ## Twin states -/

/-- What the layout hangs on, the globals apart. -/
structure Layout where
  image : Image
  locals : SymbolTable
  fixups : Array Fixup
  table : Option OpenTable
  vocabulary : Option OpenVocabulary
  packing : Packing
  encoder : ZText.Encoder
  objects : Nat
  globalVars : Nat
  scope : Option RoutineScope
  index : Nat

def State.layout (s : State) : Layout :=
  ⟨s.image, s.locals, s.fixups, s.table, s.vocabulary, s.packing, s.encoder, s.objects,
    s.globalVars, s.scope.map RoutineScope.plain, s.index⟩

/-- State `m` of a measuring pass in which nothing has moved and state `a` of an assembling pass
    have the same layout, and their globals agree. -/
structure Twin (k : Outlook) (known : String → Prop) (cm ca : Context) (m a : State) : Prop where
  layout : a.layout = m.layout
  globals : k.Agree known cm.pass ca.pass m.globals a.globals
  still : m.changed = false
  orderly : k = .level ∨ m.Orderly

/-- The contexts of two such passes over one program. -/
structure Pairing (cm ca : Context) : Prop where
  version : ca.version = cm.version
  mode : ca.mode = .assembling

section Twin

variable {k : Outlook} {known : String → Prop} {cm ca : Context} {m a : State}

theorem State.Orderly.of_rest {s t : State} (h : t.rest = s.rest) (hs : s.Orderly) : t.Orderly := by
  have hglobals : t.globals = s.globals := congrArg (·.globals) h
  exact hs.of_values (shut_of_rest h hs.shut) (congrArg Rest.deferred h) fun name => by
    rw [hglobals]

theorem Twin.orderly_of_ahead {ending : String → Option (SymbolKind × Int32)}
    (h : Twin (.ahead ending) known cm ca m a) : m.Orderly := by
  obtain hlevel | horderly := h.orderly
  · cases hlevel
  · exact horderly

theorem Twin.of_core (h : Twin k known cm ca m a) {m' a' : State} (hlayout : a'.layout = m'.layout)
    (hm : m'.core = m.core) (ha : a'.core = a.core) (horderly : k = .level ∨ m'.Orderly) :
    Twin k known cm ca m' a' := by
  have hmglobals : m'.globals = m.globals := congrArg Core.globals hm
  have haglobals : a'.globals = a.globals := congrArg Core.globals ha
  have hchanged : m'.changed = m.changed := congrArg Core.changed hm
  refine ⟨hlayout, ?_, hchanged.trans h.still, horderly⟩
  rw [hmglobals, haglobals]
  exact h.globals

theorem Twin.of_rest (h : Twin k known cm ca m a) {m' a' : State} (hlayout : a'.layout = m'.layout)
    (hm : m'.rest = m.rest) (ha : a'.rest = a.rest) : Twin k known cm ca m' a' :=
  h.of_core hlayout (congrArg Rest.toCore hm) (congrArg Rest.toCore ha)
    (h.orderly.imp_right fun horderly => horderly.of_rest hm)

theorem Twin.mention (h : Twin k known cm ca m a) (name : String) :
    Twin k known cm ca { m with globals := m.globals.mention name }
      { a with globals := a.globals.mention name } := by
  refine ⟨h.layout, h.globals.mention name, h.still, h.orderly.imp_right fun hm => ?_⟩
  exact hm.of_values hm.shut rfl fun other => valueOf_mention m.globals name other

theorem Twin.matching (h : Twin .level known cm ca m a) :
    Matching cm.pass ca.pass m.globals a.globals := by
  intro name
  rcases h.globals name with hmatch | ⟨-, ending, hk, -⟩
  · exact hmatch
  · cases hk

theorem Twin.matchingAt (h : Twin k known cm ca m a) {name : String}
    (hname : k = .level ∨ known name) : MatchingAt cm.pass ca.pass m.globals a.globals name := by
  rcases h.globals name with hmatch | ⟨hunknown, ending, hk, -⟩
  · exact hmatch
  · rcases hname with rfl | hname
    · cases hk
    · exact absurd hname hunknown

/-- What a name that is known means. -/
theorem Twin.meaning (h : Twin k known cm ca m a) {name : String}
    (hname : k = .level ∨ known name) :
    (a.scoping ca).meaning name = (m.scoping cm).meaning name := by
  have hlocals : a.locals = m.locals := congrArg Layout.locals h.layout
  unfold Scoping.meaning State.scoping
  dsimp only
  rw [hlocals]
  cases m.locals.lookup name with
  | some symbol => rfl
  | none =>
    show (a.globals.defined name).map _ = (m.globals.defined name).map _
    obtain ⟨hm, ha⟩ | ⟨x, y, hm, ha, hxy⟩ := (h.matchingAt hname).cases
    · rw [hm, ha]
    · rw [hm, ha, Option.map_some, Option.map_some, hxy.kind, hxy.value]

theorem Outlook.Sees.knows {e : Expr} (h : k.Sees known e) {name : String}
    (hname : name ∈ e.names) : k = .level ∨ known name :=
  Or.imp_right (fun h => h name hname) h

theorem Twin.globalLabelIn (h : Twin k known cm ca m a) {e : Expr} (hsees : k.Sees known e) :
    a.globalLabelIn e = m.globalLabelIn e := by
  have hlocals : a.locals = m.locals := congrArg Layout.locals h.layout
  have hlabel : ∀ (t : SymbolTable) (name : String), (t.lookup name).any (·.kind = .label) =
      (t.defined name).any (·.kind = .label) := by
    intro t name
    unfold SymbolTable.defined
    cases t.lookup name with
    | none => rfl
    | some x => cases hk : x.kind <;> simp [Symbol.isDefined, hk]
  induction e with
  | number value => rfl
  | quote name => rfl
  | symbol name =>
    unfold State.globalLabelIn
    rw [hlocals, hlabel, hlabel]
    obtain ⟨hm, ha⟩ | ⟨x, y, hm, ha, hxy⟩ := (h.matchingAt (hsees.knows List.mem_cons_self)).cases
    · rw [hm, ha]
    · rw [hm, ha, Option.any_some, Option.any_some, hxy.kind]
  | add left right ihl ihr =>
    unfold State.globalLabelIn
    rw [ihl (hsees.imp_right fun h name hname => h name (List.mem_append_left _ hname)),
      ihr (hsees.imp_right fun h name hname => h name (List.mem_append_right _ hname))]

/-- Twin states are in the same routine, or in none. -/
theorem scope_cases {m a : State} (h : a.layout = m.layout) :
    m.scope = none ∧ a.scope = none ∨
      ∃ x y, m.scope = some x ∧ a.scope = some y ∧ y.plain = x.plain := by
  have hscope : a.scope.map RoutineScope.plain = m.scope.map RoutineScope.plain :=
    congrArg Layout.scope h
  cases hm : m.scope with
  | none =>
    rw [hm, Option.map_none, Option.map_eq_none_iff] at hscope
    exact .inl ⟨rfl, hscope⟩
  | some x =>
    rw [hm, Option.map_some, Option.map_eq_some_iff] at hscope
    obtain ⟨y, hy, hxy⟩ := hscope
    exact .inr ⟨x, y, rfl, hy, hxy⟩

end Twin

/-! ## Steps in step -/

/-- How a computation may end early. -/
class Halting (ε : Type) where
  /-- The pass goes on. -/
  goesOn : ε → Prop
  /-- A value has changed in the assembling pass. -/
  moved : ε → Prop

open Halting

instance : Halting Interrupt where
  goesOn e := ∃ problem, e = .skip problem
  moved e := ∃ old new name, e = .abort (.valueChanged old new name)

instance : Halting Stop where
  goesOn _ := False
  moved e := ∃ old new name, e = .failed (.valueChanged old new name)

section InStep

variable {ε α β : Type} [Halting ε] {k : Outlook} {known : String → Prop}
  {R : Context → State → State → Prop} {cm ca : Context}

/-- The computation `mm` from state `m` of the measuring pass and `ma` from state `a` of the
    assembling pass end in the same way and in twin states, unless one of the passes has to stop or
    the measuring pass is off. -/
inductive Paired (k : Outlook) (known : String → Prop) (cm ca : Context) (mm ma : EStateM ε State α)
    (m a : State) : Prop
  | ok (x : α) {m' a' : State} (hm : mm m = .ok x m') (ha : ma a = .ok x a')
    (h : Twin k known cm ca m' a')
  | error (e : ε) {m' a' : State} (he : goesOn e) (hm : mm m = .error e m')
      (ha : ma a = .error e a')
    (h : Twin k known cm ca m' a')
  /-- The measuring pass stops. -/
  | lost (e : ε) {m' : State} (he : ¬ goesOn e) (hm : mm m = .error e m')
  /-- The assembling pass stops; the measuring pass notes it if a value has changed. -/
  | stopped (e : ε) {a' : State} (he : ¬ goesOn e) (ha : ma a = .error e a')
    (hmoved : moved e → k.Off cm (final mm m))
  /-- The passes have parted. -/
  | off (hk : k ≠ .level) (h : k.Off cm (final mm m))

/-- The computations are paired in twin states, and the first keeps what it has to in any state. -/
structure InStep (k : Outlook) (known : String → Prop) (R : Context → State → State → Prop)
    (cm ca : Context) (mm ma : EStateM ε State α) : Prop where
  kept : ∀ s, Leaves (R cm) mm s
  run : ∀ m a, Twin k known cm ca m a → Paired k known cm ca mm ma m a

/-- Only how the computations end counts. -/
theorem Paired.congr {mm mm' ma ma' : EStateM ε State α} {m m' a a' : State}
    (h : Paired k known cm ca mm ma m a) (hm : mm' m' = mm m) (ha : ma' a' = ma a) :
    Paired k known cm ca mm' ma' m' a' := by
  have hfinal : final mm' m' = final mm m := by
    unfold final
    rw [hm]
  cases h with
  | ok x hmm hma h => exact .ok x (hm.trans hmm) (ha.trans hma) h
  | error e he hmm hma h => exact .error e he (hm.trans hmm) (ha.trans hma) h
  | lost e he hmm => exact .lost e he (hm.trans hmm)
  | stopped e he hma hmoved => exact .stopped e he (ha.trans hma) fun hv => hfinal ▸ hmoved hv
  | off hk h => exact .off hk (hfinal ▸ h)

/-- What hangs on the layout alone may be read. -/
theorem inStep_get {fm fa : State → EStateM ε State α}
    (h : ∀ m a : State, a.layout = m.layout → InStep k known R cm ca (fm m) (fa a)) :
    InStep k known R cm ca (get >>= fm) (get >>= fa) :=
  ⟨fun s => leaves_get ((h s s rfl).kept s),
    fun m a htwin => ((h m a htwin.layout).run m a htwin).congr rfl rfl⟩

/-- What twin states have in common may be read. -/
theorem inStep_read {vm va : State → β} (hview : ∀ m a, Twin k known cm ca m a → va a = vm m)
    {fm fa : β → EStateM ε State α} (h : ∀ b, InStep k known R cm ca (fm b) (fa b)) :
    InStep k known R cm ca (get >>= fun s => fm (vm s)) (get >>= fun s => fa (va s)) := by
  refine ⟨fun s => leaves_get ((h (vm s)).kept s), fun m a htwin => ?_⟩
  refine ((h (vm m)).run m a htwin).congr rfl ?_
  rw [← hview m a htwin]
  rfl

variable [Following k R]

omit [Halting ε] in
/-- Once the measuring pass is off, it stays so. -/
theorem off_bind {mm : EStateM ε State α} {fm : α → EStateM ε State β} {m : State}
    (hf : ∀ x m', mm m = .ok x m' → Leaves (R cm) (fm x) m') (h : k.Off cm (final mm m)) :
    k.Off cm (final (mm >>= fm) m) := by
  cases hm : mm m with
  | ok x m' =>
    rw [final_of_ok hm] at h
    rw [final_bind hm]
    exact Following.off (hf x m' hm) h
  | error e m' =>
    rw [final_of_error hm] at h
    rwa [final_of_error (bind_of_error hm)]

theorem Paired.bind {mm ma : EStateM ε State α} {fm fa : α → EStateM ε State β} {m a : State}
    (h : Paired k known cm ca mm ma m a) (hkept : ∀ x m', mm m = .ok x m' → Leaves (R cm) (fm x) m')
    (hf : ∀ x m' a', mm m = .ok x m' → Twin k known cm ca m' a' →
      Paired k known cm ca (fm x) (fa x) m' a') :
    Paired k known cm ca (mm >>= fm) (ma >>= fa) m a := by
  cases h with
  | @ok x m' a' hm ha h =>
    exact (hf x m' a' hm h).congr (bind_of_ok hm) (bind_of_ok ha)
  | error e he hm ha h => exact .error e he (bind_of_error hm) (bind_of_error ha) h
  | lost e he hm => exact .lost e he (bind_of_error hm)
  | stopped e he ha hmoved =>
    exact .stopped e he (bind_of_error ha) fun hv => off_bind hkept (hmoved hv)
  | off hk h => exact .off hk (off_bind hkept h)

/-- Only the values that the first computation may give count. -/
theorem InStep.bind_of {mm ma : EStateM ε State α} {fm fa : α → EStateM ε State β}
    (h : InStep k known R cm ca mm ma) (gives : α → Prop)
    (hgives : ∀ s x t, mm s = .ok x t → gives x)
    (hf : ∀ x, gives x → InStep k known R cm ca (fm x) (fa x)) :
    InStep k known R cm ca (mm >>= fm) (ma >>= fa) :=
  ⟨fun s => (h.kept s).bind fun x t hx => (hf x (hgives s x t hx)).kept t,
    fun m a htwin => (h.run m a htwin).bind (fun x m' hx => (hf x (hgives m x m' hx)).kept m')
      fun x m' a' hx => (hf x (hgives m x m' hx)).run m' a'⟩

theorem InStep.bind {mm ma : EStateM ε State α} {fm fa : α → EStateM ε State β}
    (h : InStep k known R cm ca mm ma) (hf : ∀ x, InStep k known R cm ca (fm x) (fa x)) :
    InStep k known R cm ca (mm >>= fm) (ma >>= fa) :=
  h.bind_of (fun _ => True) (fun _ _ _ _ => trivial) fun x _ => hf x

theorem inStep_pure (x : α) : InStep k known R cm ca (pure x : EStateM ε State α) (pure x) :=
  ⟨leaves_pure x, fun _ _ h => .ok x rfl rfl h⟩

/-- Both states are changed in the same way, and nothing is done to the rest. -/
theorem inStep_modify (g : Layout → Layout) {fm fa : State → State}
    (hm : ∀ s, (fm s).layout = g s.layout) (ha : ∀ s, (fa s).layout = g s.layout)
    (hmrest : ∀ s, (fm s).rest = s.rest) (harest : ∀ s, (fa s).rest = s.rest) :
    InStep k known R cm ca (modify fm : EStateM ε State PUnit) (modify fa) := by
  refine ⟨fun s => leaves_modify (Keeping.of_rest (hmrest s)), fun m a h => .ok () rfl rfl ?_⟩
  refine h.of_rest ?_ (hmrest m) (harest a)
  rw [hm, ha, h.layout]

/-- Passes that begin with the same symbols may do more to the layout. -/
theorem inStep_modifyLevel [Following .level R] (g : Layout → Layout) {fm fa : State → State}
    (hm : ∀ s, (fm s).layout = g s.layout) (ha : ∀ s, (fa s).layout = g s.layout)
    (hmcore : ∀ s, (fm s).core = s.core) (hacore : ∀ s, (fa s).core = s.core) :
    InStep .level known R cm ca (modify fm : EStateM ε State PUnit) (modify fa) := by
  refine ⟨fun s => leaves_modify (Following.level (k := .level) rfl (hmcore s)),
    fun m a h => .ok () rfl rfl ?_⟩
  refine h.of_core ?_ (hmcore m) (hacore a) (.inl rfl)
  rw [hm, ha, h.layout]

theorem inStep_forM {xs : List α} {fm fa : α → EStateM ε State Unit}
    (h : ∀ x ∈ xs, InStep k known R cm ca (fm x) (fa x)) :
    InStep k known R cm ca (xs.forM fm) (xs.forM fa) := by
  induction xs with
  | nil => exact inStep_pure ()
  | cons x xs ih =>
    exact (h x List.mem_cons_self).bind fun _ => ih fun y hy => h y (List.mem_cons_of_mem _ hy)

theorem inStep_mapM {xs : List α} {fm fa : α → EStateM ε State β}
    (h : ∀ x ∈ xs, InStep k known R cm ca (fm x) (fa x)) :
    InStep k known R cm ca (xs.mapM fm) (xs.mapM fa) := by
  induction xs with
  | nil => exact inStep_pure []
  | cons x xs ih =>
    rw [List.mapM_cons, List.mapM_cons]
    refine (h x List.mem_cons_self).bind fun _ => ?_
    exact (ih fun y hy => h y (List.mem_cons_of_mem _ hy)).bind fun _ => inStep_pure _

end InStep

end Assembly

end ZAssembler
