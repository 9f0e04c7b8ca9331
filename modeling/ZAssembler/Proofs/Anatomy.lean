import ZAssembler.Proofs.Effect

/-
  What the work of a node is made of. A node reads the state, changes it in a few ways and may stop.
  `Work` lists these ways, for two contexts of one version and mode at once: what a node reads hangs
  neither on the log, the counts and the diagnostics, nor on the pass in which a global was defined.
  `node_work` says that a node does nothing else. What all nodes do, in one run or in two, is then
  an induction with a case for each way: so the work of a node is made of acts (`node_acts`) and, in
  the assembling pass, of changes (`node_does`).
-/

namespace ZAssembler

/-- The node may ask for another version than `v`. -/
def Node.asksOther (n : Node) (v : Version) : Bool :=
  match n.kind with
  | .directive (.new (.number value)) => value.toInt.toNat != v.number
  | .directive (.new _) => true
  | _ => false

/-- The problem is that there are too many errors. -/
def Problem.isTooManyErrors : Problem → Bool
  | .tooManyErrors _ => true
  | _ => false

/-- The event as it is told when so many passes came before, so many of them measuring passes. -/
def Event.later (event : Event) (passes measuring : Nat) : Event :=
  match event with
  | .restarting version pass => .restarting version (passes + pass)
  | .assembled version bytes count => .assembled version bytes (measuring + count)
  | .routineSettled routine walks pass => .routineSettled routine walks (passes + pass)
  | .globalMoved name old new pass => .globalMoved name old new (passes + pass)
  | event => event

/-! ## What a node may read -/

/-- The table without the places where its symbols were defined. -/
def SymbolTable.undated (t : SymbolTable) : SymbolTable :=
  { symbols := t.symbols.map fun x => { x with site := none } }

namespace SymbolTable

theorem lookup_undated (t : SymbolTable) (name : String) :
    t.undated.lookup name = (t.lookup name).map fun x => { x with site := none } := by
  unfold undated lookup
  rw [List.find?_map]
  rfl

theorem valueOf_undated (t : SymbolTable) (name : String) :
    t.undated.valueOf name = t.valueOf name := by
  unfold valueOf
  rw [lookup_undated]
  cases t.lookup name with
  | none => rfl
  | some x =>
    rw [Option.map_some, Option.filter_some, Option.filter_some]
    show Option.map _ (if x.isDefined = true then _ else _) = _
    split <;> rfl

end SymbolTable

/-- A node that does nothing. -/
def Node.idle : Node := { kind := .directive .stop }

namespace Assembly

/-- The contexts of passes of one mode for one version. -/
structure Context.Kin (cx cx' : Context) : Prop where
  version : cx'.version = cx.version
  mode : cx'.mode = cx.mode

theorem Context.Kin.refl (cx : Context) : cx.Kin cx := ⟨rfl, rfl⟩

/-- What a node may read of a state. -/
structure View where
  image : Image
  globals : SymbolTable
  locals : SymbolTable
  fixups : Array Fixup
  table : Option OpenTable
  vocabulary : Option OpenVocabulary
  packing : Packing
  encoder : ZText.Encoder
  objects : Nat
  globalVars : Nat
  scope : Option RoutineScope

def State.view (s : State) : View :=
  ⟨s.image, s.globals.undated, s.locals, s.fixups, s.table, s.vocabulary, s.packing, s.encoder,
    s.objects, s.globalVars, s.scope⟩

section View

variable {cx cx' : Context} {s s' : State} (h : s'.view = s.view)

include h

theorem valueOf_view (name : String) : s'.globals.valueOf name = s.globals.valueOf name := by
  have hglobals : s'.globals.undated = s.globals.undated := congrArg View.globals h
  rw [← SymbolTable.valueOf_undated, hglobals, SymbolTable.valueOf_undated]

theorem lookup_view (name : String) :
    (s'.globals.lookup name).map (fun x => { x with site := none }) =
      (s.globals.lookup name).map fun x => { x with site := none } := by
  have hglobals : s'.globals.undated = s.globals.undated := congrArg View.globals h
  rw [← SymbolTable.lookup_undated, hglobals, SymbolTable.lookup_undated]

theorem meaning_view (name : String) :
    (s'.scoping cx').meaning name = (s.scoping cx).meaning name := by
  have hlocals : s'.locals = s.locals := congrArg View.locals h
  have hglobals := lookup_view h name
  unfold Scoping.meaning State.scoping
  dsimp only
  rw [hlocals]
  cases s.locals.lookup name with
  | some x => rfl
  | none =>
    rw [Option.none_or, Option.none_or]
    cases hx : s.globals.lookup name with
    | none =>
      rw [hx, Option.map_none, Option.map_eq_none_iff] at hglobals
      rw [hglobals]
    | some x =>
      rw [hx, Option.map_some, Option.map_eq_some_iff] at hglobals
      obtain ⟨y, hy, hxy⟩ := hglobals
      obtain ⟨-, hkind, hvalue, -⟩ := Symbol.mk.inj hxy
      rw [hy, Option.filter_some, Option.filter_some]
      unfold Symbol.isDefined
      rw [hkind]
      split
      · rw [Option.map_some, Option.map_some, hkind, hvalue]
      · rfl

theorem globalLabelIn_view (e : Expr) : s'.globalLabelIn e = s.globalLabelIn e := by
  have hlocals : s'.locals = s.locals := congrArg View.locals h
  induction e with
  | number value => rfl
  | quote name => rfl
  | symbol name =>
    have hlabel := congrArg (Option.any fun x : Symbol => decide (x.kind = .label))
      (lookup_view h name)
    rw [Option.any_map, Option.any_map] at hlabel
    unfold State.globalLabelIn
    rw [hlocals]
    exact congrArg (fun label => if (s.locals.lookup name).isSome then none
      else if label then some name else none) hlabel
  | add left right ihl ihr =>
    unfold State.globalLabelIn
    rw [ihl, ihr]

variable (cx cx') in
theorem needsLong_view (e : Expr) : e.needsLong (s'.scoping cx') = e.needsLong (s.scoping cx) :=
  Expr.needsLong_of_meaning e fun name _ => meaning_view h name

variable (hk : cx.Kin cx')

include hk

omit h in
theorem scoping_final : (s'.scoping cx').final = (s.scoping cx).final := by
  unfold State.scoping
  rw [hk.mode]

theorem eval_view (e : Expr) : e.eval (s'.scoping cx') = e.eval (s.scoping cx) :=
  Expr.eval_of_meaning (scoping_final hk) e fun name _ => meaning_view h name

end View

/-! ## What a node may do -/

/-- The update leaves alone what a node reports and where globals were defined, and hangs on
    neither. -/
def Apart (f : State → State) : Prop :=
  ∀ (s : State) (globals : SymbolTable) (diagnostics : Array Diagnostic) (log : Array Event)
    (counts : Counts) (handed : Array DebugRecord),
    f { s with globals, diagnostics, log, counts, handed } =
      { f s with globals, diagnostics, log, counts, handed }

/-- What a run keeps from pass to pass, its counts and the records that it hands on, is the same. -/
structure Untouched (s t : State) : Prop where
  counts : t.counts = s.counts
  handed : t.handed = s.handed

instance : Std.Refl Untouched where
  refl _ := ⟨rfl, rfl⟩

instance : IsTrans State Untouched where
  trans _ _ _ hst htu := ⟨htu.counts.trans hst.counts, htu.handed.trans hst.handed⟩

theorem Apart.untouched {f : State → State} (h : Apart f) (s : State) : Untouched s (f s) := by
  have hsame := h s s.globals s.diagnostics s.log s.counts s.handed
  have hcounts := congrArg State.counts hsame
  have hhanded := congrArg State.handed hsame
  exact ⟨hcounts, hhanded⟩

/-- How much a piece of work does. -/
inductive Extent
  /-- It looks names up, and may mention them. -/
  | looking
  /-- It makes changes. -/
  | changing
  /-- It is part of one change. -/
  | within
  deriving DecidableEq

/-- The work of node `n`, which is reached at `a`, from state `s` on in context `cx`, and beside it
    the same work in context `cx'`. -/
inductive Work (n : Node) (a : Nat) (cx cx' : Context) :
    {α : Type} → Extent → State → Step α → Step α → Prop
  | pure {α : Type} {g : Extent} {s : State} (x : α) : Work n a cx cx' g s (pure x) (pure x)
  | skip {α : Type} {g : Extent} {s : State} (problem : Problem) :
    Work n a cx cx' g s (skip problem : Step α) (skip problem)
  | abort {α : Type} {g : Extent} {s : State} (problem : Problem)
    (h : problem.isTooManyErrors = false) :
    Work n a cx cx' g s (abort problem : Step α) (abort problem)
  | restart {s : State} (version : Version) (h : n.asksOther cx.version = true) :
    Work n a cx cx' .changing s (throw (.restart version) : Step Unit) (throw (.restart version))
  | bind {α β : Type} {g : Extent} {s : State} {m m' : Step α} {f f' : α → Step β}
    (hm : Work n a cx cx' g s m m')
    (hf : ∀ x t, m s = .ok x t → Work n a cx cx' g t (f x) (f' x)) :
    Work n a cx cx' g s (m >>= f) (m' >>= f')
  | read {α : Type} {g : Extent} {s : State} {f f' : State → Step α}
    (h : ∀ s', s'.view = s.view → Work n a cx cx' g s (f s) (f' s')) :
    Work n a cx cx' g s (get >>= f) (get >>= f')
  /-- A name without value is remembered. -/
  | mention {g : Extent} {s : State} (name : String) (h : cx.mode = .measuring) :
    Work n a cx cx' g s (modify fun s => { s with globals := s.globals.mention name })
      (modify fun s => { s with globals := s.globals.mention name })
  | update {s : State} {f : State → State} (hapart : Apart f) (hact : Act n a s (f s))
    (hchange : cx.mode = .assembling → Change cx n s (f s)) :
    Work n a cx cx' .changing s (modify f) (modify f)
  | part {s : State} {f : State → State} (hapart : Apart f) (hact : Act n a s (f s)) :
    Work n a cx cx' .within s (modify f) (modify f)
  | enter {s : State} (name : String) (kind : SymbolKind) (value : Int32) :
    Work n a cx cx' .within s (enterGlobal cx name kind value) (enterGlobal cx' name kind value)
  | relocate {s : State} (name : String) (value : Int32) :
    Work n a cx cx' .within s (modify fun s => { s with globals := s.globals.relocate name value })
      (modify fun s => { s with globals := s.globals.relocate name value })
  | log {s : State} (event : Nat → Event)
    (hlater : ∀ passes measuring pass, (event pass).later passes measuring = event (passes + pass))
    (hwalks : (event cx.pass).walksAgain = false) :
    Work n a cx cx' .within s (logEvent (event cx.pass)) (logEvent (event cx'.pass))
  | warn {g : Extent} {s : State} (hg : g ≠ .looking) (problem : Problem) :
    Work n a cx cx' g s (warn cx problem) (warn cx' problem)
  | reportError {s : State} (problem : Problem) :
    Work n a cx cx' .changing s (reportError cx problem) (reportError cx' problem)
  /-- Parts that make changes together. -/
  | group {α : Type} {s : State} {m m' : Step α} (h : Work n a cx cx' .within s m m')
    (hdoes : cx.mode = .assembling → Does (Changes cx n) m s) : Work n a cx cx' .changing s m m'

namespace Work

variable {α : Type} {n : Node} {a : Nat} {cx : Context} {s : State} {m m' : Step α}

/-- Work that only looks does no more than mention names, and that only in a measuring pass. -/
theorem looks {R : State → State → Prop} [Std.Refl R] [IsTrans State R]
    (h : Work .idle 0 cx cx .looking s m m')
    (hmention : cx.mode = .measuring →
      ∀ s name, R s { s with globals := s.globals.mention name }) : Leaves R m s := by
  generalize hg : Extent.looking = g at h
  induction h with
  | pure x => exact leaves_pure x _
  | skip problem => exact leaves_skip problem _
  | abort problem _ => exact leaves_abort problem _
  | bind _ _ ihm ihf => exact (ihm hg).bind fun x t hx => ihf x t hx hg
  | read _ ih => exact leaves_get (ih _ rfl hg)
  | mention name hm => exact leaves_modify (hmention hm _ name)
  | warn hne problem => exact absurd hg.symm hne
  | restart | update | part | enter | relocate | log | reportError | group => cases hg

theorem quiet (h : Work .idle 0 cx cx .looking s m m') : Leaves Quiet m s :=
  h.looks fun _ _ _ => ⟨rfl, rfl, rfl, rfl, rfl, rfl, rfl⟩

/-- In the assembling pass a name without value is not mentioned, but stops the run. -/
theorem unchanged (h : Work .idle 0 cx cx .looking s m m') (hmode : cx.mode = .assembling) :
    Leaves Eq m s :=
  h.looks fun hm => by cases hm.symm.trans hmode

/-- Work is made of acts. -/
theorem acts {g : Extent} (h : Work n a cx cx g s m m') : Leaves (Acts n a) m s := by
  induction h with
  | pure x => exact leaves_pure x _
  | skip problem => exact leaves_skip problem _
  | abort problem _ => exact leaves_abort problem _
  | restart version _ => exact .refl
  | bind _ _ ihm ihf => exact ihm.bind ihf
  | read _ ih => exact leaves_get (ih _ rfl)
  | mention name _ => exact leaves_act (.effect (.quiet ⟨rfl, rfl, rfl, rfl, rfl, rfl, rfl⟩))
  | update _ hact _ => exact leaves_act hact
  | part _ hact => exact leaves_act hact
  | enter name kind value =>
    exact leaves_of_ok (enterGlobal_eq cx name kind value _)
      (.single (.effect (.quiet ⟨rfl, rfl, rfl, rfl, rfl, rfl, rfl⟩)))
  | relocate name value =>
    exact leaves_act (.effect (.quiet ⟨rfl, rfl, rfl, rfl, rfl, rfl, rfl⟩))
  | log event _ hwalks => exact (quiet_logEvent hwalks _).effects.acts
  | warn _ problem => exact (effects_warn cx problem _).acts
  | reportError problem => exact (effects_reportError cx problem _).acts
  | group _ _ ih => exact ih

/-- In the assembling pass it is made of changes. -/
theorem does (h : Work n a cx cx .changing s m m') (hmode : cx.mode = .assembling) :
    Does (Changes cx n) m s := by
  generalize hg : Extent.changing = g at h
  induction h with
  | pure x => exact does_pure x _
  | skip problem => exact does_skip problem _
  | abort problem _ => exact does_abort problem _
  | restart version _ => trivial
  | bind _ _ ihm ihf => exact (ihm hg).bind fun x t hx => ihf x t hx hg
  | read _ ih => exact does_get (ih _ rfl hg)
  | mention name h => cases h.symm.trans hmode
  | update _ _ hchange => exact does_of_ok rfl (.single (hchange hmode))
  | warn _ problem => exact does_warn problem _
  | reportError problem => exact does_reportError problem _
  | group _ hdoes _ => exact hdoes hmode
  | part | enter | relocate | log => cases hg

/-- What a run keeps is not the nodes' to touch. -/
theorem untouched {cx' : Context} {g : Extent} (h : Work n a cx cx' g s m m') :
    Leaves Untouched m s := by
  induction h with
  | pure x => exact leaves_pure x _
  | skip problem => exact leaves_skip problem _
  | abort problem _ => exact leaves_abort problem _
  | restart version _ => exact refl_of Untouched _
  | bind _ _ ihm ihf => exact ihm.bind ihf
  | read _ ih => exact leaves_get (ih _ rfl)
  | update hapart _ _ => exact leaves_modify (hapart.untouched _)
  | part hapart _ => exact leaves_modify (hapart.untouched _)
  | mention name _ => exact leaves_modify ⟨rfl, rfl⟩
  | enter name kind value => exact leaves_of_ok (enterGlobal_eq cx name kind value _) ⟨rfl, rfl⟩
  | relocate name value => exact leaves_modify ⟨rfl, rfl⟩
  | log event _ _ => exact leaves_modify ⟨rfl, rfl⟩
  | group _ _ ih => exact ih
  | warn _ problem =>
    unfold Assembly.warn
    split
    · exact leaves_get (Leaves.bind (leaves_modify ⟨rfl, rfl⟩) fun _ _ _ =>
        leaves_modify ⟨rfl, rfl⟩)
    · exact leaves_modify ⟨rfl, rfl⟩
  | reportError problem =>
    refine Leaves.bind (leaves_modify ⟨rfl, rfl⟩) fun _ t _ => leaves_get ?_
    cases t.tooManyErrors? cx with
    | none => exact leaves_pure _ t
    | some tooMany => exact leaves_abort tooMany t

end Work

section Steps

variable {n : Node} {a : Nat} {g : Extent} {cx cx' : Context}

theorem work_forM {α : Type} {f f' : α → Step Unit} (xs : List α)
    (h : ∀ x ∈ xs, ∀ s, Work n a cx cx' g s (f x) (f' x)) (s : State) :
    Work n a cx cx' g s (xs.forM f) (xs.forM f') := by
  induction xs generalizing s with
  | nil => exact .pure ()
  | cons x xs ih =>
    refine (h x List.mem_cons_self s).bind fun _ t _ => ?_
    exact ih (fun y hy => h y (List.mem_cons_of_mem _ hy)) t

theorem work_mapM {α β : Type} {f f' : α → Step β} (xs : List α)
    (h : ∀ x s, Work n a cx cx' g s (f x) (f' x)) (s : State) :
    Work n a cx cx' g s (xs.mapM f) (xs.mapM f') := by
  induction xs generalizing s with
  | nil => exact .pure []
  | cons x xs ih =>
    rw [List.mapM_cons, List.mapM_cons]
    exact (h x s).bind fun _ t _ => (ih t).bind fun _ _ _ => .pure _

/-- An update of what no change and no effect is about. -/
theorem work_aside {f : State → State} {s : State} (hapart : Apart f) (hquiet : Quiet s (f s))
    (haside : Aside s (f s)) : Work n a cx cx' .changing s (modify f) (modify f) :=
  .update hapart (.effect (.quiet hquiet)) fun _ => .aside haside

theorem work_position (s : State) : Work n a cx cx' g s position position := by
  refine .read fun s' h => ?_
  rw [show s'.image = s.image from congrArg View.image h]
  exact .pure _

theorem work_store (bytes : List UInt8) (s : State) :
    Work n a cx cx' .changing s (store bytes) (store bytes) :=
  .update (fun _ _ _ _ _ _ => rfl) (.effect (.store s bytes)) fun _ => .store s bytes

theorem work_collectText {text : String} (h : text ∈ n.texts) (s : State) :
    Work n a cx cx' .changing s (collectText text) (collectText text) :=
  .update (fun _ _ _ _ _ _ => rfl) (.text s text h) fun _ =>
    .aside ⟨rfl, rfl, rfl, rfl, rfl, rfl, rfl, rfl⟩

/-- In the assembling pass only a value in a block becomes a fixup. -/
theorem work_addFixup {f : Fixup} {s : State}
    (hplace : ∀ addr width, f.target = .image addr width → addr = s.image.cursor ∨ a ≤ addr)
    (hblock : cx.mode = .assembling →
      s.vocabulary.isSome ∧ ∃ width, f.target = .image s.image.cursor width) :
    Work n a cx cx' .changing s (addFixup f) (addFixup f) := by
  refine .update (fun _ _ _ _ _ _ => rfl) (.effect (.fixup s f hplace)) fun hm => ?_
  obtain ⟨hopen, width, htarget⟩ := hblock hm
  exact .fixup s f width hopen htarget

/-- A fixup of the measuring pass. -/
theorem work_waits {f : Fixup} {s : State} (hm : cx.mode = .measuring)
    (hplace : ∀ addr width, f.target = .image addr width → addr = s.image.cursor ∨ a ≤ addr) :
    Work n a cx cx' .changing s (addFixup f) (addFixup f) :=
  work_addFixup hplace fun hm' => by cases hm.symm.trans hm'

/-- The layout hangs on a value, but there is nothing to patch. -/
theorem work_dependency {symbol : String} {e : Expr} {s : State} (hm : cx.mode = .measuring) :
    Work n a cx cx' .changing s (addFixup { symbol, expr := e, target := .dependency })
      (addFixup { symbol, expr := e, target := .dependency }) :=
  work_waits hm fun _ _ h => nomatch h

variable (hk : cx.Kin cx')

include hk

/-! ## Values -/

theorem work_evaluate (e : Expr) (s : State) :
    Work n a cx cx' g s (evaluate cx e) (evaluate cx' e) := by
  refine .read fun s' h => ?_
  rw [eval_view h hk]
  cases he : e.eval (s.scoping cx) with
  | error error =>
    cases error with
    | undefined name => exact .abort _ rfl
    | notAddable kind => exact .skip _
    | notVariable name => exact .skip _
  | ok r =>
    cases r with
    | known kind value => exact .pure _
    | unknown name => exact (Work.mention name (measuring_of_eval he)).bind fun _ _ _ => .pure _

theorem work_layoutValue (e : Expr) (s : State) :
    Work n a cx cx' .changing s (layoutValue cx e) (layoutValue cx' e) := by
  refine (work_evaluate hk e s).bind fun r t h => ?_
  cases r with
  | known kind value => exact .pure _
  | unknown name =>
    exact (work_dependency (measuring_of_evaluate h)).bind fun _ _ _ => .pure _

theorem work_constant (what : String) (e : Expr) (s : State) :
    Work n a cx cx' g s (constant cx what e) (constant cx' what e) := by
  refine (work_evaluate hk e s).bind fun r t _ => ?_
  cases r with
  | known kind value => exact .pure _
  | unknown name => exact .skip _

theorem work_writeValue (width : Width) (e : Expr) (s : State) :
    Work n a cx cx' .changing s (writeValue cx width e) (writeValue cx' width e) := by
  refine (work_position s).bind fun addr t haddr => ?_
  cases haddr
  refine (work_evaluate hk e s).bind fun r t h => ?_
  -- the value is written where the evaluation began
  have hcursor : s.image.cursor = t.image.cursor := by
    rw [((work_evaluate (.refl cx) e s).quiet.of_ok h).image]
  have hplace (symbol : String) (addr : Nat) (w : Width) :
      (⟨symbol, e, .image s.image.cursor width, none⟩ : Fixup).target = .image addr w →
        addr = t.image.cursor ∨ a ≤ addr := by
    intro h
    cases h
    exact .inl hcursor
  cases r with
  | unknown symbol =>
    exact (work_waits (measuring_of_evaluate h) (hplace symbol)).bind fun _ u _ => work_store _ u
  | known kind value =>
    refine .read fun t' hview => ?_
    rw [globalLabelIn_view hview, show t'.vocabulary = t.vocabulary from
      congrArg View.vocabulary hview]
    dsimp only
    split
    · next hblock =>
      cases t.globalLabelIn e with
      | none => exact work_store _ t
      | some symbol =>
        refine (work_addFixup (hplace symbol) fun _ => ⟨hblock, width, ?_⟩).bind fun _ u _ =>
          work_store _ u
        rw [hcursor]
    · exact work_store _ t

theorem work_values (width : Width) (es : List Expr) (s : State) :
    Work n a cx cx' .changing s (values cx width es) (values cx' width es) :=
  work_forM es (fun e _ t => work_writeValue hk width e t) s

theorem work_writeDefault (e : Option Expr) (s : State) :
    Work n a cx cx' .changing s (writeDefault cx e) (writeDefault cx' e) := by
  cases e with
  | none => exact work_store _ s
  | some e => exact work_writeValue hk .word e s

/-! ## Symbols -/

theorem work_judgeChange (name : String) (old : Int32) (s : State) :
    Work n a cx cx' .within s (judgeChange cx name old) (judgeChange cx' name old) := by
  refine .read fun s' h => ?_
  rw [valueOf_view h, hk.mode]
  cases s.globals.valueOf name with
  | none => exact .pure _
  | some new =>
    dsimp only
    split
    · exact .pure _
    · cases cx.mode with
      | measuring =>
        refine (Work.log (.globalMoved name old new) (fun _ _ _ => rfl) rfl).bind fun _ t _ => ?_
        exact .part (fun _ _ _ _ _ _ => rfl)
          (.effect (.quiet ⟨rfl, rfl, rfl, rfl, rfl, rfl, rfl⟩))
      | assembling => exact .abort _ rfl

theorem work_judgeAll (changes : List (String × Int32)) (s : State) :
    Work .idle 0 cx cx' .within s (judgeAll cx changes) (judgeAll cx' changes) :=
  work_forM changes (fun change _ t => work_judgeChange hk change.1 change.2 t) s

theorem work_noteChange (name : String) (old : Int32) (s : State) :
    Work n a cx cx' .within s (noteChange cx name old) (noteChange cx' name old) := by
  rw [noteChange_modify, noteChange_modify]
  refine .read fun s' h => ?_
  rw [show s'.vocabulary = s.vocabulary from congrArg View.vocabulary h,
    show s'.scope = s.scope from congrArg View.scope h]
  cases hv : s.vocabulary with
  | some v =>
    refine .part (fun _ _ _ _ _ _ => rfl) (.effect (.block s v _ hv ?_ ?_))
    · unfold OpenVocabulary.defer
      split <;> rfl
    · unfold OpenVocabulary.defer
      split <;> rfl
  | none =>
    cases hs : s.scope with
    | none => exact work_judgeChange hk name old s
    | some scope =>
      exact .part (fun _ _ _ _ _ _ => rfl)
        (.effect (.scope s scope _ hs (continues_defer scope name old)))

theorem work_defineGlobal (name : String) {kind : SymbolKind} (value : Int32) {s : State}
    (hkind : cx.mode = .assembling → kind ≠ .unknown)
    (hlabel : ∀ label, n.kind = .globalLabel label → s.vocabulary = none) :
    Work n a cx cx' .changing s (defineGlobal cx name kind value)
      (defineGlobal cx' name kind value) := by
  refine .group ?_ fun hm => does_defineGlobal hm name kind value (hkind hm) s hlabel
  refine (Work.enter name kind value).bind fun result t _ => ?_
  cases result with
  | defined => exact .pure _
  | unchanged => exact .pure _
  | changed old => exact work_noteChange hk name old t
  | duplicate kind => exact .skip _

theorem work_globalLabel {name : String} (hnode : n.kind = .globalLabel name) (s : State) :
    Work n a cx cx' .changing s (globalLabel cx name) (globalLabel cx' name) := by
  cases hv : s.vocabulary with
  | none =>
    refine .read fun s' h => ?_
    rw [show s'.vocabulary = s.vocabulary from congrArg View.vocabulary h, hv,
      show s'.image = s.image from congrArg View.image h]
    exact work_defineGlobal hk name _ (fun _ => by decide) fun _ _ => hv
  | some v =>
    refine .group (.read fun s' h => ?_) fun _ => does_blockLabel cx hnode hv
    rw [valueOf_view h, show s'.vocabulary = s.vocabulary from congrArg View.vocabulary h, hv,
      show s'.image = s.image from congrArg View.image h]
    refine (Work.enter name .label _).bind fun result t ht => ?_
    have hlabel : Act n a t { t with vocabulary := t.vocabulary.map fun v =>
        { v with labels := v.labels ++ [⟨name, s.image.cursor, s.globals.valueOf name⟩] } } := by
      have ht : t.vocabulary = some v := by
        cases ht
        exact hv
      rw [ht]
      exact .effect (.block t v _ ht rfl rfl)
    cases result with
    | duplicate kind => exact .skip _
    | defined | unchanged | changed => exact .part (fun _ _ _ _ _ _ => rfl) hlabel

omit hk in
theorem work_localLabel {name : String} (hnode : n.kind = .localLabel name) (s : State) :
    Work n a cx cx' .changing s (localLabel name) (localLabel name) := by
  refine .group ?_ fun _ => does_localLabel name hnode s
  rw [localLabel_modify]
  refine .read fun s' h => ?_
  rw [show s'.scope = s.scope from congrArg View.scope h,
    show s'.image = s.image from congrArg View.image h,
    show s'.locals = s.locals from congrArg View.locals h]
  cases hs : s.scope with
  | none => exact .skip _
  | some scope =>
    refine Work.bind (.part (fun _ _ _ _ _ _ => rfl)
      (.effect (.quiet ⟨rfl, rfl, rfl, rfl, rfl, rfl, rfl⟩))) fun _ t ht => ?_
    cases ht
    cases (s.locals.confirm name (Int32.ofNat s.image.cursor)).1 with
    | confirmed => exact .pure _
    | duplicate => exact .skip _
    | notDeclared => exact .skip _
    | moved guess actual =>
      refine (Work.log (fun _ => .labelMoved name scope.routine guess actual) (fun _ _ _ => rfl)
        rfl).bind fun _ t ht => ?_
      cases ht
      refine .part (fun _ _ _ _ _ _ => rfl) ?_
      rw [show State.scope _ = some scope from hs]
      exact .effect (.scope _ scope _ hs ⟨rfl, rfl, rfl, fun _ => rfl⟩)

theorem work_equate (hlabel : ∀ label, n.kind ≠ .globalLabel label) (name : String) (e : Expr)
    (s : State) : Work n a cx cx' .changing s (equate cx name e) (equate cx' name e) := by
  refine (work_evaluate hk e s).bind fun r t h => ?_
  cases r with
  | known kind value =>
    refine work_defineGlobal hk name value (fun hm => ?_) fun label h => absurd h (hlabel label)
    obtain ⟨-, _, _, hr, hkind, -⟩ := evaluate_ok hm h
    cases hr
    split
    · exact hkind
    · decide
  | unknown symbol =>
    have hm := measuring_of_evaluate h
    exact (work_dependency hm).bind fun _ _ _ => .mention name hm

/-! ## Tables and blocks -/

theorem work_openTable (size : Option Expr) (s : State) :
    Work n a cx cx' .changing s (openTable cx size) (openTable cx' size) := by
  have hopen (declared : Option Nat) (t : State) : Work n a cx cx' .changing t
      (modify fun s => { s with table := some { start := s.image.cursor, size := declared } })
      (modify fun s => { s with table := some { start := s.image.cursor, size := declared } }) := by
    refine .update (fun _ _ _ _ _ _ => rfl) (.effect (.table t _ fun table h => ?_)) fun _ => ?_
    · cases h
      rfl
    · exact .aside ⟨rfl, rfl, rfl, rfl, rfl, rfl, rfl, rfl⟩
  refine .read fun s' h => ?_
  rw [show s'.table = s.table from congrArg View.table h]
  cases s.table with
  | some table => exact .skip _
  | none =>
    cases size with
    | none => exact (Work.pure none).bind fun declared t _ => hopen declared t
    | some e =>
      refine (work_layoutValue hk e s).bind fun _ t _ => ?_
      exact (Work.pure _).bind fun declared u _ => hopen declared u

omit hk in
theorem work_closeTable (s : State) : Work n a cx cx' .changing s closeTable closeTable := by
  rw [closeTable_modify]
  refine .read fun s' h => ?_
  rw [show s'.table = s.table from congrArg View.table h,
    show s'.image = s.image from congrArg View.image h]
  cases s.table with
  | none => exact .skip _
  | some table =>
    refine Work.bind (.update (fun _ _ _ _ _ _ => rfl) (.effect (.table s none nofun)) fun _ =>
      .aside ⟨rfl, rfl, rfl, rfl, rfl, rfl, rfl, rfl⟩) fun _ t _ => ?_
    cases table.mismatch s.image.cursor with
    | none => exact .pure _
    | some actual => exact .skip _

theorem work_openVocabulary {recordSize keySize : Expr}
    (hnode : n.kind = .directive (.vocbeg recordSize keySize)) (s : State) :
    Work n a cx cx' .changing s (openVocabulary cx recordSize keySize)
      (openVocabulary cx' recordSize keySize) := by
  refine .read fun s' h => ?_
  rw [show s'.vocabulary = s.vocabulary from congrArg View.vocabulary h]
  split
  · exact .skip _
  · next hopen =>
    refine (work_constant hk _ recordSize s).bind fun _ t ht => ?_
    refine (work_constant hk _ keySize t).bind fun _ u hu => ?_
    have hblock : u.vocabulary = none := by
      rw [((work_constant (.refl cx) _ keySize t).quiet.of_ok hu).vocabulary,
        ((work_constant (.refl cx) _ recordSize s).quiet.of_ok ht).vocabulary]
      simpa using hopen
    dsimp only
    split
    · exact .skip _
    · exact .update (fun _ _ _ _ _ _ => rfl) (.effect (.openBlock u _ _)) fun _ =>
        .openBlock u _ _ ⟨_, _, hnode⟩ hblock

section Closing

variable (hnode : n.kind = .directive .vocend)

theorem work_relocateLabel (v : OpenVocabulary) (order : List Nat) (label : VocabularyLabel)
    (s : State) :
    Work n a cx cx' .within s (relocateLabel cx v order label)
      (relocateLabel cx' v order label) := by
  refine (Work.relocate label.name _).bind fun _ t _ => ?_
  cases label.previous with
  | none => exact .pure _
  | some old => exact work_noteChange hk label.name old t

include hnode

omit hk in
theorem work_patch (addr : Nat) (bytes : List UInt8) (s : State) :
    Work n a cx cx' .within s
      (modify fun s : State => { s with image := s.image.patch addr bytes })
      (modify fun s : State => { s with image := s.image.patch addr bytes }) := by
  refine .part (fun _ _ _ _ _ _ => rfl)
    (.close hnode ⟨?_, Image.size_le_patch _ _ _, rfl, rfl, rfl⟩)
  simp [State.mark, State.tally]

theorem work_settleFixup (f : Fixup) (s : State) :
    Work n a cx cx' .within s (settleFixup cx f) (settleFixup cx' f) := by
  refine Work.bind (m := applyFixup cx f) ?_ fun applied t _ => ?_
  · refine (work_evaluate hk f.expr s).bind fun r t _ => ?_
    cases r with
    | unknown name => exact .pure _
    | known kind value =>
      dsimp only
      split
      · exact (work_patch hnode _ _ t).bind fun _ _ _ => .pure _
      · exact .pure _
  · cases applied with
    | false => exact .part (fun _ _ _ _ _ _ => rfl) (.close hnode
        ⟨rfl, Nat.le_refl _, rfl, rfl, rfl⟩)
    | true => exact .pure _

theorem work_settleBlock (v : OpenVocabulary) (order : List Nat) (finish : Nat) (s : State) :
    Work n a cx cx' .within s (settleBlock cx v order finish) (settleBlock cx' v order finish) := by
  refine (work_forM v.labels (fun label _ t => work_relocateLabel hk v order label t) s).bind
    fun _ t _ => ?_
  refine .read fun t' h => ?_
  rw [show t'.fixups = t.fixups from congrArg View.fixups h]
  refine Work.bind (.part (fun _ _ _ _ _ _ => rfl)
    (.close hnode ⟨rfl, Nat.le_refl _, rfl, rfl, rfl⟩)) fun _ u _ => ?_
  refine (work_forM _ (fun f _ t => work_settleFixup hk hnode f t) u).bind fun _ w _ => ?_
  exact work_forM v.deferred (fun change _ t => work_noteChange hk change.1 change.2 t) w

theorem work_closeVocabulary (s : State) :
    Work n a cx cx' .changing s (closeVocabulary cx) (closeVocabulary cx') := by
  have harrange (v : OpenVocabulary) (order : List Nat) (bytes : List UInt8) (finish : Nat)
      (t : State) : Work n a cx cx' .within t
      (do
        modify fun s : State => { s with image := s.image.patch v.start bytes }
        logEvent (.vocabularySorted order.length v.start)
        settleBlock cx v order finish : Step Unit)
      (do
        modify fun s : State => { s with image := s.image.patch v.start bytes }
        logEvent (.vocabularySorted order.length v.start)
        settleBlock cx' v order finish) := by
    refine (work_patch hnode v.start bytes t).bind fun _ u _ => ?_
    refine (Work.log (fun _ => .vocabularySorted order.length v.start) (fun _ _ _ => rfl) rfl).bind
      fun _ w _ => ?_
    exact work_settleBlock hk hnode v order finish w
  refine .group ?_ fun _ => does_closeVocabulary hnode s
  rw [closeVocabulary_modify, closeVocabulary_modify]
  refine .read fun s' h => ?_
  rw [show s'.vocabulary = s.vocabulary from congrArg View.vocabulary h,
    show s'.image = s.image from congrArg View.image h]
  cases s.vocabulary with
  | none => exact .skip _
  | some v =>
    refine Work.bind (.part (fun _ _ _ _ _ _ => rfl)
      (.close hnode ⟨rfl, Nat.le_refl _, rfl, rfl, rfl⟩)) fun _ t _ => ?_
    dsimp only
    split
    · exact (Work.warn (by decide) _).bind fun _ u _ => harrange v _ _ _ u
    · exact harrange v _ _ _ t

end Closing

/-! ## Data -/

section Data

omit hk

theorem work_encodeText (text : String) (s : State) :
    Work n a cx cx' g s (encodeText text) (encodeText text) := by
  refine .read fun s' h => ?_
  rw [show s'.encoder = s.encoder from congrArg View.encoder h]
  exact .pure _

theorem work_storeLength (encoded : List UInt8) (s : State) :
    Work n a cx cx' .changing s (storeLength encoded) (storeLength encoded) := by
  unfold storeLength
  dsimp only
  split
  · exact .skip _
  · exact work_store _ s

theorem work_stringData {text : String} (h : text ∈ n.texts) (s : State) :
    Work n a cx cx' .changing s (stringData text) (stringData text) :=
  (work_encodeText text s).bind fun _ t _ => (work_store _ t).bind fun _ u _ => work_collectText h u

theorem work_placePacked (kind : PackedKind) (name : String) (s : State) :
    Work n a cx cx' .changing s (placePacked cx kind name) (placePacked cx' kind name) := by
  rw [placePacked_modify, placePacked_modify]
  refine .read fun s' h => ?_
  rw [show s'.packing = s.packing from congrArg View.packing h,
    show s'.image = s.image from congrArg View.image h]
  refine Work.bind (.update (fun _ _ _ _ _ _ => rfl) (.effect (.pack s kind)) fun _ =>
    .aside ⟨rfl, rfl, rfl, rfl, rfl, rfl, rfl, rfl⟩) fun _ t _ => ?_
  refine (work_store _ t).bind fun _ t _ => (work_position t).bind fun _ t _ => ?_
  dsimp only
  split
  · exact (Work.warn (by decide) _).bind fun _ _ _ => .pure _
  · exact .pure _

end Data

section Defining

variable (hlabel : ∀ label, n.kind ≠ .globalLabel label)

include hlabel

theorem work_abbreviation (name text : String) (s : State) :
    Work n a cx cx' .changing s (abbreviation cx name text) (abbreviation cx' name text) := by
  refine .read fun s' h => ?_
  rw [show s'.encoder = s.encoder from congrArg View.encoder h]
  cases hregister : s.encoder.register text with
  | error error => exact .skip _
  | ok registered =>
    obtain ⟨number, encoder⟩ := registered
    have hrest (t : State) : Work n a cx cx' .changing t
        (do
          defineGlobal cx name .constant (Int32.ofNat ((← position) / 2))
          store (encoder.encodePlain text))
        (do
          defineGlobal cx' name .constant (Int32.ofNat ((← position) / 2))
          store (encoder.encodePlain text)) := by
      refine (work_position t).bind fun _ t _ => ?_
      refine Work.bind ?_ fun _ u _ => work_store _ u
      exact work_defineGlobal hk name _ (fun _ => by decide) fun label h => absurd h (hlabel label)
    refine Work.bind (.update (fun _ _ _ _ _ _ => rfl)
      (.effect (.register s text number encoder hregister)) fun _ =>
      .aside ⟨rfl, rfl, rfl, rfl, rfl, rfl, rfl, rfl⟩) fun _ t _ => ?_
    refine (work_position t).bind fun position t _ => ?_
    dsimp only
    split
    · exact (work_store _ t).bind fun _ u _ => hrest u
    · exact hrest t

theorem work_packedString {name text : String} (h : text ∈ n.texts) (s : State) :
    Work n a cx cx' .changing s (packedString cx name text) (packedString cx' name text) := by
  refine (work_placePacked .string name s).bind fun _ t _ => ?_
  refine Work.bind ?_ fun _ u _ => work_stringData h u
  exact work_defineGlobal hk name _ (fun _ => by decide) fun label h => absurd h (hlabel label)

theorem work_variableHead (hnode : n.globalVar?.isSome = true) (name : String) (s : State) :
    Work n a cx cx' .changing s (variableHead cx name) (variableHead cx' name) := by
  refine .read fun s' h => ?_
  rw [show s'.globalVars = s.globalVars from congrArg View.globalVars h]
  dsimp only
  split
  · exact .skip _
  · refine Work.bind (.update (fun _ _ _ _ _ _ => rfl) (.globalVar s hnode) fun _ =>
      .aside ⟨rfl, rfl, rfl, rfl, rfl, rfl, rfl, rfl⟩) fun _ t _ => ?_
    exact work_defineGlobal hk name _ (fun _ => by decide) fun label h => absurd h (hlabel label)

theorem work_objectHead (entry : ObjectEntry) (hnode : n.object?.isSome = true) (s : State) :
    Work n a cx cx' .changing s (objectHead cx entry) (objectHead cx' entry) := by
  unfold objectHead
  rw [hk.version]
  dsimp only
  split
  · exact .skip _
  · refine .read fun s' h => ?_
    rw [show s'.objects = s.objects from congrArg View.objects h]
    split
    · exact .skip _
    · refine Work.bind (.update (fun _ _ _ _ _ _ => rfl) (.object s hnode) fun _ =>
        .aside ⟨rfl, rfl, rfl, rfl, rfl, rfl, rfl, rfl⟩) fun _ t _ => ?_
      exact work_defineGlobal hk _ _ (fun _ => by decide) fun label h => absurd h (hlabel label)

end Defining

/-- What follows the head of an object. -/
theorem work_objectFields (entry : ObjectEntry) (s : State) : Work n a cx cx' .changing s
    (do
      values cx .word entry.flags
      pad (2 * ((objectLayout cx.version).flagWords - entry.flags.length))
      values cx (objectLayout cx.version).linkWidth [entry.parent, entry.sibling, entry.child]
      writeValue cx .word entry.properties)
    (do
      values cx' .word entry.flags
      pad (2 * ((objectLayout cx'.version).flagWords - entry.flags.length))
      values cx' (objectLayout cx'.version).linkWidth [entry.parent, entry.sibling, entry.child]
      writeValue cx' .word entry.properties) := by
  rw [hk.version]
  refine (work_values hk .word entry.flags s).bind fun _ t _ =>
    (work_store _ t).bind fun _ t _ => ?_
  exact (work_values hk _ _ t).bind fun _ t _ => work_writeValue hk .word entry.properties t

theorem work_property (size number : Expr) (s : State) :
    Work n a cx cx' .changing s (property cx size number) (property cx' size number) := by
  unfold property
  rw [hk.version]
  refine (work_constant hk _ size s).bind fun size t _ => ?_
  refine (work_constant hk _ number t).bind fun number t _ => ?_
  dsimp only
  split
  · exact .skip _
  · split
    · exact .skip _
    · exact work_store _ t

/-! ## Instructions -/

theorem work_argument (e : Expr) (s : State) :
    Work n a cx cx' g s (argument cx e) (argument cx' e) := by
  have hnumber (value : Int32) (t : State) : Work n a cx cx' g t
      (do
        if fitsByte value && !e.needsLong ((← get).scoping cx) then
          return { operand := .byte (UInt8.ofInt value.toInt), expr := e }
        else return { operand := .word (lowWord value), expr := e } : Step Argument)
      (do
        if fitsByte value && !e.needsLong ((← get).scoping cx') then
          return { operand := .byte (UInt8.ofInt value.toInt), expr := e }
        else return { operand := .word (lowWord value), expr := e }) := by
    refine .read fun t' h => ?_
    rw [needsLong_view cx cx' h]
    split <;> exact .pure _
  refine (work_evaluate hk e s).bind fun r t _ => ?_
  cases r with
  | unknown symbol => exact .pure _
  | known kind value =>
    cases kind with
    | var => exact .pure _
    | unknown | constant | label | routine | string | object => exact hnumber value t

theorem work_jumpArgument (address : Nat) (e : Expr) (s : State) :
    Work n a cx cx' g s (jumpArgument cx address e) (jumpArgument cx' address e) := by
  cases e with
  | number | quote | add => exact .skip _
  | symbol name =>
    refine (work_evaluate hk _ s).bind fun r t _ => ?_
    cases r with
    | unknown symbol => exact .pure _
    | known kind value =>
      cases kind with
      | label => exact .pure _
      | unknown | constant | var | routine | string | object => exact .skip _

theorem work_arguments (op : Opcode) (address : Nat) (operands : List Expr) (s : State) :
    Work n a cx cx' g s (arguments cx op address operands)
      (arguments cx' op address operands) := by
  unfold arguments
  split
  · split
    · exact (work_jumpArgument hk address _ s).bind fun _ _ _ => .pure _
    · exact (work_argument hk _ s).bind fun _ _ _ => .pure _
  · exact work_mapM operands (fun e t => work_argument hk e t) s

theorem work_storeTarget (target : Option Expr) (s : State) :
    Work n a cx cx' g s (target.mapM (storeVariable cx)) (target.mapM (storeVariable cx')) := by
  cases target with
  | none => exact .pure _
  | some e =>
    refine Work.bind (m := storeVariable cx e) ?_ fun _ _ _ => .pure _
    refine (work_evaluate hk e s).bind fun r t _ => ?_
    cases r with
    | unknown symbol => exact .pure _
    | known kind value =>
      cases kind with
      | var => exact .pure _
      | unknown | constant | label | routine | string | object => exact .skip _

section Instructions

omit hk

theorem work_destination (target : BranchTarget) (s : State) :
    Work n a cx cx' g s (destination target) (destination target) := by
  cases target with
  | returnTrue => exact .pure _
  | returnFalse => exact .pure _
  | label name =>
    refine .read fun s' h => ?_
    rw [show s'.scope = s.scope from congrArg View.scope h,
      show s'.locals = s.locals from congrArg View.locals h]
    split
    · exact .skip _
    · cases s.locals.lookup name with
      | none => exact .skip _
      | some symbol =>
        dsimp only
        split
        · exact .pure _
        · exact .skip _

theorem work_branchField (branch : Option Branch) (s : State) :
    Work n a cx cx' g s
      (branch.mapM fun b => do
        return ({ onTrue := b.onTrue, destination := ← destination b.target } : BranchField))
      (branch.mapM fun b => do
        return ({ onTrue := b.onTrue, destination := ← destination b.target } : BranchField)) := by
  cases branch with
  | none => exact .pure _
  | some b =>
    refine Work.bind ?_ fun _ _ _ => .pure _
    exact (work_destination b.target s).bind fun _ _ _ => .pure _

theorem work_instructionText {i : Instruction} (hnode : n.kind = .instruction i) (s : State) :
    Work n a cx cx' .changing s
      (match i.text with
        | some text => collectText text
        | none => pure () : Step Unit)
      (match i.text with
        | some text => collectText text
        | none => pure ()) := by
  split
  · next text htext => exact work_collectText (by simp [Node.texts, hnode, htext]) s
  · exact .pure _

/-- What waits is noted; in the assembling pass nothing waits. -/
theorem work_addOperandFixups {address : Nat} (haddress : a ≤ address) {args : List Argument}
    (hargs : cx.mode = .assembling → ∀ arg ∈ args, arg.waitsFor = none) (offsets : List Nat)
    (s : State) : Work n a cx cx' .changing s (addOperandFixups address args offsets)
      (addOperandFixups address args offsets) := by
  refine work_forM _ (fun pair hpair t => ?_) s
  obtain ⟨arg, offset⟩ := pair
  dsimp only
  cases hwaits : arg.waitsFor with
  | none => exact .pure _
  | some symbol =>
    refine work_addFixup (fun addr width h => .inr ?_) fun hm => ?_
    · cases h
      omega
    · have hnone := hargs hm arg (List.of_mem_zip hpair).1
      cases hwaits.symm.trans hnone

theorem work_finishInstruction {i : Instruction} (hnode : n.kind = .instruction i) {address : Nat}
    (haddress : a ≤ address) {args : List Argument} {target : Option (UInt8 × Option String)}
    (encoded : Bytecode.Encoded)
    (hargs : cx.mode = .assembling → ∀ arg ∈ args, arg.waitsFor = none)
    (htarget : cx.mode = .assembling → ∀ number symbol, target ≠ some (number, some symbol))
    (s : State) :
    Work n a cx cx' .changing s (finishInstruction i address args target encoded)
      (finishInstruction i address args target encoded) := by
  unfold finishInstruction
  refine (work_addOperandFixups haddress hargs _ s).bind fun _ t _ => ?_
  dsimp only
  split
  · refine Work.bind (work_addFixup (fun addr width h => .inr ?_) fun hm => ?_) fun _ u _ =>
      work_instructionText hnode u
    · cases h
      omega
    · exact absurd rfl (htarget hm _ _)
  · exact work_instructionText hnode t

theorem work_selectOpcode (hk : cx.Kin cx') (name : String) (count : Nat) (s : State) :
    Work n a cx cx' g s (selectOpcode cx name count) (selectOpcode cx' name count) := by
  unfold selectOpcode
  rw [hk.version]
  split
  · exact .pure _
  · exact .abort _ rfl
  · exact .abort _ rfl

end Instructions

theorem work_instruction {i : Instruction} (hnode : n.kind = .instruction i) {s : State}
    (ha : a = s.image.cursor) :
    Work n a cx cx' .changing s (instruction cx i) (instruction cx' i) := by
  refine (work_selectOpcode hk _ _ s).bind fun op t hop => ?_
  have himage := ((work_selectOpcode (.refl cx) _ _ s).quiet.of_ok hop).image
  dsimp only
  split
  · exact .skip _
  · refine (work_position t).bind fun address u haddress => ?_
    cases haddress
    refine (work_arguments hk op _ i.operands t).bind fun args t₁ hargs => ?_
    refine (work_storeTarget hk i.store t₁).bind fun target t₂ htarget => ?_
    refine (work_branchField i.branch t₂).bind fun branch t₃ _ => ?_
    refine .read fun s' h => ?_
    rw [show s'.encoder = t₃.encoder from congrArg View.encoder h]
    split
    · exact .skip _
    · next encoded _ =>
      refine (work_store _ t₃).bind fun _ u _ => ?_
      exact work_finishInstruction hnode (Nat.le_of_eq (by rw [ha, himage])) encoded
        (fun hm => yields_arguments hm op _ _ _ args _ hargs)
        (fun hm => yields_storeTarget hm _ _ target _ htarget) u

/-! ## Nodes -/

theorem work_storyVersion (hasks : n.asksOther cx.version = true) (e : Expr) (s : State) :
    Work n a cx cx' .changing s (storyVersion cx e) (storyVersion cx' e) := by
  unfold storyVersion
  rw [hk.version]
  refine (work_constant hk _ e s).bind fun value t _ => ?_
  split
  · exact .skip _
  · split
    · exact .pure _
    · exact .restart _ hasks

/-- A literal version asks for another one only if it is another one. -/
theorem work_literalVersion {value : Int32} (hnode : n.kind = .directive (.new (.number value)))
    (s : State) :
    Work n a cx cx' .changing s (storyVersion cx (.number value))
      (storyVersion cx' (.number value)) := by
  by_cases hother : value.toInt.toNat = cx.version.number
  · have hstays (c : Context) (hc : c.version = cx.version) :
        storyVersion c (.number value) = pure () := by
      have hvalue : constant c "Story version" (.number value) = pure value := rfl
      unfold storyVersion
      rw [hvalue, pure_bind, hother, Version.ofNat?_number]
      exact if_pos hc.symm
    rw [hstays cx rfl, hstays cx' hk.version]
    exact .pure ()
  · refine work_storyVersion hk ?_ (.number value) s
    unfold Node.asksOther
    rw [hnode]
    exact bne_iff_ne.mpr hother

section Heads

variable {name : String} {locals : List LocalDecl}
    (hnode : n.kind = .directive (.funct name locals))

include hnode

omit hk in
theorem work_locals {f : State → SymbolTable}
    (hapart : Apart fun s => { s with locals := f s }) (s : State) :
    Work n a cx cx' .changing s (modify fun s => { s with locals := f s })
      (modify fun s => { s with locals := f s }) :=
  .update hapart (.effect (.quiet ⟨rfl, rfl, rfl, rfl, rfl, rfl, rfl⟩)) fun _ =>
    .locals s (f s) name locals hnode

theorem work_headOpening (s : State) :
    Work n a cx cx' .changing s (headOpening cx name locals) (headOpening cx' name locals) := by
  have hdeclare (start : Nat) (t : State) : Work n a cx cx' .changing t
      (do
        storeByte (UInt8.ofNat (locals.take maxLocals).length)
        declareLocals (locals.take maxLocals)
        return start : Step Nat)
      (do
        storeByte (UInt8.ofNat (locals.take maxLocals).length)
        declareLocals (locals.take maxLocals)
        return start) := by
    refine (work_store _ t).bind fun _ t _ => Work.bind ?_ fun _ _ _ => .pure start
    exact work_locals hnode (fun _ _ _ _ _ _ => rfl) t
  refine (work_locals hnode (fun _ _ _ _ _ _ => rfl) s).bind fun _ t _ => ?_
  refine (work_placePacked .routine name t).bind fun packed t _ => ?_
  refine (work_position t).bind fun start t _ => ?_
  refine Work.bind (work_defineGlobal hk name _ (fun _ => by decide) fun label h => ?_)
    fun _ t _ => ?_
  · cases hnode.symm.trans h
  · dsimp only
    split
    · exact (Work.reportError _).bind fun _ t _ => hdeclare start t
    · exact hdeclare start t

omit hk in
theorem work_predeclareLabels (start : Nat) (s : State) :
    Work n a cx cx' .changing s (predeclareLabels start) (predeclareLabels start) := by
  have heq : predeclareLabels start = modify fun s => { s with locals := s.withLabels start } := by
    funext s
    rw [predeclareLabels_eq]
    rfl
  rw [heq]
  exact work_locals hnode (fun _ _ _ _ _ _ => rfl) s

omit hnode in
theorem work_localDefaults (name : String) (locals : List LocalDecl) (s : State) :
    Work n a cx cx' .changing s (localDefaults cx name locals) (localDefaults cx' name locals) := by
  unfold localDefaults
  rw [hk.version]
  split
  · exact work_forM _ (fun decl _ t => work_writeDefault hk decl.default t) s
  · split
    · exact .warn (by decide) _
    · exact .pure _

theorem work_routineHead (s : State) :
    Work n a cx cx' .changing s (routineHead cx name locals) (routineHead cx' name locals) := by
  rw [routineHead_eq, routineHead_eq]
  refine (work_headOpening hk hnode s).bind fun start t _ => ?_
  exact (work_localDefaults hk name _ t).bind fun _ t _ => work_predeclareLabels hnode start t

end Heads

theorem work_debugRecord (pc : Nat) (d : DebugDirective) (s : State) :
    Work n a cx cx' g s (debugRecord cx pc d) (debugRecord cx' pc d) := by
  cases d with
  | file | line | routine | routineEnd => exact .pure _
  | named table number name => exact (work_constant hk _ number s).bind fun _ _ _ => .pure _

theorem work_debugDirective (hnode : n.debug?.isSome = true) (d : DebugDirective) (s : State) :
    Work n a cx cx' .changing s (debugDirective cx d) (debugDirective cx' d) := by
  unfold debugDirective
  rw [hk.mode]
  cases cx.mode with
  | measuring => exact .pure _
  | assembling =>
    refine (work_position s).bind fun pc t _ => (work_debugRecord hk pc d t).bind fun r t _ => ?_
    exact .update (fun _ _ _ _ _ _ => rfl) (.record t r hnode) fun _ =>
      .aside ⟨rfl, rfl, rfl, rfl, rfl, rfl, rfl, rfl⟩

theorem work_directive {d : Directive} (hnode : n.kind = .directive d) (s : State) :
    Work n a cx cx' .changing s (directive cx d) (directive cx' d) := by
  have hlabel (label : String) : n.kind ≠ .globalLabel label := by
    rw [hnode]
    exact NodeKind.noConfusion
  cases d with
  | new version =>
    cases version with
    | number value => exact work_literalVersion hk hnode s
    | symbol | quote | add => exact work_storyVersion hk (by simp [Node.asksOther, hnode]) _ s
  | funct name locals => exact work_routineHead hk hnode s
  | stop => exact .pure _
  | byte es => exact work_values hk .byte es s
  | word es => exact work_values hk .word es s
  | str text => exact work_stringData (by simp [Node.texts, hnode]) s
  | strl text =>
    refine (work_encodeText text s).bind fun _ t _ => (work_storeLength _ t).bind fun _ t _ => ?_
    exact work_stringData (by simp [Node.texts, hnode]) t
  | len text => exact (work_encodeText text s).bind fun _ t _ => work_storeLength _ t
  | zword text =>
    show Work n a cx cx' _ s (store (Dictionary.key cx.version text))
      (store (Dictionary.key cx'.version text))
    rw [hk.version]
    exact work_store _ s
  | gstr name text => exact work_packedString hk hlabel (by simp [Node.texts, hnode]) s
  | fstr name text => exact work_abbreviation hk hlabel name text s
  | equal name value => exact work_equate hk hlabel name value s
  | gvar name default =>
    show Work n a cx cx' _ s (globalVariable cx name default) (globalVariable cx' name default)
    rw [globalVariable_eq, globalVariable_eq]
    refine (work_variableHead hk hlabel (by simp [Node.globalVar?, hnode]) name s).bind
      fun _ t _ => work_writeDefault hk default t
  | table size => exact work_openTable hk size s
  | endt => exact work_closeTable s
  | vocbeg recordSize keySize => exact work_openVocabulary hk hnode s
  | vocend => exact work_closeVocabulary hk hnode s
  | object entry =>
    show Work n a cx cx' _ s (object cx entry) (object cx' entry)
    rw [object_eq, object_eq]
    refine (work_objectHead hk hlabel entry (by simp [Node.object?, hnode]) s).bind
      fun _ t _ => work_objectFields hk entry t
  | prop size number => exact work_property hk size number s
  | pdef =>
    refine (work_position s).bind fun position t _ => ?_
    rw [hk.version]
    exact work_store _ t
  | time =>
    show Work n a cx cx' _ s (modify fun s => { s with timed := s.timed || cx.version.number ≤ 3 })
      (modify fun s => { s with timed := s.timed || cx'.version.number ≤ 3 })
    rw [hk.version]
    exact work_aside (fun _ _ _ _ _ _ => rfl) ⟨rfl, rfl, rfl, rfl, rfl, rfl, rfl⟩
      ⟨rfl, rfl, rfl, rfl, rfl, rfl, rfl, rfl⟩
  | sound =>
    exact work_aside (fun _ _ _ _ _ _ => rfl) ⟨rfl, rfl, rfl, rfl, rfl, rfl, rfl⟩
      ⟨rfl, rfl, rfl, rfl, rfl, rfl, rfl, rfl⟩
  | debug d => exact work_debugDirective hk (by simp [Node.debug?, hnode]) d s

/-- A node does nothing but its work, in any context. -/
theorem node_work (n : Node) (s : State) :
    Work n s.image.cursor cx cx' .changing s (node cx n) (node cx' n) := by
  cases hnode : n.kind with
  | directive d =>
    rw [node_directive hnode, node_directive hnode]
    exact work_directive hk hnode s
  | instruction i =>
    rw [node_instruction hnode, node_instruction hnode]
    exact work_instruction hk hnode rfl
  | globalLabel name =>
    rw [node_globalLabel hnode, node_globalLabel hnode]
    exact work_globalLabel hk hnode s
  | localLabel name =>
    rw [node_localLabel hnode, node_localLabel hnode]
    exact work_localLabel hnode s

end Steps

/-- What a node does in the assembling pass, if the pass goes on after it, is a chain of changes. -/
theorem node_does {cx : Context} {n : Node} (hm : cx.mode = .assembling) (s : State) :
    Does (Changes cx n) (node cx n) s :=
  (node_work (.refl cx) n s).does hm

/-- A node that is reached at `here` does nothing but its acts, however it ends. -/
theorem node_acts (cx : Context) {n : Node} {here : Nat} (s : State)
    (hhere : here = s.image.cursor) : Leaves (Acts n here) (node cx n) s := by
  subst hhere
  exact (node_work (.refl cx) n s).acts

end Assembly

end ZAssembler
