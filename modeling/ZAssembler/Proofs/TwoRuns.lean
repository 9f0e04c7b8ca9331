import ZAssembler.Proofs.Reporting

/-
  Two runs of the same work. A run that starts again for another version goes on like a run that
  starts with that version, only that it has a past: passes are numbered on, and what was counted
  and logged before stays (`State.after`). A run with a greater error limit does the same work until
  the smaller limit is reached. Both are told at once by `Repeats`, step by step from the work of a
  node up to the story.
-/

namespace ZAssembler

/-- The work is given up because there are too many errors. -/
def Problem.GivesUp (problem : Problem) : Prop := ∃ count, problem = .tooManyErrors count

/-! ## Tables with a past -/

def Site.after (w : Site) (passes : Nat) : Site := { w with pass := passes + w.pass }

def Symbol.after (x : Symbol) (passes : Nat) : Symbol :=
  { x with site := x.site.map (·.after passes) }

namespace SymbolTable

/-- The table as it is when so many passes came before. -/
def after (t : SymbolTable) (passes : Nat) : SymbolTable :=
  { symbols := t.symbols.map (·.after passes) }

variable (t : SymbolTable) (passes : Nat)

theorem lookup_after (name : String) :
    (t.after passes).lookup name = (t.lookup name).map (·.after passes) := by
  unfold after lookup
  rw [List.find?_map]
  rfl

theorem undated_after : (t.after passes).undated = t.undated := by
  unfold after undated
  rw [List.map_map]
  rfl

theorem valueOf_after (name : String) : (t.after passes).valueOf name = t.valueOf name := by
  rw [← valueOf_undated, undated_after, valueOf_undated]

theorem putIn_after (x : Symbol) (xs : List Symbol) :
    putIn (x.after passes) (xs.map (·.after passes)) = (putIn x xs).map (·.after passes) := by
  induction xs with
  | nil => rfl
  | cons old rest ih =>
    have hname : ((old.after passes).name == (x.after passes).name) = (old.name == x.name) := rfl
    rw [List.map_cons, putIn, putIn, hname]
    split
    · rfl
    · rw [ih, List.map_cons]

theorem put_after (x : Symbol) : (t.after passes).put (x.after passes) = (t.put x).after passes :=
  congrArg SymbolTable.mk (putIn_after passes x t.symbols)

theorem mention_after (name : String) :
    (t.after passes).mention name = (t.mention name).after passes := by
  unfold mention
  rw [lookup_after]
  cases t.lookup name with
  | none => exact put_after t passes { name, kind := .unknown, value := 0 }
  | some x => rfl

theorem relocate_after (name : String) (value : Int32) :
    (t.after passes).relocate name value = (t.relocate name value).after passes := by
  unfold relocate
  rw [lookup_after]
  cases t.lookup name with
  | none => rfl
  | some x => exact put_after t passes { x with value }

/-- A symbol is a duplicate in both tables or in none. -/
theorem any_site_after (x : Symbol) (site : Site) :
    (x.after passes).site.any
        (fun old => old.pass == (site.after passes).pass && old.node != (site.after passes).node) =
      x.site.any fun old => old.pass == site.pass && old.node != site.node := by
  have hpass (old : Site) : ((old.after passes).pass == (site.after passes).pass) =
      (old.pass == site.pass) := by
    rw [Bool.eq_iff_iff, beq_iff_eq, beq_iff_eq]
    unfold Site.after
    exact Nat.add_left_cancel_iff
  unfold Symbol.after
  rw [Option.any_map]
  refine congrArg (fun p => x.site.any p) (funext fun old => ?_)
  exact congrArg (· && old.node != site.node) (hpass old)

theorem define_after (name : String) (kind : SymbolKind) (value : Int32) (site : Site) :
    (t.after passes).define name kind value (site.after passes) =
      ((t.define name kind value site).1, (t.define name kind value site).2.after passes) := by
  unfold define
  rw [lookup_after]
  cases t.lookup name with
  | none => exact congrArg (Prod.mk _) (put_after t passes { name, kind, value, site := some site })
  | some x =>
    have hdefined : (x.after passes).isDefined = x.isDefined := rfl
    rw [Option.map_some]
    dsimp only
    rw [hdefined, any_site_after]
    split
    · exact congrArg (Prod.mk _) (put_after t passes { x with kind, value, site := some site })
    · split
      · rfl
      · exact congrArg (Prod.mk _) (put_after t passes { name, kind, value, site := some site })

theorem after_zero : t.after 0 = t := by
  have hsite : (fun w : Site => w.after 0) = id := by
    funext w
    unfold Site.after
    rw [Nat.zero_add]
    rfl
  have hsymbol : (fun x : Symbol => x.after 0) = id := by
    funext x
    unfold Symbol.after
    rw [hsite, Option.map_id]
    rfl
  unfold after
  rw [hsymbol, List.map_id]

end SymbolTable

namespace Assembly

/-! ## States with a past -/

/-- What a run has counted and logged before. -/
structure Past where
  counts : Counts
  log : Array Event

def Counts.after (c past : Counts) : Counts where
  passes := past.passes + c.passes
  measuringPasses := past.measuringPasses + c.measuringPasses
  restarts := past.restarts + c.restarts
  reassemblies := past.reassemblies + c.reassemblies

/-- The log that goes on after the past. -/
def Past.logOn (p : Past) (log : Array Event) : Array Event :=
  p.log ++ log.map (·.later p.counts.passes p.counts.measuringPasses)

/-- The state with a past. -/
def State.after (s : State) (p : Past) : State :=
  { s with
    globals := s.globals.after p.counts.passes
    log := p.logOn s.log
    counts := s.counts.after p.counts }

theorem Past.logOn_push (p : Past) (log : Array Event) (event : Event) :
    p.logOn (log.push event) =
      (p.logOn log).push (event.later p.counts.passes p.counts.measuringPasses) := by
  unfold logOn
  rw [Array.map_push, Array.append_push]

theorem view_after (s : State) (p : Past) : (s.after p).view = s.view := by
  unfold State.view
  rw [show (s.after p).globals.undated = s.globals.undated from SymbolTable.undated_after _ _]
  rfl

/-- What an update leaves alone is after it what it was before. -/
theorem Apart.after {f : State → State} (h : Apart f) (s : State) (p : Past) :
    f (s.after p) = (f s).after p := by
  have hs := h s s.globals s.diagnostics s.log s.counts s.handed
  have hglobals : (f s).globals = s.globals := (congrArg State.globals hs :)
  have hlog : (f s).log = s.log := (congrArg State.log hs :)
  have hcounts := (h.untouched s).counts
  have hafter := h s (s.globals.after p.counts.passes) s.diagnostics (p.logOn s.log)
    (s.counts.after p.counts) s.handed
  unfold State.after
  rw [hglobals, hlog, hcounts]
  refine hafter.trans ?_
  rw [← h.diagnostics s, ← (h.untouched s).handed]

/-! ## Repeating work -/

variable {α β ε : Type}

/-- The end of work that had a past. -/
def endAfter (p : Past) : EStateM.Result ε State α → EStateM.Result ε State α
  | .ok a s => .ok a (s.after p)
  | .error e s => .error e (s.after p)

/-- From the state with the past `p`, `m'` does what `m` does from `s`. If the error limits are
    `parted`, `m` may instead give up. -/
def Repeats (p : Past) (parted : Prop) (givesUp : ε → Prop) (m m' : EStateM ε State α)
    (s : State) : Prop :=
  m' (s.after p) = endAfter p (m s) ∨ parted ∧ ∃ e t, m s = .error e t ∧ givesUp e

def Interrupt.GivesUp (i : Interrupt) : Prop := ∃ count, i = .abort (.tooManyErrors count)

def Stop.GivesUp (e : Stop) : Prop := ∃ count, e = .failed (.tooManyErrors count)

/-- A context that goes on after the past, with no smaller error limit. -/
structure Follows (p : Past) (parted : Prop) (cx cx' : Context) : Prop extends cx.Kin cx' where
  pass : cx'.pass = p.counts.passes + cx.pass
  limit : cx'.errorLimit = cx.errorLimit ∨ parted ∧ cx.errorLimit ≤ cx'.errorLimit

section Repeats

variable {p : Past} {parted : Prop} {givesUp : ε → Prop} {m m' : EStateM ε State α} {s : State}

theorem Repeats.congr {n n' : EStateM ε State α} {t : State} (h : Repeats p parted givesUp n n' t)
    (hm : m s = n t) (hm' : m' (s.after p) = n' (t.after p)) : Repeats p parted givesUp m m' s := by
  unfold Repeats
  rw [hm, hm']
  exact h

theorem Repeats.bind {f f' : α → EStateM ε State β} (hm : Repeats p parted givesUp m m' s)
    (hf : ∀ a t, m s = .ok a t → Repeats p parted givesUp (f a) (f' a) t) :
    Repeats p parted givesUp (m >>= f) (m' >>= f') s := by
  rcases hm with hm | ⟨hparted, e, t, hm, he⟩
  · cases hs : m s with
    | ok a t =>
      rw [hs] at hm
      exact (hf a t hs).congr (bind_of_ok hs) (bind_of_ok hm)
    | error e t =>
      rw [hs] at hm
      refine .inl ?_
      rw [bind_of_error hs, bind_of_error hm]
      rfl
  · exact .inr ⟨hparted, e, t, bind_of_error hm, he⟩

theorem repeats_pure (a : α) : Repeats p parted givesUp (pure a) (pure a) s := .inl rfl

theorem repeats_throw (e : ε) :
    Repeats p parted givesUp (throw e : EStateM ε State α) (throw e) s :=
  .inl rfl

theorem repeats_modify {f f' : State → State} (h : f' (s.after p) = (f s).after p) :
    Repeats p parted givesUp (modify f : EStateM ε State PUnit) (modify f') s := by
  refine .inl ?_
  show EStateM.Result.ok _ _ = EStateM.Result.ok _ _
  rw [h]

theorem repeats_get {f f' : State → EStateM ε State α}
    (h : Repeats p parted givesUp (f s) (f' (s.after p)) s) :
    Repeats p parted givesUp (get >>= f) (get >>= f') s := h

end Repeats

section Steps

variable {p : Past} {parted : Prop} {cx cx' : Context} (hcx : Follows p parted cx cx')

include hcx

/-- One more error is too many for both, for none, or for the smaller limit. -/
theorem tooManyErrors_after (s : State) :
    (s.after p).tooManyErrors? cx' = s.tooManyErrors? cx ∨
      parted ∧ ∃ count, s.tooManyErrors? cx = some (.tooManyErrors count) := by
  unfold State.tooManyErrors?
  dsimp only
  have hdiagnostics : (s.after p).diagnostics = s.diagnostics := rfl
  rw [hdiagnostics]
  rcases hcx.limit with hlimit | ⟨hparted, hlimit⟩
  · rw [hlimit]
    exact .inl rfl
  · by_cases hmany : cx.errorLimit ≤ errorCount s.diagnostics.toList
    · rw [if_pos hmany]
      exact .inr ⟨hparted, _, rfl⟩
    · rw [if_neg hmany, if_neg (by omega)]
      exact .inl rfl

theorem repeats_reportError (problem : Problem) (s : State) :
    Repeats p parted Interrupt.GivesUp (reportError cx problem) (reportError cx' problem) s := by
  refine Repeats.bind (repeats_modify rfl) fun _ t _ => repeats_get ?_
  rcases tooManyErrors_after hcx t with heq | ⟨hparted, count, hmany⟩
  · rw [heq]
    cases t.tooManyErrors? cx with
    | none => exact repeats_pure _
    | some tooMany => exact repeats_throw _
  · rw [hmany]
    exact .inr ⟨hparted, _, t, rfl, count, rfl⟩

omit hcx in
theorem log_after (s : State) {event event' : Event}
    (h : event.later p.counts.passes p.counts.measuringPasses = event') :
    { s.after p with log := (s.after p).log.push event' } =
    { s with log := s.log.push event }.after p := by
  unfold State.after
  rw [Past.logOn_push, h]

theorem repeats_warn (problem : Problem) (s : State) :
    Repeats p parted Interrupt.GivesUp (warn cx problem) (warn cx' problem) s := by
  have hreport (t : State) : Repeats p parted Interrupt.GivesUp
      (modify (·.report .warning problem) : Step Unit) (modify (·.report .warning problem)) t :=
    repeats_modify rfl
  unfold warn
  rw [hcx.mode]
  split
  · exact repeats_get (Repeats.bind (repeats_modify (log_after s rfl)) fun _ t _ => hreport t)
  · exact hreport s

omit hcx in
theorem globals_after (s : State) {globals globals' : SymbolTable}
    (h : globals' = globals.after p.counts.passes) :
    { s.after p with globals := globals' } = { s with globals }.after p := by
  rw [h]
  rfl

theorem repeats_enterGlobal (name : String) (kind : SymbolKind) (value : Int32) (s : State) :
    Repeats p parted Interrupt.GivesUp (enterGlobal cx name kind value)
      (enterGlobal cx' name kind value) s := by
  have hsite : (s.after p).site cx' = (s.site cx).after p.counts.passes := by
    unfold State.site
    rw [hcx.pass]
    rfl
  have hdefine := SymbolTable.define_after s.globals p.counts.passes name kind value (s.site cx)
  rw [← hsite, Prod.ext_iff] at hdefine
  refine .inl ?_
  rw [enterGlobal_eq, enterGlobal_eq]
  exact congrArg₂ EStateM.Result.ok hdefine.1 (globals_after s hdefine.2)

/-- A node repeats its work. -/
theorem Work.repeats {n : Node} {a : Nat} {g : Extent} {s : State} {m m' : Step α}
    (h : Work n a cx cx' g s m m') : Repeats p parted Interrupt.GivesUp m m' s := by
  induction h with
  | pure x => exact repeats_pure x
  | skip problem => exact repeats_throw _
  | abort problem _ => exact repeats_throw _
  | restart version _ => exact repeats_throw _
  | bind _ _ ihm ihf => exact ihm.bind ihf
  | @read _ _ s _ _ _ ih => exact ih (s.after p) (view_after s p)
  | update hapart _ _ => exact repeats_modify (hapart.after _ p)
  | part hapart _ => exact repeats_modify (hapart.after _ p)
  | mention name _ =>
    exact repeats_modify (globals_after _ (SymbolTable.mention_after _ p.counts.passes name))
  | enter name kind value => exact repeats_enterGlobal hcx name kind value _
  | relocate name value =>
    exact repeats_modify
      (globals_after _ (SymbolTable.relocate_after _ p.counts.passes name value))
  | log event hlater _ =>
    rw [hcx.pass]
    exact repeats_modify (log_after _ (hlater _ _ _))
  | group _ _ ih => exact ih
  | warn _ problem => exact repeats_warn hcx problem _
  | reportError problem => exact repeats_reportError hcx problem _

/-! ## Repeating a pass -/

omit hcx in
theorem repeats_stopWith (problem : Problem) (s : State) :
    Repeats p parted Stop.GivesUp (stopWith problem : Pass α) (stopWith problem) s :=
  Repeats.bind (repeats_modify rfl) fun _ _ _ => repeats_throw _

theorem repeats_recover (problem : Problem) (s : State) :
    Repeats p parted Stop.GivesUp (recover cx problem) (recover cx' problem) s := by
  refine Repeats.bind (repeats_modify rfl) fun _ t _ => repeats_get ?_
  rcases tooManyErrors_after hcx t with heq | ⟨hparted, count, hmany⟩
  · rw [heq]
    cases t.tooManyErrors? cx with
    | none => exact repeats_pure _
    | some tooMany => exact repeats_stopWith _ t
  · rw [hmany]
    exact .inr ⟨hparted, _, _, rfl, count, rfl⟩

theorem repeats_runStep {step step' : Step Unit} {s : State}
    (h : Repeats p parted Interrupt.GivesUp step step' s) :
    Repeats p parted Stop.GivesUp (runStep cx step) (runStep cx' step') s := by
  rcases h with h | ⟨hparted, i, t, hstep, count, rfl⟩
  · cases hstep : step s with
    | ok a t =>
      rw [hstep] at h
      refine .inl ?_
      rw [runStep_eq, runStep_eq, h, hstep]
      rfl
    | error i t =>
      rw [hstep] at h
      cases i with
      | skip problem =>
        exact (repeats_recover hcx problem t).congr (by rw [runStep_eq, hstep])
          (by rw [runStep_eq, h]; rfl)
      | abort problem =>
        exact (repeats_stopWith problem t).congr (by rw [runStep_eq, hstep])
          (by rw [runStep_eq, h]; rfl)
      | restart version =>
        refine .inl ?_
        rw [runStep_eq, runStep_eq, h, hstep]
        rfl
  · refine .inr ⟨hparted, _, t.report .fatal (.tooManyErrors count), ?_, count, rfl⟩
    rw [runStep_eq, hstep]
    rfl

theorem repeats_visit (index : Nat) (n : Node) (s : State) :
    Repeats p parted Stop.GivesUp (visit cx index n) (visit cx' index n) s :=
  Repeats.bind (repeats_modify rfl) fun _ t _ =>
    repeats_runStep hcx ((node_work hcx.toKin n t).repeats hcx)

theorem repeats_visitAll (index : Nat) (nodes : List Node) (s : State) :
    Repeats p parted Stop.GivesUp (visitAll cx index nodes) (visitAll cx' index nodes) s := by
  induction nodes generalizing index s with
  | nil => exact repeats_pure _
  | cons n rest ih => exact (repeats_visit hcx index n s).bind fun _ t _ => ih (index + 1) t

theorem repeats_closeRoutine (scope : RoutineScope) (s : State) :
    Repeats p parted Stop.GivesUp (closeRoutine cx scope) (closeRoutine cx' scope) s := by
  have hjudge (t : State) : Repeats p parted Stop.GivesUp (runStep cx (judgeAll cx scope.deferred))
      (runStep cx' (judgeAll cx' scope.deferred)) t :=
    repeats_runStep hcx ((work_judgeAll hcx.toKin scope.deferred t).repeats hcx)
  unfold closeRoutine
  refine Repeats.bind (repeats_modify rfl) fun _ t _ => ?_
  rw [hcx.pass]
  split
  · refine Repeats.bind (repeats_modify ?_) fun _ u _ => hjudge u
    unfold State.after Counts.after
    dsimp only
    rw [Past.logOn_push, Nat.add_assoc]
    rfl
  · exact hjudge t

omit hcx in
theorem walkAgain_after (s : State) (next : RoutineScope) :
    (s.after p).walkAgain next = (s.walkAgain next).after p := by
  unfold State.walkAgain State.after
  rw [Past.logOn_push]
  rfl

/-- The walks to come are none for both runs, or they are the same. -/
theorem repeats_endWalk {again again' : Option (Pass Unit)}
    (hagain : Option.Rel (fun walk walk' => ∀ t, Repeats p parted Stop.GivesUp walk walk' t)
      again again')
    (s : State) : Repeats p parted Stop.GivesUp (endWalk cx again) (endWalk cx' again') s := by
  refine repeats_get ?_
  show Repeats _ _ _ _ _ _
  rw [show (s.after p).scope = s.scope from rfl]
  cases s.scope with
  | none => exact repeats_pure _
  | some scope =>
    dsimp only
    split
    · exact repeats_closeRoutine hcx scope s
    · cases scope.nextWalk? with
      | none => exact repeats_stopWith _ s
      | some next =>
        cases hagain with
        | none => exact repeats_stopWith _ s
        | some hwalk =>
          exact Repeats.bind (repeats_modify (walkAgain_after s next)) fun _ t _ => hwalk t

theorem repeats_walkRoutine (start : Nat) (r : Routine) (left : Nat) (s : State) :
    Repeats p parted Stop.GivesUp (walkRoutine cx start r left)
      (walkRoutine cx' start r left) s := by
  induction left generalizing s with
  | zero => exact (repeats_visitAll hcx start _ s).bind fun _ t _ => repeats_endWalk hcx .none t
  | succ left ih =>
    exact (repeats_visitAll hcx start _ s).bind fun _ t _ => repeats_endWalk hcx (.some ih) t

theorem repeats_routines (start : Nat) (rs : List Routine) (s : State) :
    Repeats p parted Stop.GivesUp (routines cx start rs) (routines cx' start rs) s := by
  induction rs generalizing start s with
  | nil => exact repeats_pure _
  | cons r rest ih =>
    have hroutine : Repeats p parted Stop.GivesUp (routine cx start r) (routine cx' start r) s :=
      Repeats.bind (repeats_modify rfl) fun _ t _ => repeats_walkRoutine hcx start r maxWalks t
    exact hroutine.bind fun _ t _ => ih _ t

theorem repeats_dropTable (s : State) :
    Repeats p parted Stop.GivesUp (dropTable cx) (dropTable cx') s := by
  refine repeats_get ?_
  rw [show (s.after p).table = s.table from rfl]
  cases s.table with
  | none => exact repeats_pure _
  | some table => exact Repeats.bind (repeats_modify rfl) fun _ t _ => repeats_recover hcx _ t

theorem repeats_dropVocabulary (s : State) :
    Repeats p parted Stop.GivesUp (dropVocabulary cx) (dropVocabulary cx') s := by
  refine repeats_get ?_
  rw [show (s.after p).vocabulary = s.vocabulary from rfl]
  cases s.vocabulary with
  | none => exact repeats_pure _
  | some block => exact Repeats.bind (repeats_modify rfl) fun _ t _ => repeats_recover hcx _ t

theorem repeats_lookBack (s : State) :
    Repeats p parted Stop.GivesUp (lookBack cx) (lookBack cx') s := by
  unfold lookBack
  rw [hcx.mode]
  cases cx.mode with
  | assembling =>
    refine repeats_get ?_
    rw [show (s.after p).fixups = s.fixups from rfl]
    dsimp only
    split
    · exact repeats_stopWith _ s
    · exact repeats_pure _
  | measuring =>
    have hresolves : (fun f : Fixup => f.resolves cx' (s.after p)) = fun f => f.resolves cx s := by
      funext f
      unfold Fixup.resolves
      rw [eval_view (view_after s p) hcx.toKin]
    refine repeats_modify ?_
    rw [hresolves]
    rfl

theorem repeats_pass (program : Program) (s : State) :
    Repeats p parted Stop.GivesUp (pass cx program) (pass cx' program) s := by
  have hend (t : State) : Repeats p parted Stop.GivesUp (endPass cx) (endPass cx') t := by
    rw [endPass_parts, endPass_parts]
    refine (repeats_dropTable hcx t).bind fun _ u _ =>
      (repeats_dropVocabulary hcx u).bind fun _ v _ => ?_
    exact repeats_lookBack hcx v
  unfold pass
  refine (repeats_visitAll hcx 0 _ s).bind fun _ t _ =>
    (repeats_routines hcx _ _ t).bind fun index u _ => ?_
  cases program.closing with
  | none => exact hend u
  | some n => exact (repeats_visit hcx index n u).bind fun _ v _ => hend v

end Steps

/-! ## Repeating a run -/

/-- The options of two runs agree but for the version and the error limit. -/
structure Agree (parted : Prop) (o o' : Options) : Prop where
  identity : o'.identity = o.identity
  collectText : o'.collectText = o.collectText
  limit : max o'.maxErrors 1 = max o.maxErrors 1 ∨ parted ∧ max o.maxErrors 1 ≤ max o'.maxErrors 1

section Runs

variable {parted : Prop} {o o' : Options} (ho : Agree parted o o') (p : Past) (program : Program)

theorem predefined_after (passes : Nat) : predefined.after passes = predefined := rfl

theorem restart_after (s : State) (v : Version) :
    (s.after p).restart v = (s.restart v).after p := by
  unfold State.restart State.after Counts.after
  dsimp only
  rw [Past.logOn_push, predefined_after]
  rfl

theorem finish_after (v : Version) (id : Story.Identity) (s : State) :
    Story.finish v id (s.after p) = Story.finish v id s := by
  have hword : Story.symbolWord (s.after p).globals = Story.symbolWord s.globals := by
    funext name
    unfold Story.symbolWord
    rw [show (s.after p).globals = s.globals.after p.counts.passes from rfl,
      SymbolTable.valueOf_after]
  unfold Story.finish Story.headerPatches
  rw [hword]
  rfl

include ho

theorem beginPass_after (s : State) (v : Version) (mode : Mode) :
    (s.after p).beginPass o' v mode = (s.beginPass o v mode).after p := by
  have hcounts :
      (s.counts.after p.counts).beginPass mode = (s.counts.beginPass mode).after p.counts := by
    cases mode <;> rfl
  unfold State.beginPass
  rw [ho.collectText, show (s.after p).counts = s.counts.after p.counts from rfl, hcounts]
  rfl

theorem repeats_onePass (v : Version) (mode : Mode) (s : State) :
    Repeats p parted Stop.GivesUp (onePass o program v mode) (onePass o' program v mode) s := by
  have hcx : Follows p parted (s.nextContext o v mode) ((s.after p).nextContext o' v mode) := by
    refine ⟨⟨rfl, rfl⟩, ?_, ho.limit⟩
    show ((s.after p).counts.beginPass mode).passes = _
    rfl
  refine (repeats_pass hcx program (s.beginPass o v mode)).congr rfl ?_
  rw [onePass_eq, beginPass_after ho]

theorem repeats_measure (v : Version) (left : Nat) (s : State) :
    Repeats p parted Stop.GivesUp (measure o program v left) (measure o' program v left) s := by
  induction left generalizing s with
  | zero => exact repeats_modify (log_after s rfl)
  | succ left ih =>
    refine (repeats_onePass ho p program v .measuring s).bind fun _ t _ => ?_
    refine Repeats.bind (repeats_modify (log_after t rfl)) fun _ u _ => repeats_get ?_
    rw [show (u.after p).changed = u.changed from rfl]
    split
    · exact ih u
    · exact repeats_pure _

theorem repeats_passes (v : Version) (s : State) :
    Repeats p parted Stop.GivesUp (passes o program v) (passes o' program v) s :=
  (repeats_measure ho p program v maxMeasuringPasses s).bind fun _ t _ =>
    repeats_onePass ho p program v .assembling t

theorem repeats_attempt (left : Nat) (tried : List Version) (v : Version) (s : State) :
    Repeats p parted Problem.GivesUp (attempt o program left tried v)
      (attempt o' program left tried v) s := by
  induction left using Nat.strongRecOn generalizing tried v s with
  | _ left ih =>
    rcases repeats_passes ho p program v s with heq | ⟨hparted, e, t, hpasses, count, rfl⟩
    · cases attemptEnd o program left tried v s with
      | done t hpasses =>
        rw [hpasses] at heq
        refine .inl ?_
        rw [attempt_of_ok hpasses, attempt_of_ok heq]
        rfl
      | failed problem t hpasses =>
        rw [hpasses] at heq
        refine .inl ?_
        rw [attempt_of_failed hpasses, attempt_of_failed heq]
        rfl
      | refused wanted t hrefused hpasses =>
        rw [hpasses] at heq
        refine .inl ?_
        rw [attempt_refused hpasses hrefused, attempt_refused heq hrefused]
        rfl
      | again wanted t rest hleft hnew hpasses =>
        subst hleft
        rw [hpasses] at heq
        refine (ih rest (Nat.lt_succ_self rest) (wanted :: tried) wanted (t.restart wanted)).congr
          (attempt_of_restart hpasses hnew) ?_
        rw [attempt_of_restart heq hnew, restart_after]
    · exact .inr ⟨hparted, _, t, attempt_of_failed hpasses, count, rfl⟩

theorem repeats_finishStory (v : Version) (s : State) :
    Repeats p parted Problem.GivesUp (finishStory o v) (finishStory o' v) s := by
  refine .inl ?_
  unfold finishStory
  rw [finish_after, ho.identity]
  dsimp only
  rw [show (s.after p).diagnostics = s.diagnostics from rfl, show (s.after p).image =
    s.image from rfl]
  split
  · rfl
  · split
    · rfl
    · exact congrArg (EStateM.Result.ok _) (log_after { s with handed := s.handed ++ s.debug } rfl)

theorem repeats_run (hv : o'.version = o.version) (s : State) :
    Repeats p parted Problem.GivesUp (run o program) (run o' program) s := by
  unfold run
  rw [hv]
  exact (repeats_attempt ho p program _ _ _ s).bind fun v t _ => repeats_finishStory ho p v t

end Runs

/-! ## The error limit -/

def Past.none : Past := ⟨{}, #[]⟩

theorem after_none (s : State) : s.after .none = s := by
  have hcounts : s.counts.after Past.none.counts = s.counts := by
    unfold Counts.after Past.none
    simp only [Nat.zero_add]
  have hlater : (fun event : Event => event.later 0 0) = id := by
    funext event
    cases event <;> simp [Event.later]
  have hlog : Past.none.logOn s.log = s.log := by
    unfold Past.logOn Past.none
    rw [hlater, Array.map_id, Array.empty_append]
  unfold State.after
  rw [hcounts, hlog, show Past.none.counts.passes = 0 from rfl, SymbolTable.after_zero]

end Assembly

open Assembly in
/-- The error limit matters only when it is hit: unless the run gives up at the limit, a greater
    limit gives the same outcome. -/
theorem limit_matters_when_hit (o : Options) (nodes : List Node) {m m' : Nat} (h : m ≤ m') :
    (assemble { o with maxErrors := m } nodes).result = .error (.tooManyErrors (max m 1)) ∨
      assemble { o with maxErrors := m' } nodes = assemble { o with maxErrors := m } nodes := by
  have hagree : Agree True { o with maxErrors := m } { o with maxErrors := m' } :=
    ⟨rfl, rfl, .inr ⟨trivial, by show max m 1 ≤ max m' 1; omega⟩⟩
  rcases repeats_run hagree .none (.ofNodes nodes) rfl (.initial o.version) with heq | ⟨-, e, t,
    hrun, count, rfl⟩
  · refine .inr ?_
    rw [after_none] at heq
    have hends :
        endAfter .none (run { o with maxErrors := m } (.ofNodes nodes) (.initial o.version)) =
        run { o with maxErrors := m } (.ofNodes nodes) (.initial o.version) := by
      cases run { o with maxErrors := m } (.ofNodes nodes) (.initial o.version) with
      | ok a t => exact congrArg (EStateM.Result.ok a) (after_none t)
      | error e t => exact congrArg (EStateM.Result.error e) (after_none t)
    rw [hends] at heq
    unfold assemble
    rw [heq]
  · refine .inl ?_
    have hfailing := (reports_run { o with maxErrors := m } nodes).of_error hrun
    rw [assemble_of_error hrun, hfailing.count_eq]

/-- Two ends of tables that were not begun. -/
def overended : List Node := [⟨.directive .endt, {}⟩, ⟨.directive .endt, {}⟩]

def overendedOptions : Options := { version := .v3, identity := { serial := "000000" } }

theorem overended_alike : 3 ≤ 9 ∧
    assemble { overendedOptions with maxErrors := 9 } overended =
      assemble { overendedOptions with maxErrors := 3 } overended ∧
    (assemble { overendedOptions with maxErrors := 2 } overended).result =
    .error (.tooManyErrors 2) := by
  have hcases := limit_matters_when_hit overendedOptions overended (show 3 ≤ 9 by decide)
  exact ⟨by decide, hcases.resolve_left (by decide +kernel), by decide +kernel⟩

end ZAssembler
