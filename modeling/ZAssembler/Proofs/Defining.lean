import ZAssembler.Proofs.Twin

/-
  Definitions in step. What an expression is worth, and what the definition of a global does, is the
  same in both passes. Where they begin with the same symbols, this includes the vocabulary blocks,
  which move their labels. Where the assembling pass knows before how the globals end, a definition
  with another value puts the measuring pass off: it holds the global to that value until its end.
-/

namespace ZAssembler.Assembly

open Halting

section Steps

variable {α : Type} {k : Outlook} {known : String → Prop} {R : Context → State → State → Prop}
  [Following k R] {cm ca : Context}

omit [Following k R] in
theorem not_goesOn_abort (p : Problem) : ¬ goesOn (Interrupt.abort p) := by
  rintro ⟨q, h⟩
  cases h

theorem inStep_skip (p : Problem) : InStep k known R cm ca (skip p : Step α) (skip p) :=
  ⟨leaves_skip p, fun _ _ h => .error _ ⟨p, rfl⟩ rfl rfl h⟩

theorem inStep_abort (p : Problem) : InStep k known R cm ca (abort p : Step α) (abort p) :=
  ⟨leaves_abort p, fun _ _ _ => .lost _ (not_goesOn_abort p) rfl⟩

omit [Following k R] in
/-- The assembling pass stops for another reason than that a value has changed. -/
theorem stopped_abort {mm ma : Step α} {m a a' : State} {p : Problem}
    (ha : ma a = .error (.abort p) a') (hp : ∀ old new name, p ≠ .valueChanged old new name) :
    Paired k known cm ca mm ma m a := by
  refine .stopped (.abort p) (not_goesOn_abort p) ha ?_
  rintro ⟨old, new, name, h⟩
  cases h
  exact absurd rfl (hp old new name)

/-! ## Diagnostics and bytes -/

theorem inStep_report (severity : Severity) (problem : Problem) :
    InStep k known R cm ca (modify (·.report severity problem) : Step Unit)
      (modify (·.report severity problem)) :=
  inStep_modify id (fun _ => rfl) (fun _ => rfl) (fun _ => rfl) (fun _ => rfl)

theorem inStep_logEvent (event event' : Event) :
    InStep k known R cm ca (logEvent event) (logEvent event') :=
  inStep_modify id (fun _ => rfl) (fun _ => rfl) (fun _ => rfl) (fun _ => rfl)

theorem inStep_warn (problem : Problem) :
    InStep k known R cm ca (warn cm problem) (warn ca problem) := by
  refine ⟨fun s => ?_, fun m a h => ?_⟩
  · obtain ⟨log, hs⟩ := warn_eq cm problem s
    exact leaves_of_ok hs (Keeping.of_rest rfl)
  · obtain ⟨_, hm⟩ := warn_eq cm problem m
    obtain ⟨_, ha⟩ := warn_eq ca problem a
    exact .ok () hm ha (h.of_rest h.layout rfl rfl)

theorem inStep_reportError (problem : Problem) :
    InStep k known R cm ca (reportError cm problem) (reportError ca problem) := by
  refine (inStep_report .error problem).bind fun _ => ⟨fun s => leaves_get ?_, fun m a h => ?_⟩
  · split
    · exact leaves_abort _ s
    · exact leaves_pure _ s
  · cases hm : m.tooManyErrors? cm with
    | some tooMany => exact .lost _ (not_goesOn_abort tooMany) (by rw [get_bind, hm]; rfl)
    | none =>
      cases ha : a.tooManyErrors? ca with
      | none => exact .ok () (by rw [get_bind, hm]; rfl) (by rw [get_bind, ha]; rfl) h
      | some tooMany =>
        refine stopped_abort (p := tooMany) (by rw [get_bind, ha]; rfl) ?_
        rintro old new name rfl
        simp [State.tooManyErrors?] at ha

theorem inStep_position : InStep k known R cm ca position position := by
  refine inStep_get fun m a h => ?_
  rw [show a.image.cursor = m.image.cursor from congrArg (·.image.cursor) h]
  exact inStep_pure _

theorem inStep_store (bytes : List UInt8) : InStep k known R cm ca (store bytes) (store bytes) :=
  inStep_modify (fun l => { l with image := l.image.store bytes }) (fun _ => rfl) (fun _ => rfl)
    (fun _ => rfl) (fun _ => rfl)

theorem inStep_collectText (text : String) :
    InStep k known R cm ca (collectText text) (collectText text) :=
  inStep_modify id (fun _ => rfl) (fun _ => rfl) (fun _ => rfl) (fun _ => rfl)

theorem inStep_addFixup (f : Fixup) : InStep k known R cm ca (addFixup f) (addFixup f) :=
  inStep_modify (fun l => { l with fixups := l.fixups.push f }) (fun _ => rfl) (fun _ => rfl)
    (fun _ => rfl) (fun _ => rfl)

/-! ## Values of expressions -/

omit [Following k R] in
theorem kept_evaluate [Keeping R] (e : Expr) (s : State) : Leaves (R cm) (evaluate cm e) s := by
  unfold evaluate
  refine leaves_get ?_
  split
  · refine Leaves.bind (leaves_modify (Keeping.mention cm s _)) fun _ t _ => ?_
    exact leaves_pure _ t
  · exact leaves_pure _ s
  · exact leaves_abort _ s
  · exact leaves_skip _ s

omit [Following k R] in
theorem Pairing.scoping_final (hc : Pairing cm ca) (a : State) : (a.scoping ca).final = true := by
  simp [State.scoping, hc.mode]

theorem inStep_evaluate (hc : Pairing cm ca) {e : Expr} (hsees : k.Sees known e) :
    InStep k known R cm ca (evaluate cm e) (evaluate ca e) := by
  refine ⟨kept_evaluate e, fun m a h => ?_⟩
  have hsc := hc.scoping_final a
  rcases Expr.eval_of_final hsc e fun name hname =>
    h.meaning (hsees.knows hname) with ⟨heq, hknown⟩ | ⟨⟨name, hundefined⟩, -⟩
  · cases heval : e.eval (m.scoping cm) with
    | ok r =>
      cases r with
      | known kind value =>
        exact .ok (.known kind value) (by rw [evaluate_get, heval]; rfl)
          (by rw [evaluate_get, heq, heval]; rfl) h
      | unknown name => exact absurd heval (hknown name)
    | error error =>
      cases error with
      | undefined name =>
        exact .lost (.abort (.expression (.undefined name))) (not_goesOn_abort _)
          (by rw [evaluate_get, heval]; rfl)
      | notAddable kind =>
        exact .error (.skip (.expression (.notAddable kind))) ⟨_, rfl⟩
          (by rw [evaluate_get, heval]; rfl) (by rw [evaluate_get, heq, heval]; rfl) h
      | notVariable name =>
        exact .error (.skip (.expression (.notVariable name))) ⟨_, rfl⟩
          (by rw [evaluate_get, heval]; rfl) (by rw [evaluate_get, heq, heval]; rfl) h
  · exact stopped_abort (p := .expression (.undefined name)) (by rw [evaluate_get, hundefined]; rfl)
      fun _ _ _ h => nomatch h

/-! ## Judging a change -/

omit [Following k R] in
theorem kept_judgeChange [Keeping R] (name : String) (old : Int32) (s : State) :
    Leaves (R cm) (judgeChange cm name old) s := by
  unfold judgeChange
  refine leaves_get ?_
  split
  · exact leaves_pure _ s
  · split
    · exact leaves_pure _ s
    · split
      · refine Leaves.bind (leaves_modify (Keeping.of_rest rfl)) fun _ t _ => ?_
        exact leaves_modify (Keeping.moved cm t)
      · exact leaves_abort _ s

omit [Following k R] in
theorem Twin.valueOf {m a : State} (h : Twin k known cm ca m a) {name : String}
    (hname : k = .level ∨ (m.globals.valueOf name).isSome = true) :
    a.globals.valueOf name = m.globals.valueOf name := by
  rcases h.globals name with hmatch | ⟨-, ending, rfl, hpending⟩
  · exact hmatch.valueOf
  · rcases hname with hk | hname
    · cases hk
    · obtain ⟨value, hvalue⟩ := Option.isSome_iff_exists.mp hname
      rw [hvalue]
      exact hpending.value value hvalue

omit [Following k R] in
/-- A global that has moved stops the assembling pass, and the measuring pass notes it. -/
theorem paired_judgeChange (hc : Pairing cm ca) {m a : State} (h : Twin k known cm ca m a)
    {name : String} (hname : k = .level ∨ (m.globals.valueOf name).isSome = true) (old : Int32) :
    Paired k known cm ca (judgeChange cm name old) (judgeChange ca name old) m a := by
  have hm : judgeChange cm name old m = _ := judgeChange_get name old m
  have ha := judgeChange_eq hc.mode name old a
  rw [h.valueOf hname] at ha
  cases hvalue : m.globals.valueOf name with
  | none =>
    rw [hvalue] at hm ha
    exact .ok () hm ha h
  | some new =>
    rw [hvalue] at hm ha
    dsimp only at hm ha
    by_cases hsame : new = old
    · rw [if_pos hsame] at hm ha
      exact .ok () hm ha h
    · rw [if_neg hsame] at hm ha
      cases hmode : cm.mode with
      | assembling =>
        rw [hmode] at hm
        exact .lost _ (not_goesOn_abort _) hm
      | measuring =>
        rw [hmode] at hm
        refine .stopped _ (not_goesOn_abort _) ha fun _ => .inl ?_
        unfold final
        rw [hm]
        rfl

end Steps

theorem plain_defer (scope : RoutineScope) (name : String) (old : Int32) :
    (scope.defer name old).plain = scope.plain.defer name old := by
  unfold RoutineScope.defer
  show _ = if scope.deferred.any (·.1 == name) then _ else _
  split <;> rfl

/-! ## Passes that begin with the same symbols -/

section Level

variable {known : String → Prop} {cm ca : Context} (hc : Pairing cm ca)

include hc

omit hc in
theorem level_enterGlobal (name : String) (kind : SymbolKind) (value : Int32) :
    InStep .level known Kept cm ca (enterGlobal cm name kind value)
      (enterGlobal ca name kind value) := by
  refine ⟨fun s => ?_, fun m a h => ?_⟩
  · refine leaves_of_ok (enterGlobal_eq cm name kind value s) ⟨⟨id, rfl, fun hs => ?_⟩, rfl, rfl⟩
    exact hs.define name kind value (Nat.lt_succ_self _)
  · have hindex : a.index = m.index := congrArg Layout.index h.layout
    obtain ⟨hresult, hglobals⟩ := h.globals.define (h.matching name) kind value m.index
    have ha := enterGlobal_eq ca name kind value a
    have hsite : a.site ca = ⟨ca.pass, m.index⟩ := by
      unfold State.site
      rw [hindex]
    rw [hsite, hresult] at ha
    exact .ok _ (enterGlobal_eq cm name kind value m) ha ⟨h.layout, hglobals, h.still, .inl rfl⟩

theorem level_noteChange (name : String) (old : Int32) :
    InStep .level known Kept cm ca (noteChange cm name old) (noteChange ca name old) := by
  rw [noteChange_modify, noteChange_modify]
  refine inStep_get fun m a h => ?_
  rw [show a.vocabulary = m.vocabulary from congrArg Layout.vocabulary h]
  cases m.vocabulary with
  | some v =>
    exact inStep_modifyLevel (fun l => { l with vocabulary := some (v.defer name old) })
      (fun _ => rfl) (fun _ => rfl) (fun _ => rfl) (fun _ => rfl)
  | none =>
    obtain ⟨hm, ha⟩ | ⟨x, y, hm, ha, hxy⟩ := scope_cases h
    · rw [hm, ha]
      exact ⟨kept_judgeChange name old, fun m a htwin => paired_judgeChange hc htwin (.inl rfl) old⟩
    · rw [hm, ha]
      have hscope : (y.defer name old).plain = (x.defer name old).plain := by
        rw [plain_defer, plain_defer, hxy]
      exact inStep_modifyLevel (fun l => { l with scope := some (x.defer name old).plain })
        (fun _ => rfl) (fun _ => by rw [← hscope]; rfl) (fun _ => rfl) (fun _ => rfl)

theorem level_defineGlobal (name : String) (kind : SymbolKind) (value : Int32) :
    InStep .level known Kept cm ca (defineGlobal cm name kind value)
      (defineGlobal ca name kind value) := by
  refine (level_enterGlobal name kind value).bind fun result => ?_
  cases result with
  | defined => exact inStep_pure _
  | unchanged => exact inStep_pure _
  | changed old => exact level_noteChange hc name old
  | duplicate kind => exact inStep_skip _

theorem level_placeLabel (name : String) (seen : Nat × Option OpenVocabulary × Option Int32) :
    InStep .level known Kept cm ca
      (match seen.2.1 with
        | none => defineGlobal cm name .label (Int32.ofNat seen.1)
        | some _ => do
          match ← enterGlobal cm name .label (Int32.ofNat seen.1) with
          | .duplicate kind => skip (.alreadyDefined kind name)
          | _ =>
            let label : VocabularyLabel := { name, position := seen.1, previous := seen.2.2 }
            modify fun s =>
              { s with vocabulary := s.vocabulary.map fun v =>
                { v with labels := v.labels ++ [label] } })
      (match seen.2.1 with
        | none => defineGlobal ca name .label (Int32.ofNat seen.1)
        | some _ => do
          match ← enterGlobal ca name .label (Int32.ofNat seen.1) with
          | .duplicate kind => skip (.alreadyDefined kind name)
          | _ =>
            let label : VocabularyLabel := { name, position := seen.1, previous := seen.2.2 }
            modify fun s =>
              { s with vocabulary := s.vocabulary.map fun v =>
                { v with labels := v.labels ++ [label] } }) := by
  obtain ⟨here, block, previous⟩ := seen
  cases block with
  | none => exact level_defineGlobal hc name .label _
  | some v =>
    refine (level_enterGlobal name .label _).bind fun result => ?_
    have hjoins : InStep .level known Kept cm ca
        (modify fun s => { s with vocabulary := s.vocabulary.map fun v =>
          { v with labels := v.labels ++ [⟨name, here, previous⟩] } } : Step Unit)
        (modify fun s => { s with vocabulary := s.vocabulary.map fun v =>
          { v with labels := v.labels ++ [⟨name, here, previous⟩] } }) :=
      inStep_modifyLevel (fun l => { l with vocabulary := l.vocabulary.map fun v =>
        { v with labels := v.labels ++ [⟨name, here, previous⟩] } }) (fun _ => rfl) (fun _ => rfl)
        (fun _ => rfl) (fun _ => rfl)
    cases result with
    | duplicate kind => exact inStep_skip _
    | defined => exact hjoins
    | unchanged => exact hjoins
    | changed old => exact hjoins

theorem level_globalLabel (name : String) :
    InStep .level known Kept cm ca (globalLabel cm name) (globalLabel ca name) := by
  have hseen : ∀ m a, Twin .level known cm ca m a →
      (a.image.cursor, a.vocabulary, a.globals.valueOf name) =
      (m.image.cursor, m.vocabulary, m.globals.valueOf name) := by
    intro m a h
    rw [show a.vocabulary = m.vocabulary from congrArg Layout.vocabulary h.layout,
      show a.image = m.image from congrArg Layout.image h.layout, (h.matching name).valueOf]
  have hread := inStep_read hseen (level_placeLabel hc name)
  exact hread

theorem level_applyFixup (f : Fixup) :
    InStep .level known Kept cm ca (applyFixup cm f) (applyFixup ca f) := by
  refine (inStep_evaluate hc (.inl rfl)).bind fun r => ?_
  cases r with
  | unknown name => exact inStep_pure _
  | known kind value =>
    dsimp only
    split
    · refine InStep.bind (inStep_modify (fun l => { l with image := l.image.patch _ _ })
        (fun _ => rfl) (fun _ => rfl) (fun _ => rfl) (fun _ => rfl)) fun _ => inStep_pure _
    · exact inStep_pure _

theorem level_relocateLabel (v : OpenVocabulary) (order : List Nat) (label : VocabularyLabel) :
    InStep .level known Kept cm ca (relocateLabel cm v order label)
      (relocateLabel ca v order label) := by
  have hmove : ∀ value, InStep .level known Kept cm ca
      (modify fun s => { s with globals := s.globals.relocate label.name value } : Step Unit)
      (modify fun s => { s with globals := s.globals.relocate label.name value }) := by
    intro value
    refine ⟨fun s => leaves_modify ⟨⟨id, rfl, fun hs => hs.relocate _ _⟩, rfl, rfl⟩,
      fun m a h => ?_⟩
    exact .ok () rfl rfl ⟨h.layout, fun other => .inl (h.matching.relocate _ _ other),
      h.still, .inl rfl⟩
  refine (hmove _).bind fun _ => ?_
  cases label.previous with
  | none => exact inStep_pure _
  | some old => exact level_noteChange hc _ old

theorem level_settleFixup (f : Fixup) :
    InStep .level known Kept cm ca (settleFixup cm f) (settleFixup ca f) := by
  refine (level_applyFixup hc f).bind fun applied => ?_
  cases applied with
  | false => exact inStep_addFixup f
  | true => exact inStep_pure _

theorem level_settleBlock (v : OpenVocabulary) (order : List Nat) (finish : Nat) :
    InStep .level known Kept cm ca (settleBlock cm v order finish)
      (settleBlock ca v order finish) := by
  refine (inStep_forM fun label _ => level_relocateLabel hc v order label).bind fun _ => ?_
  refine inStep_get fun m a h => ?_
  rw [show a.fixups = m.fixups from congrArg Layout.fixups h]
  refine InStep.bind (inStep_modify (fun l => { l with fixups := l.fixups.take v.fixupStart })
    (fun _ => rfl) (fun _ => rfl) (fun _ => rfl) (fun _ => rfl)) fun _ => ?_
  refine (inStep_forM fun f _ => level_settleFixup hc f).bind fun _ => ?_
  exact inStep_forM fun change _ => level_noteChange hc change.1 change.2

theorem level_closeVocabulary :
    InStep .level known Kept cm ca (closeVocabulary cm) (closeVocabulary ca) := by
  have harrange : ∀ (v : OpenVocabulary) (order : List Nat) (bytes : List UInt8) (finish : Nat),
      InStep .level known Kept cm ca
        (do
          modify fun s : State => { s with image := s.image.patch v.start bytes }
          logEvent (.vocabularySorted order.length v.start)
          settleBlock cm v order finish : Step Unit)
        (do
          modify fun s : State => { s with image := s.image.patch v.start bytes }
          logEvent (.vocabularySorted order.length v.start)
          settleBlock ca v order finish) := by
    intro v order bytes finish
    refine InStep.bind (inStep_modify (fun l => { l with image := l.image.patch v.start bytes })
      (fun _ => rfl) (fun _ => rfl) (fun _ => rfl) (fun _ => rfl)) fun _ => ?_
    exact (inStep_logEvent _ _).bind fun _ => level_settleBlock hc v order finish
  rw [closeVocabulary_modify, closeVocabulary_modify]
  refine inStep_get fun m a h => ?_
  rw [show a.vocabulary = m.vocabulary from congrArg Layout.vocabulary h,
    show a.image = m.image from congrArg Layout.image h]
  cases m.vocabulary with
  | none => exact inStep_skip _
  | some v =>
    refine InStep.bind (inStep_modifyLevel (fun l => { l with vocabulary := none }) (fun _ => rfl)
      (fun _ => rfl) (fun _ => rfl) (fun _ => rfl)) fun _ => ?_
    dsimp only
    split
    · exact (inStep_warn _).bind fun _ => harrange v _ _ _
    · exact harrange v _ _ _

end Level

/-! ## A measuring pass without blocks -/

section Measured

theorem mem_putOff {changes : List (String × Int32)} {name : String} {old : Int32}
    {change : String × Int32} (h : change ∈ putOff changes name old) :
    change ∈ changes ∨ change = (name, old) := by
  unfold putOff at h
  split at h
  · exact .inl h
  · simpa using h

variable {cx : Context} {s : State} {name : String}

/-- A change waits for the end of the routine. -/
theorem State.Orderly.defer (hs : s.Orderly) {scope : RoutineScope} (hscope : s.scope = some scope)
    (hname : (s.globals.valueOf name).isSome = true) (old : Int32) :
    ({ s with scope := some (scope.defer name old) } : State).Orderly := by
  refine ⟨hs.shut, fun changes hchanges change hchange => ?_⟩
  rw [Option.map_some, deferred_defer] at hchanges
  cases hchanges
  rcases mem_putOff hchange with hchange | rfl
  · exact hs.valued _ (by rw [hscope]; rfl) change hchange
  · exact hname

/-- The oldest value of a global is the one that it is held to. -/
theorem State.Orderly.heldTo_defer (hs : s.Orderly) {scope : RoutineScope}
    (hscope : s.scope = some scope) (hname : (s.globals.valueOf name).isSome = true) (old : Int32)
    (other : String) :
    ({ s with scope := some (scope.defer name old) } : State).heldTo other =
      if name = other then (scope.deferred.lookup other).or (some old) else s.heldTo other := by
  rw [(hs.defer hscope hname old).heldTo, hs.heldTo, hscope, Option.map_some, Option.map_some,
    Option.bind_some, Option.bind_some, deferred_defer, lookup_putOff]
  split
  · rw [Option.or_assoc, Option.some_or]
  · rfl

theorem noteChange_judged {u : State} (hshut : u.vocabulary = none) (hscope : u.scope = none)
    (old : Int32) : noteChange cx name old u = judgeChange cx name old u := by
  rw [noteChange_eq, hshut, hscope]

theorem noteChange_deferred {u : State} (hshut : u.vocabulary = none) {scope : RoutineScope}
    (hscope : u.scope = some scope) (old : Int32) :
    noteChange cx name old u = .ok () { u with scope := some (scope.defer name old) } := by
  rw [noteChange_eq, hshut, hscope]

/-- A measuring pass notes a value that has changed, and goes on. -/
theorem judgeChange_moved (hm : cx.mode = .measuring) {u : State} {old new : Int32}
    (hnew : u.globals.valueOf name = some new) (hne : new ≠ old) :
    ∃ log, judgeChange cx name old u = .ok () { u with log, changed := true } := by
  rw [judgeChange_get, hnew, hm]
  dsimp only
  rw [if_neg hne]
  exact ⟨_, rfl⟩

/-- A global that is defined with another value is judged, or held to its old one. -/
theorem held_noteChange (hm : cx.mode = .measuring) (hs : s.Orderly) {u : State} (hu : u.Orderly)
    (hscope : u.scope = s.scope) {old new : Int32} (hold : s.globals.valueOf name = some old)
    (hnew : u.globals.valueOf name = some new) (hne : new ≠ old)
    (hothers : ∀ other, name ≠ other → u.heldTo other = s.heldTo other) :
    (final (noteChange cx name old) u).Orderly ∧
    ((final (noteChange cx name old) u).changed = true ∨
      ∀ other held, s.heldTo other = some held →
      (final (noteChange cx name old) u).heldTo other = some held) := by
  cases hcase : u.scope with
  | none =>
    obtain ⟨log, hjudge⟩ := judgeChange_moved hm hnew hne
    rw [final_of_ok ((noteChange_judged hu.shut hcase old).trans hjudge)]
    exact ⟨⟨hu.shut, hu.valued⟩, .inl rfl⟩
  | some scope =>
    have hsome : (u.globals.valueOf name).isSome = true := by rw [hnew]; rfl
    rw [final_of_ok (noteChange_deferred hu.shut hcase old)]
    refine ⟨hu.defer hcase hsome old, .inr fun other held hheld => ?_⟩
    rw [hu.heldTo_defer hcase hsome old other]
    split
    · next heq =>
      subst heq
      rw [hs.heldTo, ← hscope, hcase, hold] at hheld
      exact hheld
    · next hother => rwa [hothers other hother]

variable {kind : SymbolKind} {value : Int32} {site : Site} {x : Symbol}
    (hx : Entered x name kind value site)
  (hkind : kind ≠ .unknown)

include hx hkind

theorem valueOf_entered (t : SymbolTable) (other : String) :
    (t.put x).valueOf other = if name = other then some value else t.valueOf other := by
  rw [valueOf_put t x (hx.kind ▸ hkind), hx.name, hx.value]

theorem State.Orderly.put (hs : s.Orderly) :
    ({ s with globals := s.globals.put x } : State).Orderly := by
  refine ⟨hs.shut, fun changes hchanges change hchange => ?_⟩
  rw [valueOf_entered hx hkind]
  split
  · rfl
  · exact hs.valued changes hchanges change hchange

/-- Globals other than the one that is defined are held to what they were. -/
theorem State.Orderly.heldTo_put (hs : s.Orderly) (other : String) :
    ({ s with globals := s.globals.put x } : State).heldTo other =
      if name = other then ((s.scope.map RoutineScope.deferred).bind (·.lookup other)).or
        (some value)
      else s.heldTo other := by
  rw [(hs.put hx hkind).heldTo, hs.heldTo, valueOf_entered hx hkind]
  split <;> rfl

omit hx

/-- A definition gives a value to a global that has none, or the global stays held to its old
    one. -/
theorem steady_defineGlobal (name : String) (value : Int32) (s : State) :
    Leaves (Steady cx) (defineGlobal cx name kind value) s := by
  have hpair : Pairing cx { cx with mode := .assembling } := ⟨rfl, rfl⟩
  have hlevel : InStep .level (fun _ => True) Kept cx { cx with mode := .assembling }
      (defineGlobal cx name kind value)
      (defineGlobal { cx with mode := .assembling } name kind value) :=
    level_defineGlobal hpair name kind value
  refine ⟨(hlevel.kept s).toCarried, fun hm hs => ?_⟩
  have henter := enterGlobal_eq cx name kind value s
  obtain ⟨-, refused, hdefine⟩ | ⟨-, x, hx, hdefine⟩ :=
    define_cases s.globals name kind value (s.site cx)
  · rw [hdefine] at henter
    have hskip :
        defineGlobal cx name kind value s = .error (.skip (.alreadyDefined refused name)) s :=
      bind_of_ok henter
    rw [final_of_error hskip]
    exact ⟨hs, .inr fun _ _ => id⟩
  · rw [hdefine] at henter
    cases hold : s.globals.valueOf name with
    | none =>
      rw [hold] at henter
      have hdone :
          defineGlobal cx name kind value s = .ok () { s with globals := s.globals.put x } :=
        bind_of_ok henter
      rw [final_of_ok hdone]
      refine ⟨hs.put hx hkind, .inr fun other held hheld => ?_⟩
      rw [hs.heldTo_put hx hkind]
      split
      · next heq =>
        subst heq
        rw [hs.heldTo, hold, Option.or_none] at hheld
        rw [hheld]
        rfl
      · exact hheld
    | some old =>
      rw [hold] at henter
      by_cases hsame : old = value
      · have hdone :
            defineGlobal cx name kind value s = .ok () { s with globals := s.globals.put x } := by
          refine (bind_of_ok henter).trans ?_
          simp only [report, if_pos hsame]
          rfl
        rw [final_of_ok hdone]
        refine ⟨hs.put hx hkind, .inr fun other held hheld => ?_⟩
        rw [hs.heldTo_put hx hkind]
        split
        · next heq =>
          subst heq
          rw [hs.heldTo, hold, hsame] at hheld
          exact hheld
        · exact hheld
      · have hdone : defineGlobal cx name kind value s =
            noteChange cx name old { s with globals := s.globals.put x } := by
          refine (bind_of_ok henter).trans ?_
          simp only [report, if_neg hsame]
        have hnoted :=
          held_noteChange (u := { s with globals := s.globals.put x }) hm hs (hs.put hx hkind)
          rfl hold ((valueOf_entered hx hkind s.globals name).trans (if_pos rfl)) (Ne.symm hsame)
          fun other hother => (hs.heldTo_put hx hkind other).trans (if_neg hother)
        unfold final at hnoted ⊢
        rwa [hdone]

end Measured

/-! ## Passes of which the second knows how the first ends -/

section Ahead

variable {ending : String → Option (SymbolKind × Int32)} {known : String → Prop} {name : String}
  {kind : SymbolKind}

/-- A pending name gets the value that the assembling pass knows, or the passes part. -/
theorem Pending.define {p q : Nat} {g h : SymbolTable} (hp : Pending ending p q g h name)
    (kind : SymbolKind) (value : Int32) (node : Nat) :
    MatchingAt p q (g.define name kind value ⟨p, node⟩).2 (h.define name kind value ⟨q, node⟩).2
      name ∧ ((h.define name kind value ⟨q, node⟩).1 = (g.define name kind value ⟨p, node⟩).1 ∨
        g.valueOf name = none ∧ (g.define name kind value ⟨p, node⟩).1 = .defined ∧
          ((h.define name kind value ⟨q, node⟩).1 = .unchanged ∨ (ending name).map Prod.snd ≠
            some value)) := by
  have hends : h.valueOf name = (ending name).map Prod.snd := by
    rw [← hp.ends, Option.map_map]
    rfl
  obtain ⟨htaken, -⟩ | ⟨-, x, hx, hg⟩ := define_cases g name kind value ⟨p, node⟩
  · obtain ⟨x, hdefined, other, hsite, -⟩ := (taken_iff _ _ _).mp htaken
    exact absurd hsite (hp.fresh x other hdefined)
  obtain ⟨htaken, -⟩ | ⟨-, y, hy, hh⟩ := define_cases h name kind value ⟨q, node⟩
  · obtain ⟨y, hdefined, other, hsite, -⟩ := (taken_iff _ _ _).mp htaken
    exact absurd hsite (hp.fresh' y other hdefined)
  have hmatch : MatchingAt p q (g.put x) (h.put y) x.name :=
    matchingAt_put (hy.name.trans hx.name.symm) (alike_entered hx hy)
  rw [hg, hh]
  refine ⟨hx.name ▸ hmatch, ?_⟩
  cases hvalue : g.valueOf name with
  | some old => exact .inl (by rw [hp.value old hvalue])
  | none =>
    rw [← hends]
    cases hknown : h.valueOf name with
    | none => exact .inl rfl
    | some known =>
      refine .inr ⟨rfl, rfl, ?_⟩
      by_cases hsame : known = value
      · exact .inl (by simp [report, hsame])
      · exact .inr (by simp [hsame])

theorem valueOf_define {t : SymbolTable} (site : Site) {value : Int32} (hkind : kind ≠ .unknown)
    (hfree : (t.define name kind value site).1 = .defined) :
    (t.define name kind value site).2.valueOf name = some value := by
  obtain ⟨-, refused, heq⟩ | ⟨-, x, hx, heq⟩ := define_cases t name kind value site
  · rw [heq] at hfree
    cases hfree
  · rw [heq, valueOf_entered hx hkind, if_pos rfl]

theorem isSome_define (t : SymbolTable) (name : String) (site : Site) (value : Int32)
    (hkind : kind ≠ .unknown) : ((t.define name kind value site).2.valueOf name).isSome = true := by
  obtain ⟨htaken, -⟩ | ⟨-, x, hx, heq⟩ := define_cases t name kind value site
  · obtain ⟨x, hx, heq⟩ := define_of_taken htaken kind value
    rw [heq, valueOf_eq, hx]
    rfl
  · rw [heq, valueOf_entered hx hkind, if_pos rfl]
    rfl

variable {cm ca : Context} (hc : Pairing cm ca)

include hc

theorem paired_noteChange {m a : State} (h : Twin (.ahead ending) known cm ca m a)
    (hname : (m.globals.valueOf name).isSome = true) (old : Int32) :
    Paired (.ahead ending) known cm ca (noteChange cm name old) (noteChange ca name old) m a := by
  have hm : m.Orderly := h.orderly_of_ahead
  have hshut : a.vocabulary = none := (congrArg Layout.vocabulary h.layout).trans hm.shut
  obtain ⟨hmscope, hascope⟩ | ⟨x, y, hmscope, hascope, hxy⟩ := scope_cases h.layout
  · exact (paired_judgeChange hc h (.inr hname) old).congr (noteChange_judged hm.shut hmscope old)
      (noteChange_judged hshut hascope old)
  · refine .ok () (noteChange_deferred hm.shut hmscope old)
      (noteChange_deferred hshut hascope old) ?_
    refine h.of_core ?_ rfl rfl (.inr (hm.defer hmscope hname old))
    show ({ a.layout with scope := some (y.defer name old).plain } : Layout) =
      { m.layout with scope := some (x.defer name old).plain }
    rw [h.layout, plain_defer, plain_defer, hxy]

omit hc in
theorem State.Orderly.enter {s : State} (hs : s.Orderly) (hkind : kind ≠ .unknown) (value : Int32)
    (site : Site) :
    ({ s with globals := (s.globals.define name kind value site).2 } : State).Orderly := by
  obtain ⟨-, refused, heq⟩ | ⟨-, x, hx, heq⟩ := define_cases s.globals name kind value site
  · rw [heq]
    exact hs
  · rw [heq]
    exact hs.put hx hkind

/-- What a definition does when the globals have been entered. -/
theorem paired_entered {m a : State} (h : Twin (.ahead ending) known cm ca m a)
    (hname : (m.globals.valueOf name).isSome = true) (result : Definition) :
    Paired (.ahead ending) known cm ca
      (match result with
        | .defined | .unchanged => pure ()
        | .changed old => noteChange cm name old
        | .duplicate kind => skip (.alreadyDefined kind name))
      (match result with
        | .defined | .unchanged => pure ()
        | .changed old => noteChange ca name old
        | .duplicate kind => skip (.alreadyDefined kind name)) m a := by
  cases result with
  | defined => exact .ok () rfl rfl h
  | unchanged => exact .ok () rfl rfl h
  | changed old => exact paired_noteChange hc h hname old
  | duplicate kind => exact .error _ ⟨_, rfl⟩ rfl rfl h

theorem ahead_defineGlobal (hmode : cm.mode = .measuring) (name : String) (hkind : kind ≠ .unknown)
    (value : Int32) : InStep (.ahead ending) known Steady cm ca (defineGlobal cm name kind value)
      (defineGlobal ca name kind value) := by
  refine ⟨steady_defineGlobal hkind name value, fun m a h => ?_⟩
  have hm : m.Orderly := h.orderly_of_ahead
  have hmenter := enterGlobal_eq cm name kind value m
  have haenter := enterGlobal_eq ca name kind value a
  have hsite : a.site ca = ⟨ca.pass, m.index⟩ := by
    unfold State.site
    rw [show a.index = m.index from congrArg Layout.index h.layout]
  rw [hsite] at haenter
  have htwin (hglobals : (Outlook.ahead ending).Agree known cm.pass ca.pass
      (m.globals.define name kind value (m.site cm)).2
      (a.globals.define name kind value ⟨ca.pass, m.index⟩).2) :
      Twin (.ahead ending) known cm ca
        { m with globals := (m.globals.define name kind value (m.site cm)).2 }
        { a with globals := (a.globals.define name kind value ⟨ca.pass, m.index⟩).2 } :=
    ⟨h.layout, hglobals, h.still, .inr (hm.enter hkind value (m.site cm))⟩
  have hname := isSome_define m.globals name (m.site cm) value hkind
  rcases h.globals name with hmatch | ⟨-, _, ⟨⟩, hpending⟩
  · obtain ⟨hresult, hglobals⟩ := h.globals.define hmatch kind value m.index
    rw [hresult] at haenter
    exact (paired_entered hc (htwin hglobals) hname _).congr (bind_of_ok hmenter)
      (bind_of_ok haenter)
  · obtain ⟨hmatch, hresult⟩ := hpending.define kind value m.index
    have hglobals := h.globals.enter hmatch
    rcases hresult with hresult | ⟨hnone, hdefined, hresult⟩
    · rw [hresult] at haenter
      exact (paired_entered hc (htwin hglobals) hname _).congr (bind_of_ok hmenter)
        (bind_of_ok haenter)
    · have hvalue := valueOf_define (m.site cm) hkind hdefined
      rw [show (m.globals.define name kind value (m.site cm)).1 = .defined from hdefined] at hmenter
      rcases hresult with hresult | hne
      · rw [hresult] at haenter
        exact .ok () (bind_of_ok hmenter) (bind_of_ok haenter) (htwin hglobals)
      · refine .off (fun hk => by cases hk) (.inr ⟨ending, rfl, hmode, ?_⟩)
        have hdone : defineGlobal cm name kind value m =
            .ok () { m with globals := (m.globals.define name kind value (m.site cm)).2 } :=
          bind_of_ok hmenter
        rw [final_of_ok hdone]
        refine ⟨hm.enter hkind value (m.site cm), name, value, ?_, hne⟩
        rw [(hm.enter hkind value (m.site cm)).heldTo, hvalue]
        exact congrArg (·.or (some value)) (hm.waits hnone)

omit hc in
theorem globalLabel_outside {s : State} (hshut : s.vocabulary = none) (cx : Context)
    (name : String) :
    globalLabel cx name s = defineGlobal cx name .label (Int32.ofNat s.image.cursor) s := by
  unfold globalLabel
  rw [get_bind]
  dsimp only
  rw [hshut]

theorem ahead_globalLabel (hmode : cm.mode = .measuring) (name : String) :
    InStep (.ahead ending) known Steady cm ca (globalLabel cm name) (globalLabel ca name) := by
  refine ⟨fun s => ?_, fun m a h => ?_⟩
  · cases hblock : s.vocabulary with
    | none =>
      have hdefine :
          Leaves (Steady cm) (defineGlobal cm name .label (Int32.ofNat s.image.cursor)) s :=
        steady_defineGlobal (by decide) name _ s
      unfold Leaves final at hdefine ⊢
      rwa [globalLabel_outside hblock]
    | some v =>
      have hlevel : InStep .level known Kept cm ca (globalLabel cm name) (globalLabel ca name) :=
        level_globalLabel hc name
      have hkept := hlevel.kept s
      exact steady_of_block hkept.toCarried (by simp [hblock])
  · have hm : m.Orderly := h.orderly_of_ahead
    have hshut : a.vocabulary = none := (congrArg Layout.vocabulary h.layout).trans hm.shut
    have ha := globalLabel_outside hshut ca name
    rw [show a.image = m.image from congrArg Layout.image h.layout] at ha
    have hdefine : InStep (.ahead ending) known Steady cm ca
        (defineGlobal cm name .label (Int32.ofNat m.image.cursor))
        (defineGlobal ca name .label (Int32.ofNat m.image.cursor)) :=
      ahead_defineGlobal hc hmode name (by decide) _
    exact (hdefine.run m a h).congr (globalLabel_outside hm.shut cm name) ha

omit hc in
theorem closeVocabulary_outside {s : State} (hshut : s.vocabulary = none) (cx : Context) :
    closeVocabulary cx s = .error (.skip .vocabularyNotOpen) s := by
  unfold closeVocabulary
  rw [get_bind, hshut]
  rfl

theorem ahead_closeVocabulary :
    InStep (.ahead ending) known Steady cm ca (closeVocabulary cm) (closeVocabulary ca) := by
  refine ⟨fun s => ?_, fun m a h => ?_⟩
  · cases hblock : s.vocabulary with
    | none => exact leaves_of_error (closeVocabulary_outside hblock cm) (Keeping.refl cm s)
    | some v =>
      have hlevel : InStep .level known Kept cm ca (closeVocabulary cm) (closeVocabulary ca) :=
        level_closeVocabulary hc
      have hkept := hlevel.kept s
      exact steady_of_block hkept.toCarried (by simp [hblock])
  · have hm : m.Orderly := h.orderly_of_ahead
    have hshut : a.vocabulary = none := (congrArg Layout.vocabulary h.layout).trans hm.shut
    exact .error _ ⟨_, rfl⟩ (closeVocabulary_outside hm.shut cm)
      (closeVocabulary_outside hshut ca) h

end Ahead

/-! ## Both outlooks -/

/-- Passes in which definitions are in step. -/
structure Defining (k : Outlook) (known : String → Prop) (R : Context → State → State → Prop)
    (cm ca : Context) : Prop extends Pairing cm ca where
  define (name : String) {kind : SymbolKind} (hkind : kind ≠ .unknown) (value : Int32) :
    InStep k known R cm ca (defineGlobal cm name kind value) (defineGlobal ca name kind value)
  label (name : String) : InStep k known R cm ca (globalLabel cm name) (globalLabel ca name)
  close : InStep k known R cm ca (closeVocabulary cm) (closeVocabulary ca)

section Defining

variable {known : String → Prop} {cm ca : Context}

theorem defining_level (hc : Pairing cm ca) : Defining .level known Kept cm ca :=
  ⟨hc, fun name kind _ value => level_defineGlobal hc name kind value, level_globalLabel hc,
    level_closeVocabulary hc⟩

theorem defining_ahead (hc : Pairing cm ca) (hm : cm.mode = .measuring)
    (ending : String → Option (SymbolKind × Int32)) : Defining (.ahead ending) known Steady cm ca :=
  ⟨hc, fun name _ hkind value => ahead_defineGlobal hc hm name hkind value, ahead_globalLabel hc hm,
    ahead_closeVocabulary hc⟩

end Defining

end ZAssembler.Assembly
