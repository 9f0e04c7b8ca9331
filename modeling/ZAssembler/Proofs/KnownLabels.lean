import ZAssembler.Proofs.Measuring

/-
  Labels before the assembling pass. A measuring pass takes no value from a global (`Valued`), and
  it gives a value to every global label that it reaches. It reaches every node of the preamble and
  of the routines, and one measuring pass at least goes before the assembling pass; so the
  assembling pass begins with a value for each of these labels (`labels_known_at_start`).
-/

namespace ZAssembler.Assembly

/-! ## What takes no value away -/

/-- A part of a pass in which no global loses its value. -/
structure Valued (cx : Context) (s t : State) : Prop extends Carried cx s t where
  known : ∀ name, (s.globals.valueOf name).isSome = true → (t.globals.valueOf name).isSome = true

section Valued

variable {cx : Context} {s t : State}

theorem valued_of_globals (hcarried : Carried cx s t) (h : t.globals = s.globals) : Valued cx s t :=
  ⟨hcarried, fun name hname => by rwa [h]⟩

theorem valued_of_core (h : t.core = s.core) : Valued cx s t :=
  valued_of_globals (carried_of_core h) (congrArg Core.globals h)

instance : Keeping Valued where
  refl _ _ := valued_of_core rfl
  trans hst htu :=
    ⟨hst.toCarried.trans htu.toCarried, fun name h => htu.known name (hst.known name h)⟩
  carried h := h.toCarried
  of_rest h := valued_of_core (congrArg Rest.toCore h)
  mention cx s name := by
    refine ⟨Keeping.mention cx s name, fun other h => ?_⟩
    rwa [valueOf_mention]
  moved cx s := valued_of_globals (Keeping.moved cx s) rfl
  inBlock _ h := valued_of_core h

instance : Following .level Valued where
  off h hs := off_level.mpr (h.changed (off_level.mp hs))
  level _ h := valued_of_core h

theorem valued_enterGlobal (name : String) {kind : SymbolKind} (hkind : kind ≠ .unknown)
    (value : Int32) (s : State) : Leaves (Valued cx) (enterGlobal cx name kind value) s := by
  refine leaves_of_ok (enterGlobal_eq cx name kind value s)
    ⟨⟨id, rfl, fun hs => ?_⟩, fun other h => ?_⟩
  · exact hs.define name kind value (Nat.lt_succ_self _)
  · by_cases heq : name = other
    · subst heq
      exact isSome_define s.globals name (s.site cx) value hkind
    · obtain ⟨-, old, hdefine⟩ | ⟨-, x, hx, hdefine⟩ :=
        define_cases s.globals name kind value (s.site cx)
      · rwa [hdefine]
      · rwa [hdefine, valueOf_entered hx hkind, if_neg heq]

theorem valued_noteChange (name : String) (old : Int32) (s : State) :
    Leaves (Valued cx) (noteChange cx name old) s := by
  have heq : noteChange cx name old s = _ := noteChange_eq name old s
  split at heq
  · exact leaves_of_ok heq (valued_of_core rfl)
  · exact leaves_of_ok heq (valued_of_core rfl)
  · have hjudge : Leaves (Valued cx) (judgeChange cx name old) s := kept_judgeChange name old s
    unfold Leaves final at hjudge ⊢
    rwa [heq]

/-- What follows the entry of a symbol in its definition. -/
theorem valued_entered (name : String) (result : Definition) (s : State) :
    Leaves (Valued cx) (match result with
      | .defined | .unchanged => pure ()
      | .changed old => noteChange cx name old
      | .duplicate kind => skip (.alreadyDefined kind name) : Step Unit) s := by
  cases result with
  | defined => exact leaves_pure () s
  | unchanged => exact leaves_pure () s
  | changed old => exact valued_noteChange name old s
  | duplicate kind => exact leaves_skip _ s

/-- What follows the entry of a label in an open block. -/
theorem valued_joined (name : String) (label : VocabularyLabel) (result : Definition) (s : State) :
    Leaves (Valued cx) (match result with
      | .duplicate kind => skip (.alreadyDefined kind name)
      | _ => modify fun s =>
        { s with vocabulary := s.vocabulary.map fun v =>
          { v with labels := v.labels ++ [label] } } : Step Unit) s := by
  cases result with
  | duplicate kind => exact leaves_skip _ s
  | _ => exact leaves_modify (valued_of_core rfl)

theorem valued_defineGlobal (name : String) {kind : SymbolKind} (hkind : kind ≠ .unknown)
    (value : Int32) (s : State) : Leaves (Valued cx) (defineGlobal cx name kind value) s :=
  (valued_enterGlobal name hkind value s).bind fun result t _ => valued_entered name result t

theorem valued_globalLabel (name : String) (s : State) :
    Leaves (Valued cx) (globalLabel cx name) s := by
  unfold globalLabel
  refine leaves_get ?_
  dsimp only
  split
  · exact valued_defineGlobal name (by decide) _ s
  · exact (valued_enterGlobal name (by decide) _ s).bind fun result t _ =>
      valued_joined name _ result t

theorem valued_relocateLabel (v : OpenVocabulary) (order : List Nat) (label : VocabularyLabel)
    (s : State) : Leaves (Valued cx) (relocateLabel cx v order label) s := by
  unfold relocateLabel
  refine Leaves.bind (leaves_modify ⟨⟨id, rfl, fun hs => hs.relocate _ _⟩, fun name h => ?_⟩)
    fun _ t _ => ?_
  · exact isSome_relocateAll (Vocabulary.relocate v.start v.recordSize order) [label] s.globals h
  · split
    · exact valued_noteChange _ _ t
    · exact leaves_pure _ t

theorem valued_settleFixup (f : Fixup) (s : State) : Leaves (Valued cx) (settleFixup cx f) s := by
  have happly : Leaves (Valued cx) (applyFixup cx f) s := by
    refine Leaves.bind (kept_evaluate f.expr s) fun r t _ => ?_
    split
    · exact leaves_pure _ t
    · dsimp only
      split
      · exact Leaves.bind (leaves_modify (valued_of_core rfl)) fun _ u _ => leaves_pure _ u
      · exact leaves_pure _ t
  refine happly.bind fun applied t _ => ?_
  cases applied with
  | false => exact leaves_modify (valued_of_core rfl)
  | true => exact leaves_pure _ t

theorem valued_settleBlock (v : OpenVocabulary) (order : List Nat) (finish : Nat) (s : State) :
    Leaves (Valued cx) (settleBlock cx v order finish) s := by
  refine Leaves.bind (leaves_forM _ _ (fun label _ t => valued_relocateLabel v order label t) s)
    fun _ t _ => leaves_get ?_
  refine Leaves.bind (leaves_modify (valued_of_core rfl)) fun _ u _ => ?_
  refine Leaves.bind (leaves_forM _ _ (fun f _ t => valued_settleFixup f t) u) fun _ w _ => ?_
  exact leaves_forM _ _ (fun change _ t => valued_noteChange change.1 change.2 t) w

theorem valued_closeVocabulary (s : State) : Leaves (Valued cx) (closeVocabulary cx) s := by
  have hpair : Pairing cx { cx with mode := .assembling } := ⟨rfl, rfl⟩
  have hlevel : InStep .level NoName Kept cx { cx with mode := .assembling } (closeVocabulary cx)
      (closeVocabulary { cx with mode := .assembling }) := level_closeVocabulary hpair
  refine ⟨(hlevel.kept s).toCarried, fun name hname => ?_⟩
  cases hv : s.vocabulary with
  | none =>
    have hskip : closeVocabulary cx s = .error (.skip .vocabularyNotOpen) s := by
      unfold closeVocabulary
      rw [get_bind, hv]
      rfl
    rwa [final_of_error hskip]
  | some v =>
    obtain ⟨t, harranged, heq⟩ := closeVocabulary_arranges cx hv
    have hsettle : Leaves (Valued cx) (settleBlock cx v (s.blockOrder v) s.image.cursor) t :=
      valued_settleBlock v _ _ t
    have hknown := hsettle.known name
    rw [harranged.globals] at hknown
    unfold final at hknown ⊢
    rw [heq]
    exact hknown hname

end Valued

/-! ## Measuring passes -/

section Measuring

variable {cx : Context} (hm : cx.mode = .measuring) {s t : State}

/-- The context of an assembling pass that goes along. -/
def Context.abreast (cx : Context) : Context := { cx with mode := .assembling }

include hm

theorem passing_valued : Passing .level Valued cx cx.abreast := by
  have hpair : Pairing cx cx.abreast := ⟨rfl, rfl⟩
  have hdefining {known : String → Prop} : Defining .level known Valued cx cx.abreast :=
    ⟨hpair, fun name kind hkind value => ⟨valued_defineGlobal name hkind value,
        (level_defineGlobal hpair name kind value).run⟩,
      fun name => ⟨valued_globalLabel name, (level_globalLabel hpair name).run⟩,
      ⟨valued_closeVocabulary, (level_closeVocabulary hpair).run⟩⟩
  refine ⟨hpair, hm, ?_, fun _ _ _ => valued_of_core rfl,
    fun _ => kept_closeRoutine fun u hu => valued_of_core hu.core⟩
  exact inStep_reads hdefining (fun _ _ h => h) fun _ _ h =>
    valued_of_globals h.carried (congrArg Core.globals h.core)

omit hm in
theorem meets_level (xs : List Arrival) : Outlook.level.Meets xs := fun _ hk => nomatch hk

theorem visitAll_valued (nodes : List Node) (index : Nat) (s : State) :
    Leaves (Valued cx) (visitAll cx index nodes) s :=
  (abreast_visitAll (passing_valued hm) nodes index s).kept (meets_level _)

theorem routines_valued (rs : List Routine) (start : Nat) (hs : s.scope = none) :
    Leaves (Valued cx) (routines cx start rs) s :=
  (abreast_routines (passing_valued hm) rs start hs).kept (meets_level _)

theorem pass_valued (program : Program) (hs : s.scope = none) (h : pass cx program s = .ok () t) :
    Valued cx s t := by
  rw [pass_eq] at h
  obtain ⟨⟨⟩, u, hbody, hend⟩ := bind_ok h
  have hkept := (abreast_passBody (passing_valued hm) program hs).kept (meets_level _)
  rw [lookBack_measuring hm hend]
  exact Keeping.trans (hkept.of_ok hbody) ⟨⟨fun hu => by simp [hu], rfl, id⟩, fun _ => id⟩

/-! ## Labels that are reached -/

/-- The global has a value afterwards. -/
def Known (name : String) (_ t : State) : Prop := (t.globals.valueOf name).isSome = true

omit hm in
/-- Entering a global gives it a value, and what follows does not take it away. -/
theorem known_of_enter (name : String) {kind : SymbolKind} (hkind : kind ≠ .unknown) (value : Int32)
    {f : Definition → Step Unit} (hf : ∀ result t, Leaves (Valued cx) (f result) t) (s : State) :
    Leaves (Known name) (enterGlobal cx name kind value >>= f) s := by
  unfold Leaves
  rw [final_bind (enterGlobal_eq cx name kind value s)]
  exact (hf _ _).known name (isSome_define s.globals name (s.site cx) value hkind)

omit hm in
theorem known_globalLabel (name : String) (s : State) :
    Leaves (Known name) (globalLabel cx name) s := by
  unfold globalLabel
  refine leaves_get ?_
  dsimp only
  split
  · exact known_of_enter name (by decide) _ (fun result t => valued_entered name result t) s
  · exact known_of_enter name (by decide) _ (fun result t => valued_joined name _ result t) s

omit hm in
theorem visit_gives_label {index : Nat} {n : Node} {name : String} (hn : n.kind = .globalLabel name)
    (h : visit cx index n s = .ok () t) : (t.globals.valueOf name).isSome = true := by
  have hnode : node cx n = globalLabel cx name := node_globalLabel hn
  have hrest := rest_runStep cx (node cx n) (s.reach index n)
  have hfinal : final (runStep cx (node cx n)) (s.reach index n) = t := final_of_ok h
  rw [hfinal, hnode] at hrest
  have hglobals : t.globals = (final (globalLabel cx name) (s.reach index n)).globals :=
    congrArg (·.globals) hrest
  rw [hglobals]
  exact known_globalLabel name _

/-- The nodes have given a value to each of their labels. -/
def LabelsGiven (nodes : List Node) (s : State) : Prop :=
  ∀ n ∈ nodes, ∀ name, n.kind = .globalLabel name → (s.globals.valueOf name).isSome = true

omit hm in
theorem LabelsGiven.valued {nodes : List Node} (hs : LabelsGiven nodes s) (h : Valued cx s t) :
    LabelsGiven nodes t :=
  fun n hn name hk => h.known name (hs n hn name hk)

theorem visitAll_gives_labels {nodes : List Node} {index : Nat}
    (h : visitAll cx index nodes s = .ok () t) : LabelsGiven nodes t := by
  induction nodes generalizing index s with
  | nil => exact fun n hn => nomatch hn
  | cons n rest ih =>
    obtain ⟨⟨⟩, u, hvisit, hrest⟩ := bind_ok h
    intro m hm' name hk
    rcases List.mem_cons.mp hm' with rfl | hmem
    · exact ((visitAll_valued hm rest (index + 1) u).of_ok hrest).known name
        (visit_gives_label hk hvisit)
    · exact ih hrest m hmem name hk

theorem walkRoutine_gives_labels {start : Nat} {r : Routine} {left : Nat}
    (h : walkRoutine cx start r left s = .ok () t) : LabelsGiven r.nodes t := by
  have hend {again : Option (Pass Unit)} {u : State} (hu : LabelsGiven r.nodes u)
      (h : endWalk cx again u = .ok () t)
      (hagain : ∀ walk v, again = some walk → walk v = .ok () t → LabelsGiven r.nodes t) :
      LabelsGiven r.nodes t := by
    rcases endWalk_cases h with ⟨-, rfl⟩ | ⟨scope, hscope, -, hclose⟩ |
      ⟨scope, next, walk, -, -, -, hwalk, ht⟩
    · exact hu
    · exact hu.valued (((passing_valued hm).leave hscope).of_ok hclose)
    · exact hagain walk _ hwalk ht
  induction left generalizing s with
  | zero =>
    obtain ⟨⟨⟩, u, hvisits, hwalk⟩ := bind_ok h
    exact hend (visitAll_gives_labels hm hvisits) hwalk fun walk v hnone => nomatch hnone
  | succ left ih =>
    obtain ⟨⟨⟩, u, hvisits, hwalk⟩ := bind_ok h
    refine hend (visitAll_gives_labels hm hvisits) hwalk fun walk v hsome hv => ?_
    cases hsome
    exact ih hv

theorem routines_give_labels {rs : List Routine} {start next : Nat}
    (h : routines cx start rs s = .ok next t) : LabelsGiven (rs.flatMap Routine.nodes) t := by
  induction rs generalizing start s with
  | nil => exact fun n hn => nomatch hn
  | cons r rest ih =>
    obtain ⟨⟨⟩, u, hroutine, hrest⟩ := bind_ok h
    obtain ⟨⟨⟩, v, -, hwalk⟩ := bind_ok hroutine
    have hvalued := (routines_valued hm rest _ (walkRoutine_outside hwalk)).of_ok hrest
    intro n hn name hk
    rw [List.flatMap_cons] at hn
    rcases List.mem_append.mp hn with hn | hn
    · exact hvalued.known name (walkRoutine_gives_labels hm hwalk n hn name hk)
    · exact ih hrest n hn name hk

/-- A measuring pass that comes to its end gives every label of its program a value. -/
theorem pass_gives_labels {program : Program} (hs : s.scope = none)
    (h : pass cx program s = .ok () t) : LabelsGiven program.nodes t := by
  have hdrop (u : State) : Leaves (Valued cx) (dropTable cx >>= fun _ => dropVocabulary cx) u :=
    (inStep_dropTable.bind fun _ => inStep_dropVocabulary :
      InStep .level NoName Valued cx cx.abreast _ _).kept u
  rw [pass_eq] at h
  obtain ⟨⟨⟩, w, hbody, hend⟩ := bind_ok h
  rw [lookBack_measuring hm hend]
  obtain ⟨⟨⟩, u, hpreamble, hbody⟩ := bind_ok hbody
  obtain ⟨index, v, hroutines, hbody⟩ := bind_ok hbody
  have hends : Valued cx v w := by
    cases hclosing : program.closing with
    | none =>
      rw [hclosing] at hbody
      exact (hdrop v).of_ok hbody
    | some n =>
      rw [hclosing] at hbody
      have hvisit := (abreast_visit (passing_valued hm) index n v).kept (meets_level _)
      exact (hvisit.bind fun _ x _ => hdrop x).of_ok hbody
  have hvalued :=
    (routines_valued hm program.routines _ (visitAll_outside hs hpreamble)).of_ok hroutines
  intro n hn name hk
  rcases List.mem_append.mp hn with hn | hn
  · exact hends.known name (hvalued.known name (visitAll_gives_labels hm hpreamble n hn name hk))
  · exact hends.known name (routines_give_labels hm hroutines n hn name hk)

end Measuring

/-! ## The passes of a run -/

section Run

variable {o : Options} {program : Program} {v : Version}

theorem begun_outside (s : State) (mode : Mode) : (s.beginPass o v mode).scope = none := by
  simp only [State.beginPass]

theorem begun_globals (s : State) (mode : Mode) : (s.beginPass o v mode).globals = s.globals := by
  simp only [State.beginPass]

/-- Measuring takes no value away. -/
theorem measure_keeps_known {left : Nat} {s u : State} (h : measure o program v left s = .ok () u)
    {name : String} (hname : (s.globals.valueOf name).isSome = true) :
    (u.globals.valueOf name).isSome = true := by
  induction left generalizing s with
  | zero =>
    cases h
    exact hname
  | succ left ih =>
    obtain ⟨t, hpass, hend⟩ := measure_succ h
    rw [onePass_eq] at hpass
    rw [← begun_globals (o := o) (v := v) s .measuring] at hname
    have ht := (pass_valued rfl program (begun_outside s .measuring) hpass).known name hname
    rcases hend with ⟨-, rfl⟩ | ⟨-, hrest⟩
    · exact ht
    · exact ih hrest ht

/-- When measuring ends, every label has a value. -/
theorem measure_gives_labels {left : Nat} {s u : State}
    (h : measure o program v (left + 1) s = .ok () u) : LabelsGiven program.nodes u := by
  obtain ⟨t, hpass, hend⟩ := measure_succ h
  rw [onePass_eq] at hpass
  have ht := pass_gives_labels rfl (begun_outside s .measuring) hpass
  rcases hend with ⟨-, rfl⟩ | ⟨-, hrest⟩
  · exact ht
  · exact fun n hn name hk => measure_keeps_known hrest (ht n hn name hk)

theorem labels_known_of_assembling {s : State} {p : FinalPass}
    (h : assemblingPass? o program v s = some p) : LabelsGiven p.program.nodes p.start := by
  unfold assemblingPass? at h
  split at h
  · cases h
  · next t hmeasure =>
    have hlabels : LabelsGiven program.nodes t := measure_gives_labels hmeasure
    dsimp only at h
    split at h
    · cases h
      intro n hn name hk
      rw [begun_globals]
      exact hlabels n hn name hk
    · cases h

/-- The pass that makes the story begins with a value for every label of the program. -/
theorem labels_known_at_start {left : Nat} {tried : List Version} {s : State} {p : FinalPass}
    (h : attemptPass? o program left tried v s = some p) : LabelsGiven p.program.nodes p.start := by
  induction left generalizing tried v s with
  | zero =>
    unfold attemptPass? at h
    split at h
    · exact labels_known_of_assembling h
    · cases h
    · split at h
      · next hleft _ => cases hleft
      · cases h
  | succ left ih =>
    unfold attemptPass? at h
    split at h
    · exact labels_known_of_assembling h
    · cases h
    · split at h
      · next hleft _ =>
        cases hleft
        exact ih h
      · cases h

end Run

end ZAssembler.Assembly
