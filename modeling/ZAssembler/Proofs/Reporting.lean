import ZAssembler.Proofs.Invariant

/-
  What the diagnostics say of the outcome. While a pass goes on, none of its diagnostics is fatal
  and fewer than the limit are errors (`Tolerable`); a walk that is taken back leaves the first of
  them. A pass that fails reports its problem as its one fatal diagnostic, and nothing after it
  (`Fatal`). A run can fail later than that, when errors were reported or the story is too long;
  then no diagnostic is fatal.
-/

namespace ZAssembler

/-! ## Lists of diagnostics -/

theorem isError_iff (d : Diagnostic) : d.isError = true ↔ d.severity ≠ .warning := bne_iff_ne

theorem errorCount_append (ds es : List Diagnostic) :
    errorCount (ds ++ es) = errorCount ds + errorCount es :=
  List.countP_append

theorem errorCount_eq_zero {ds : List Diagnostic} : errorCount ds = 0 ↔
    ∀ d ∈ ds, d.severity = .warning := by
  unfold errorCount
  rw [List.countP_eq_zero]
  refine forall₂_congr fun d _ => ?_
  rw [isError_iff, not_not]

/-- None is fatal, and fewer than `limit` are errors. -/
structure Tolerable (limit : Nat) (ds : List Diagnostic) : Prop where
  notFatal : ∀ d ∈ ds, d.severity ≠ .fatal
  errors : errorCount ds < limit

/-- None is fatal, and the errors may have reached the limit: what there is when `problem` ends the
    work. -/
structure Ending (limit : Nat) (problem : Problem) (ds : List Diagnostic) : Prop where
  notFatal : ∀ d ∈ ds, d.severity ≠ .fatal
  errors : errorCount ds ≤ limit
  /-- The problem of too many errors gives their number. -/
  count : ∀ count, problem = .tooManyErrors count → count = limit

/-- The last one is fatal and tells of `problem`. -/
def Fatal (limit : Nat) (problem : Problem) (ds : List Diagnostic) : Prop :=
  ∃ (front : List Diagnostic) (location : Option Location),
    ds = front ++ [{ severity := .fatal, problem, location }] ∧ Ending limit problem front

theorem notFatal_push {ds : Array Diagnostic} (h : ∀ d ∈ ds.toList, d.severity ≠ .fatal)
    {e : Diagnostic} (he : e.severity ≠ .fatal) :
    ∀ d ∈ (ds.push e).toList, d.severity ≠ .fatal := by
  rw [Array.toList_push]
  exact List.forall_mem_append.mpr ⟨h, List.forall_mem_singleton.mpr he⟩

section Tolerable

variable {limit : Nat} {ds : List Diagnostic}

theorem tolerable_nil (h : 0 < limit) : Tolerable limit [] :=
  ⟨fun _ hd => absurd hd List.not_mem_nil, h⟩

theorem Tolerable.take (h : Tolerable limit ds) (count : Nat) : Tolerable limit (ds.take count) :=
  ⟨fun d hd => h.notFatal d (List.mem_of_mem_take hd),
    Nat.lt_of_le_of_lt ((List.take_sublist count ds).countP_le) h.errors⟩

theorem Tolerable.ending (h : Tolerable limit ds) {problem : Problem}
    (hproblem : problem.isTooManyErrors = false) : Ending limit problem ds := by
  refine ⟨h.notFatal, Nat.le_of_lt h.errors, fun count hcount => ?_⟩
  rw [hcount] at hproblem
  cases hproblem

end Tolerable

namespace Assembly

variable {α : Type}

/-! ## Steps -/

/-- What is reported when a step is interrupted. -/
def Interrupt.Reports (limit : Nat) : Interrupt → State → Prop
  | .abort problem, s => Ending limit problem s.diagnostics.toList
  | .skip _, s => Tolerable limit s.diagnostics.toList
  | .restart _, s => Tolerable limit s.diagnostics.toList

/-- What is reported when a pass stops. -/
def Stop.Reports (limit : Nat) : Stop → State → Prop :=
  Stop.Meets (fun w => Tolerable limit w.diagnostics)
    fun problem s => Fatal limit problem s.diagnostics.toList

/-- The work of a node reports as it should. -/
def StepReports (limit : Nat) (m : Step α) (s : State) : Prop :=
  Tolerable limit s.diagnostics.toList →
    Ends (fun _ t => Tolerable limit t.diagnostics.toList) (Interrupt.Reports limit) m s

/-- The work of a pass reports as it should. -/
def PassReports (limit : Nat) (m : Pass α) (s : State) : Prop :=
  Tolerable limit s.diagnostics.toList →
    Ends (fun _ t => Tolerable limit t.diagnostics.toList) (Stop.Reports limit) m s

theorem Apart.diagnostics {f : State → State} (h : Apart f) (s : State) :
    (f s).diagnostics = s.diagnostics :=
  (congrArg State.diagnostics (h s s.globals s.diagnostics s.log s.counts s.handed) :)

section Reporting

variable {cx : Context} {s : State}

theorem tolerable_warning (problem : Problem) {limit : Nat}
    (h : Tolerable limit s.diagnostics.toList) :
    Tolerable limit (s.report .warning problem).diagnostics.toList := by
  refine ⟨notFatal_push h.notFatal Severity.noConfusion, ?_⟩
  unfold State.report
  rw [Array.toList_push, errorCount_append]
  exact h.errors

/-- An error more is tolerable, or it is the last one. -/
theorem report_error (cx : Context) (problem : Problem)
    (h : Tolerable cx.errorLimit s.diagnostics.toList) :
    match (s.report .error problem).tooManyErrors? cx with
    | none => Tolerable cx.errorLimit (s.report .error problem).diagnostics.toList
    | some tooMany =>
      Ending cx.errorLimit tooMany (s.report .error problem).diagnostics.toList := by
  have hfatal : ∀ d ∈ (s.report .error problem).diagnostics.toList, d.severity ≠ .fatal :=
    notFatal_push h.notFatal Severity.noConfusion
  have hcount := errorCount_report s problem
  have hlimit := h.errors
  unfold State.tooManyErrors?
  dsimp only
  by_cases hmany : cx.errorLimit ≤ errorCount (s.report .error problem).diagnostics.toList
  · rw [if_pos hmany]
    refine ⟨hfatal, by omega, fun count htoo => ?_⟩
    have hcount' := Problem.tooManyErrors.inj htoo
    omega
  · rw [if_neg hmany]
    exact ⟨hfatal, Nat.lt_of_not_le hmany⟩

theorem reports_warn (problem : Problem) : StepReports cx.errorLimit (warn cx problem) s := by
  intro h
  unfold warn
  split
  · exact tolerable_warning problem h
  · exact tolerable_warning problem h

theorem reports_reportError (problem : Problem) :
    StepReports cx.errorLimit (reportError cx problem) s := by
  intro h
  have herror := report_error cx problem h
  unfold Ends reportError
  rw [modify_bind, get_bind]
  cases hmany : (s.report .error problem).tooManyErrors? cx with
  | none =>
    rw [hmany] at herror
    exact herror
  | some tooMany =>
    rw [hmany] at herror
    exact herror

theorem reports_modify {limit : Nat} {f : State → State}
    (h : (f s).diagnostics = s.diagnostics) : StepReports limit (modify f) s := by
  intro hs
  show Tolerable _ _
  rw [h]
  exact hs

/-- The work of any node reports as it should. -/
theorem Work.reports {n : Node} {a : Nat} {cx' : Context} {g : Extent} {s : State} {m m' : Step α}
    (h : Work n a cx cx' g s m m') : StepReports cx.errorLimit m s := by
  induction h with
  | pure x => exact id
  | skip problem => exact id
  | abort problem hproblem => exact fun hs => hs.ending hproblem
  | restart version _ => exact id
  | bind _ _ ihm ihf => exact fun hs => (ihm hs).bind fun x t hx ht => ihf x t hx ht
  | read _ ih => exact ih _ rfl
  | update hapart _ _ => exact reports_modify (hapart.diagnostics _)
  | part hapart _ => exact reports_modify (hapart.diagnostics _)
  | mention name _ => exact id
  | enter name kind value => exact id
  | relocate name value => exact id
  | log event _ _ => exact id
  | group _ _ ih => exact ih
  | warn _ problem => exact reports_warn problem
  | reportError problem => exact reports_reportError problem

/-! ## Passes -/

theorem ends_stopWith {limit : Nat} {Q : Unit → State → Prop} {problem : Problem}
    (h : Ending limit problem s.diagnostics.toList) :
    Ends Q (Stop.Reports limit) (stopWith problem) s :=
  ⟨s.diagnostics.toList, s.location, Array.toList_push, h⟩

theorem reports_recover (problem : Problem) : PassReports cx.errorLimit (recover cx problem) s := by
  intro h
  have herror := report_error cx problem h
  unfold Ends recover
  rw [modify_bind, get_bind]
  cases hmany : (s.report .error problem).tooManyErrors? cx with
  | none =>
    rw [hmany] at herror
    exact herror
  | some tooMany =>
    rw [hmany] at herror
    exact ends_stopWith (Q := fun _ _ => True) herror

theorem reports_runStep {step : Step Unit} (h : StepReports cx.errorLimit step s) :
    PassReports cx.errorLimit (runStep cx step) s := by
  intro hs
  have hstep := h hs
  unfold Ends
  rw [runStep_eq]
  cases hrun : step s with
  | ok a t => exact hstep.of_ok hrun
  | error i t =>
    have hi := hstep.of_error hrun
    cases i with
    | skip problem => exact reports_recover problem hi
    | abort problem => exact ends_stopWith (Q := fun _ _ => True) hi
    | restart version => exact hi

/-- A pass reports as it should. -/
theorem invariant_reports (cx : Context) :
    Invariant cx (fun _ => True) (fun w => Tolerable cx.errorLimit w.diagnostics)
      (Stop.Reports cx.errorLimit) where
  visit index n s _ hs :=
    reports_runStep (s := s.reach index n) (node_work (.refl cx) n _).reports hs
  judge changes s hs := reports_runStep (work_judgeAll (.refl cx) changes s).reports hs
  recover problem _ hs := reports_recover problem hs
  stop _ s hproblem hs := ⟨s.diagnostics.toList, s.location, Array.toList_push, hs.ending hproblem⟩
  rewind _ count hds := hds.take count

end Reporting

/-! ## Records that are handed on -/

/-- The same records are handed on. -/
def SameHanded (s t : State) : Prop := t.handed = s.handed

instance : Std.Refl SameHanded where
  refl _ := rfl

instance : IsTrans State SameHanded where
  trans _ _ _ hst htu := htu.trans hst

/-- No node hands a record on. -/
theorem Work.hands_nothing {n : Node} {a : Nat} {cx cx' : Context} {g : Extent} {s : State}
    {m m' : Step α} (h : Work n a cx cx' g s m m') : Leaves SameHanded m s :=
  h.untouched.imp fun _ ht => ht.handed

section HandedOn

variable {cx : Context} {records : Array DebugRecord} {s : State}

theorem ends_of_sameHanded {ε : Type} {m : EStateM ε State α} (h : Leaves SameHanded m s)
    (hs : s.handed = records) :
    Ends (fun _ t => t.handed = records) (fun _ t => t.handed = records) m s := by
  unfold Ends
  cases hm : m s with
  | ok a t => exact (h.of_ok hm).trans hs
  | error e t => exact (h.of_error hm).trans hs

/-- A pass hands no records on. -/
theorem invariant_handed (cx : Context) (records : Array DebugRecord) :
    Invariant cx (fun _ => True) (fun w => w.handed = records) (fun _ t => t.handed = records) where
  visit index n s _ hs := ends_of_sameHanded (s := s.reach index n)
    (leaves_runStep cx (fun _ _ _ => rfl) (node_work (.refl cx) n _).hands_nothing) hs
  judge changes s hs := ends_of_sameHanded
    (leaves_runStep cx (fun _ _ _ => rfl) (work_judgeAll (.refl cx) changes s).hands_nothing) hs
  recover problem s hs := ends_of_sameHanded (leaves_recover cx (fun _ _ _ => rfl) problem s) hs
  stop _ _ _ hs := hs
  rewind _ _ hw := hw

theorem handed_attempt (o : Options) (nodes : List Node) (hs : s.handed = records) (left : Nat)
    (tried : List Version) (v : Version) :
    Ends (fun _ t => t.handed = records) (fun _ t => t.handed = records)
      (attempt o (.ofNodes nodes) left tried v) s := by
  refine ends_attempt (I := fun w => w.handed = records) (fun v mode t ht => ?_)
    (fun _ _ _ ht => ht)
    left tried v hs
  have hbegin : (t.beginPass o v mode).told.handed = records := by
    rw [told_beginPass]
    exact ht
  have hpass := (invariant_handed (t.nextContext o v mode) records).pass (s := t.beginPass o v mode)
    hbegin (fun (n : Node) (_ : n ∈ nodes) => trivial)
  exact (hpass.imp fun e _ he => by cases e <;> exact he).congr (onePass_eq o _ v mode t)

end HandedOn

/-! ## Runs -/

/-- What is reported when a run fails with `problem`. -/
inductive Failing (limit : Nat) (problem : Problem) (ds : List Diagnostic) : Prop
  | fatal (h : Fatal limit problem ds)
  /-- The passes came to their ends, but there are errors. -/
  | errors (hproblem : problem.isTooManyErrors = false) (hfatal : ∀ d ∈ ds, d.severity ≠ .fatal)
    (hpos : 0 < errorCount ds) (hlimit : errorCount ds ≤ limit)

section Runs

variable (o : Options) (nodes : List Node)

theorem reports_onePass (v : Version) (mode : Mode) (s : State) :
    PassReports (max o.maxErrors 1) (onePass o (.ofNodes nodes) v mode) s := by
  intro _
  have hbegin : Tolerable (max o.maxErrors 1) (s.beginPass o v mode).diagnostics.toList :=
    tolerable_nil (Nat.le_max_right _ _)
  exact (invariant_reports (s.nextContext o v mode)).pass (s := s.beginPass o v mode) hbegin
    fun _ _ => trivial

theorem reports_attempt (left : Nat) (tried : List Version) (v : Version) {s : State}
    (hs : Tolerable (max o.maxErrors 1) s.diagnostics.toList) :
    Ends (fun _ t => Tolerable (max o.maxErrors 1) t.diagnostics.toList)
      (fun problem t => Fatal (max o.maxErrors 1) problem t.diagnostics.toList)
      (attempt o (.ofNodes nodes) left tried v) s :=
  ends_attempt (I := fun w => Tolerable (max o.maxErrors 1) w.diagnostics)
    (fun v mode t ht => reports_onePass o nodes v mode t ht)
    (fun _ _ t ht => ⟨t.diagnostics.toList, t.location, Array.toList_push, ht.ending rfl⟩)
    left tried v hs

theorem reports_finishStory (v : Version) {limit : Nat} {s : State}
    (hs : Tolerable limit s.diagnostics.toList) :
    Ends (fun _ t => errorCount t.diagnostics.toList = 0)
      (fun problem t => Failing limit problem t.diagnostics.toList) (finishStory o v) s := by
  have hlimit := hs.errors
  unfold Ends finishStory
  dsimp only
  by_cases herrors : 0 < errorCount s.diagnostics.toList
  · rw [if_pos herrors]
    exact .errors rfl hs.notFatal herrors (Nat.le_of_lt hlimit)
  · rw [if_neg herrors]
    by_cases hlong : v.maxStorySize < Story.lengthFor v s.image.length
    · rw [if_pos hlong]
      refine .errors rfl (notFatal_push hs.notFatal Severity.noConfusion) ?_ ?_
      · rw [Array.toList_push, errorCount_append]
        exact Nat.succ_pos _
      · rw [Array.toList_push, errorCount_append]
        show _ + 1 ≤ _
        omega
    · rw [if_neg hlong]
      exact Nat.eq_zero_of_not_pos herrors

theorem reports_run : Ends (fun _ t => errorCount t.diagnostics.toList = 0)
    (fun problem t => Failing (max o.maxErrors 1) problem t.diagnostics.toList)
    (run o (.ofNodes nodes))
    (.initial o.version) := by
  have hattempt := reports_attempt o nodes (Version.all.length - 1) [o.version] o.version
    (s := .initial o.version) (tolerable_nil (Nat.le_max_right _ _))
  exact (hattempt.imp fun _ _ h => .fatal h).bind fun v _ _ ht => reports_finishStory o v ht

/-- A run that fails has handed nothing on. -/
theorem handed_run : Ends (fun _ _ => True) (fun _ t => t.handed = #[]) (run o (.ofNodes nodes))
    (.initial o.version) := by
  refine (handed_attempt o nodes (s := .initial o.version) rfl _ _ _).bind fun v s _ hs => ?_
  unfold Ends finishStory
  dsimp only
  by_cases herrors : 0 < errorCount s.diagnostics.toList
  · rw [if_pos herrors]
    exact hs
  · rw [if_neg herrors]
    by_cases hlong : v.maxStorySize < Story.lengthFor v s.image.length
    · rw [if_pos hlong]
      exact hs
    · rw [if_neg hlong]
      trivial

end Runs

/-! ## Outcomes -/

section Lists

variable {limit : Nat} {problem : Problem} {ds : List Diagnostic}

theorem countP_error_le (ds : List Diagnostic) :
    ds.countP (·.severity = .error) ≤ errorCount ds := by
  refine List.countP_mono_left fun d _ hd => ?_
  rw [isError_iff, of_decide_eq_true hd]
  exact Severity.noConfusion

theorem countP_warning (ds : List Diagnostic) :
    ds.countP (·.severity = .warning) = ds.length - errorCount ds := by
  have hlength := List.length_eq_countP_add_countP Diagnostic.isError (l := ds)
  have hwarning : ds.countP (·.severity = .warning) = ds.countP (fun d => ¬ d.isError = true) := by
    refine List.countP_congr fun d _ => ?_
    rw [decide_eq_true_iff, decide_eq_true_iff, isError_iff, not_not]
  unfold errorCount
  omega

theorem Failing.exists_error (h : Failing limit problem ds) : ∃ d ∈ ds, d.severity ≠ .warning := by
  cases h with
  | fatal h =>
    obtain ⟨front, location, rfl, -⟩ := h
    exact ⟨_, List.mem_append_right _ (List.mem_singleton_self _), Severity.noConfusion⟩
  | errors _ _ hpos _ =>
    obtain ⟨d, hd, herror⟩ := List.countP_pos_iff.mp hpos
    exact ⟨d, hd, (isError_iff d).mp herror⟩

theorem Failing.errors_le (h : Failing limit problem ds) :
    ds.countP (·.severity = .error) ≤ limit := by
  cases h with
  | fatal h =>
    obtain ⟨front, location, rfl, hfront⟩ := h
    rw [List.countP_append]
    exact (countP_error_le front).trans hfront.errors
  | errors _ _ _ hlimit => exact (countP_error_le ds).trans hlimit

theorem Failing.count_eq {count : Nat} (h : Failing limit (.tooManyErrors count) ds) :
    count = limit := by
  cases h with
  | fatal h =>
    obtain ⟨front, location, -, hfront⟩ := h
    exact hfront.count count rfl
  | errors hproblem _ _ _ => cases hproblem

theorem Failing.fatal_last (h : Failing limit problem ds) {d : Diagnostic} (hd : d ∈ ds)
    (hfatal : d.severity = .fatal) : ∃ front location, ds = front ++ [d] ∧
      (∀ e ∈ front, e.severity ≠ .fatal) ∧ d = { severity := .fatal, problem, location } := by
  cases h with
  | errors _ hnone _ _ => exact absurd hfatal (hnone d hd)
  | fatal h =>
    obtain ⟨front, location, rfl, hfront⟩ := h
    rcases List.mem_append.mp hd with hd | hd
    · exact absurd hfatal (hfront.notFatal d hd)
    · rw [List.mem_singleton] at hd
      exact ⟨front, location, by rw [hd], hfront.notFatal, hd⟩

end Lists

end Assembly

open Assembly in
/-- The diagnostics tell the truth about the outcome. -/
theorem diagnostics_tell_outcome (o : Options) (nodes : List Node) :
    match (assemble o nodes).result with
    | .ok _ =>
      (∀ d ∈ (assemble o nodes).diagnostics, d.severity = .warning) ∧
        (assemble o nodes).warnings = (assemble o nodes).diagnostics.countP (·.severity = .warning)
    | .error problem =>
      (∃ d ∈ (assemble o nodes).diagnostics, d.severity ≠ .warning) ∧
        (assemble o nodes).diagnostics.countP (·.severity = .error) ≤ max o.maxErrors 1 ∧
        (∀ d ∈ (assemble o nodes).diagnostics, d.severity = .fatal →
          (∃ front, (assemble o nodes).diagnostics = front ++ [d] ∧ ∀ e ∈ front,
            e.severity ≠ .fatal) ∧
            d.problem = problem ∧ d.code = problem.kind.code ∧ d.message = problem.message) ∧
        (assemble o nodes).debug = [] := by
  have hrun := reports_run o nodes
  cases hresult : run o (.ofNodes nodes) (.initial o.version) with
  | ok story s =>
    have hnone := hrun.of_ok hresult
    rw [assemble_of_ok hresult]
    refine ⟨errorCount_eq_zero.mp hnone, ?_⟩
    rw [countP_warning, hnone]
    rfl
  | error problem s =>
    have hfailing := hrun.of_error hresult
    rw [assemble_of_error hresult]
    refine ⟨hfailing.exists_error, hfailing.errors_le, fun d hd hfatal => ?_, ?_⟩
    case refine_2 => exact congrArg Array.toList ((handed_run o nodes).of_error hresult)
    obtain ⟨front, location, hlast, hfront, rfl⟩ := hfailing.fatal_last hd hfatal
    exact ⟨⟨front, hlast, hfront⟩, rfl, rfl, rfl⟩

end ZAssembler
