import ZAssembler.Proofs.TwoRuns

/-
  A restart is a fresh start. A program that names its version in its first node is assembled for
  that version, whatever version the run begins with. If it begins with another one, the first
  measuring pass stops at the first node, and the run goes on like one that begins with the version
  named, with that pass for its past. No other node asks for a version, so this is the only restart.
-/

namespace ZAssembler

/-- The node asks for a version. -/
def Node.asksVersion (n : Node) : Bool :=
  match n.kind with
  | .directive (.new _) => true
  | _ => false

theorem Node.asksOther_of_asksVersion {n : Node} (h : n.asksVersion = false) (v : Version) :
    n.asksOther v = false := by
  unfold asksVersion at h
  unfold asksOther
  split
  · next hkind =>
    rw [hkind] at h
    cases h
  · next hkind =>
    rw [hkind] at h
    cases h
  · rfl

namespace Assembly

variable {α : Type}

/-! ## Runs without a restart -/

/-- The work stops for no other version. -/
theorem Work.stays {n : Node} {a : Nat} {cx cx' : Context} {g : Extent} {s : State} {m m' : Step α}
    (h : Work n a cx cx' g s m m') (hn : n.asksOther cx.version = false) :
    Ends (fun _ _ => True) (fun i _ => ∀ v, i ≠ .restart v) m s := by
  induction h with
  | pure x => trivial
  | skip problem => exact fun _ => Interrupt.noConfusion
  | abort problem _ => exact fun _ => Interrupt.noConfusion
  | restart version h => cases hn.symm.trans h
  | bind _ _ ihm ihf => exact ihm.bind fun x t hx _ => ihf x t hx
  | read _ ih => exact ih _ rfl
  | update _ _ _ => trivial
  | part _ _ => trivial
  | mention name _ => trivial
  | enter name kind value => trivial
  | relocate name value => trivial
  | log event _ _ => trivial
  | group _ _ ih => exact ih
  | warn _ problem =>
    unfold Assembly.warn
    split <;> trivial
  | @reportError s problem =>
    unfold Ends Assembly.reportError
    rw [modify_bind, get_bind]
    cases (s.report .error problem).tooManyErrors? cx with
    | none => trivial
    | some tooMany => exact fun _ => Interrupt.noConfusion

theorem stays_recover (cx : Context) (problem : Problem) (s : State) :
    Ends (fun _ _ => True) (fun e _ => ∀ v, e ≠ .restart v) (recover cx problem) s := by
  obtain hs | ⟨tooMany, t, hs, -⟩ := recover_cases cx problem s
  · unfold Ends
    rw [hs]
    trivial
  · unfold Ends
    rw [hs]
    exact fun _ => Stop.noConfusion

theorem stays_runStep {cx : Context} {step : Step Unit} {s : State}
    (h : Ends (fun _ _ => True) (fun i _ => ∀ v, i ≠ .restart v) step s) :
    Ends (fun _ _ => True) (fun e _ => ∀ v, e ≠ .restart v) (runStep cx step) s := by
  unfold Ends
  rw [runStep_eq]
  cases hstep : step s with
  | ok a t => trivial
  | error i t =>
    cases i with
    | skip problem => exact stays_recover cx problem t
    | abort problem => exact fun _ => Stop.noConfusion
    | restart version => exact absurd rfl (h.of_error hstep version)

theorem invariant_stays (cx : Context) :
    Invariant cx (fun n => n.asksOther cx.version = false) (fun _ => True)
      (fun e _ => ∀ v, e ≠ .restart v) where
  visit index n s hn _ :=
    stays_runStep (s := s.reach index n) ((node_work (.refl cx) n _).stays hn)
  judge changes s _ := stays_runStep ((work_judgeAll (.refl cx) changes s).stays rfl)
  recover problem s _ := stays_recover cx problem s
  stop _ _ _ _ _ := Stop.noConfusion
  rewind _ _ _ := trivial

section Runs

variable (o : Options) {nodes : List Node} {v : Version}
    (hnodes : ∀ n ∈ nodes, n.asksOther v = false)

include hnodes

theorem stays_onePass (mode : Mode) (s : State) :
    Ends (fun _ _ => True) (fun e _ => ∀ w, e ≠ .restart w) (onePass o (.ofNodes nodes) v mode) s :=
  (invariant_stays (s.nextContext o v mode)).pass (s := s.beginPass o v mode) trivial hnodes

/-- An attempt that asks for no other version is the same whatever was tried before it. -/
theorem attempt_stays (left left' : Nat) (tried tried' : List Version) (s : State) :
    attempt o (.ofNodes nodes) left tried v s = attempt o (.ofNodes nodes) left' tried' v s := by
  have hpasses :
      Ends (fun _ _ => True) (fun e _ => ∀ w, e ≠ .restart w) (passes o (.ofNodes nodes) v) s :=
    ends_passes (I := fun _ => True) (fun mode t _ => stays_onePass o hnodes mode t) trivial
  cases hrun : passes o (.ofNodes nodes) v s with
  | ok a t => rw [attempt_of_ok hrun, attempt_of_ok hrun]
  | error e t =>
    cases e with
    | failed problem => rw [attempt_of_failed hrun, attempt_of_failed hrun]
    | restart wanted => exact absurd rfl (hpasses.of_error hrun wanted)

end Runs

/-! ## The first pass -/

/-- The node names version `w`. -/
def Names (n : Node) (w : Version) : Prop :=
  n.kind = .directive (.new (.number (Int32.ofNat w.number)))

theorem toNat_number (w : Version) : (Int32.ofNat w.number).toInt.toNat = w.number := by
  cases w <;> rfl

section FirstPass

variable {n : Node} {v w : Version} (hn : Names n w)

include hn

theorem Names.asksOther : n.asksOther w = false := by
  unfold Node.asksOther
  rw [hn]
  dsimp only
  rw [toNat_number, bne_self_eq_false]

theorem Names.visit (hne : v ≠ w) {cx : Context} (hv : cx.version = v) (index : Nat) (s : State) :
    visit cx index n s = .error (.restart w) (s.reach index n) := by
  have hvalue : constant cx "Story version" (.number (Int32.ofNat w.number)) =
      pure (Int32.ofNat w.number) := rfl
  have hnode : node cx n = throw (.restart w) := by
    refine (node_directive hn).trans ?_
    show storyVersion cx (.number (Int32.ofNat w.number)) = _
    unfold storyVersion
    rw [hvalue, pure_bind, toNat_number, Version.ofNat?_number]
    exact if_neg (hv ▸ hne.symm)
  show runStep cx (node cx n) (s.reach index n) = _
  rw [runStep_eq, hnode]
  rfl

/-- A program that begins with the name of another version is left at once. -/
theorem Names.passes (hne : v ≠ w) (o : Options) (rest : List Node) (s : State) :
    ∃ t, passes o (.ofNodes (n :: rest)) v s = .error (.restart w) t ∧ t.log = s.log ∧
      t.counts = s.counts.beginPass .measuring ∧ t.handed = s.handed := by
  have hpreamble : ∃ more, (Program.ofNodes (n :: rest)).preamble = n :: more := by
    obtain ⟨kind, location⟩ := n
    cases hn
    exact ⟨_, rfl⟩
  obtain ⟨more, hmore⟩ := hpreamble
  have hpass : onePass o (.ofNodes (n :: rest)) v .measuring s =
      .error (.restart w) ((s.beginPass o v .measuring).reach 0 n) := by
    rw [onePass_eq]
    unfold pass
    rw [hmore]
    exact bind_of_error (bind_of_error (hn.visit hne rfl 0 _))
  have hmeasure : measure o (.ofNodes (n :: rest)) v maxMeasuringPasses s =
      .error (.restart w) ((s.beginPass o v .measuring).reach 0 n) := bind_of_error hpass
  refine ⟨(s.beginPass o v .measuring).reach 0 n, bind_of_error hmeasure, ?_, rfl, ?_⟩
  · unfold State.reach State.beginPass
    rfl
  · unfold State.reach State.beginPass
    rfl

end FirstPass

/-- Where work begins in the same way, all of it goes the same way. -/
theorem bind_from {ε β : Type} {m m' : EStateM ε State α} {f : α → EStateM ε State β} {s t : State}
    (h : m s = m' t) : (m >>= f) s = (m' >>= f) t := by
  cases ht : m' t with
  | ok a u => rw [bind_of_ok ht, bind_of_ok (h.trans ht)]
  | error e u => rw [bind_of_error ht, bind_of_error (h.trans ht)]

/-- The passes for a version begin with the globals, the log and the counts of the run and what it
    has handed on, and with nothing else of it. -/
theorem passes_congr (o : Options) (program : Program) (v : Version) {s t : State}
    (hglobals : s.globals = t.globals) (hlog : s.log = t.log) (hcounts : s.counts = t.counts)
    (hhanded : s.handed = t.handed) :
    passes o program v s = passes o program v t := by
  have hpass : onePass o program v .measuring s = onePass o program v .measuring t := by
    rw [onePass_eq, onePass_eq]
    unfold State.nextContext State.beginPass
    rw [hglobals, hlog, hcounts, hhanded]
  exact bind_from (bind_from hpass)

theorem attempt_congr {o : Options} {program : Program} {v : Version} {s t : State}
    (h : passes o program v s = passes o program v t) (left : Nat) (tried : List Version) :
    attempt o program left tried v s = attempt o program left tried v t := by
  unfold attempt
  rw [h]

/-- What a run has behind it that began with another version than the program names. -/
def Past.ofRestart (w : Version) : Past :=
  ⟨{ passes := 1, measuringPasses := 1, restarts := 1 }, #[.restarting w.number 1]⟩

/-- A run that begins with another version goes on like one that begins with the version named. -/
theorem run_after_restart (o : Options) {n : Node} {v w : Version} (hn : Names n w) (hne : v ≠ w)
    {rest : List Node} (hrest : ∀ n ∈ rest, n.asksVersion = false) :
    run { o with version := v } (.ofNodes (n :: rest)) (.initial v) =
      endAfter (.ofRestart w)
      (run { o with version := w } (.ofNodes (n :: rest)) (.initial w)) := by
  have hnodes : ∀ m ∈ n :: rest, m.asksOther w = false := by
    intro m hm
    rcases List.mem_cons.mp hm with rfl | hm
    · exact hn.asksOther
    · exact Node.asksOther_of_asksVersion (hrest m hm) w
  obtain ⟨t, hpasses, hlog, hcounts, hhanded⟩ :=
    hn.passes hne { o with version := v } rest (.initial v)
  have hagain : attempt { o with version := v } (.ofNodes (n :: rest)) 7 [v] v (.initial v) =
      attempt { o with version := v } (.ofNodes (n :: rest)) 7 [w] w
      ((State.initial w).after (.ofRestart w)) := by
    have hnew : w ∉ [v] := by
      rw [List.mem_singleton]
      exact hne.symm
    rw [attempt_of_restart hpasses hnew, attempt_stays _ hnodes 6 7 _ [w]]
    refine attempt_congr (passes_congr _ _ w ?_ ?_ ?_ ?_) 7 [w]
    · rfl
    · show t.log.push (.restarting w.number t.counts.passes) = (Past.ofRestart w).logOn #[]
      rw [hlog, hcounts]
      unfold Past.logOn
      rw [Array.map_empty, Array.append_empty]
      rfl
    · unfold State.restart
      rw [hcounts]
      rfl
    · exact hhanded
  have hagree : Agree False { o with version := w } { o with version := v } := ⟨rfl, rfl, .inl rfl⟩
  have hrepeats :=
    (repeats_attempt hagree (.ofRestart w) (.ofNodes (n :: rest)) 7 [w] w (.initial w)).bind
    fun u s _ => repeats_finishStory hagree (.ofRestart w) u s
  obtain heq | ⟨hfalse, -⟩ := hrepeats
  · exact (bind_from hagain).trans heq
  · exact hfalse.elim

end Assembly

/-- The outcomes of a run that begins with version `v` and of one that begins with version `w`, if
    the program names `w`: the same but for the pass that the first run gives up. -/
structure FreshStart (v w : Version) (first second : Outcome) : Prop where
  result : first.result = second.result
  diagnostics : first.diagnostics = second.diagnostics
  warnings : first.warnings = second.warnings
  debug : first.debug = second.debug
  counts : first.counts = if v = w then second.counts else
    { second.counts with
      passes := second.counts.passes + 1
      measuringPasses := second.counts.measuringPasses + 1
      restarts := second.counts.restarts + 1 }

open Assembly in
/-- A restart is a fresh start: a program that names version `w` in its first node, and no version
    after that, has the same outcome for every version that the run begins with. -/
theorem restart_starts_afresh (o : Options) (v : Version) {n : Node} {w : Version} (hn : Names n w)
    {rest : List Node} (hrest : ∀ n ∈ rest, n.asksVersion = false) :
    FreshStart v w (assemble { o with version := v } (n :: rest))
      (assemble { o with version := w } (n :: rest)) := by
  by_cases hne : v = w
  · subst hne
    exact ⟨rfl, rfl, rfl, rfl, (if_pos rfl).symm⟩
  · have hcounts (c : Counts) : c.after (Past.ofRestart w).counts = if v = w then c else
        { c with
          passes := c.passes + 1
          measuringPasses := c.measuringPasses + 1
          restarts := c.restarts + 1 } := by
      rw [if_neg hne]
      unfold Counts.after Past.ofRestart
      simp only [Nat.zero_add, Nat.add_comm 1]
    have hrun := run_after_restart o hn hne hrest
    cases hfresh : run { o with version := w } (.ofNodes (n :: rest)) (.initial w) with
    | ok story s =>
      rw [hfresh] at hrun
      rw [assemble_of_ok hrun, assemble_of_ok hfresh]
      exact ⟨rfl, rfl, rfl, rfl, hcounts s.counts⟩
    | error problem s =>
      rw [hfresh] at hrun
      rw [assemble_of_error hrun, assemble_of_error hfresh]
      exact ⟨rfl, rfl, rfl, rfl, hcounts s.counts⟩

/-- A routine that is walked three times in a pass. -/
def revised : List Node :=
  [⟨.directive (.funct "MAIN" []), {}⟩,
    ⟨.instruction
      { opcode := "ZERO?", operands := [.number 1], branch := some ⟨true, .label "DONE"⟩ }, {}⟩,
    ⟨.localLabel "DONE", {}⟩, ⟨.instruction { opcode := "RTRUE" }, {}⟩]

def revisedOptions : Options := { identity := { serial := "000000" } }

open Assembly in
theorem revised_afresh :
    FreshStart .v3 .v5
      (assemble { revisedOptions with version := .v3 }
        (⟨.directive (.new (.number 5)), {}⟩ :: revised))
      (assemble { revisedOptions with version := .v5 }
        (⟨.directive (.new (.number 5)), {}⟩ :: revised)) ∧
    (assemble { revisedOptions with version := .v3 }
      (⟨.directive (.new (.number 5)), {}⟩ :: revised)).counts =
      { passes := 3, measuringPasses := 2, restarts := 1, reassemblies := 4 } := by
  have hnames : Names ⟨.directive (.new (.number 5)), {}⟩ .v5 := rfl
  have hrest : ∀ n ∈ revised, n.asksVersion = false := by decide
  exact ⟨restart_starts_afresh revisedOptions .v3 hnames hrest, by decide +kernel⟩

end ZAssembler
