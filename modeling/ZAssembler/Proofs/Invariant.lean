import ZAssembler.Proofs.Abreast
import ZAssembler.Proofs.Rewinding
import ZAssembler.Proofs.Thread

/-
  What a pass keeps. `Ends` says what holds when work comes to its end or stops; `Invariant` says
  what is to be shown of the parts of a pass so that something holds throughout it and where it
  stops (`Invariant.pass`), and so throughout the passes of an attempt (`ends_passes`). What follows
  a walk, and what follows the passes of an attempt, is told once for all proofs: `walkEnd` and
  `attemptEnd`.
-/

namespace ZAssembler.Assembly

variable {α β ε : Type}

/-- The work comes to an end where `Q` holds, or stops where `E` holds. -/
def Ends (Q : α → State → Prop) (E : ε → State → Prop) (m : EStateM ε State α) (s : State) : Prop :=
  match m s with
  | .ok a t => Q a t
  | .error e t => E e t

section Ends

variable {Q : α → State → Prop} {Q' : β → State → Prop} {E E' : ε → State → Prop}
  {m m' : EStateM ε State α} {f : α → EStateM ε State β} {s t : State}

theorem Ends.of_error (h : Ends Q E m s) {e : ε} (hm : m s = .error e t) : E e t := by
  unfold Ends at h
  rw [hm] at h
  exact h

theorem Ends.of_ok (h : Ends Q E m s) {a : α} (hm : m s = .ok a t) : Q a t := by
  unfold Ends at h
  rw [hm] at h
  exact h

theorem Ends.congr (h : Ends Q E m' t) (heq : m s = m' t) : Ends Q E m s := by
  unfold Ends
  rw [heq]
  exact h

theorem Ends.imp (h : Ends Q E m s) (hE : ∀ e t, E e t → E' e t) : Ends Q E' m s := by
  unfold Ends
  cases hm : m s with
  | ok a t => exact h.of_ok hm
  | error e t => exact hE e t (h.of_error hm)

theorem Ends.bind (hm : Ends Q E m s) (hf : ∀ a t, m s = .ok a t → Q a t → Ends Q' E (f a) t) :
    Ends Q' E (m >>= f) s := by
  cases hs : m s with
  | ok a t => exact (hf a t hs (hm.of_ok hs)).congr (bind_of_ok hs)
  | error e t =>
    unfold Ends
    rw [bind_of_error hs]
    exact hm.of_error hs

end Ends

/-! ## What follows a walk -/

/-- A walk ends outside of routines or in one of three ways inside of one. -/
inductive WalkEnd (cx : Context) (again : Option (Pass Unit)) (s : State) : Prop
  | outside (hscope : s.scope = none) (heq : endWalk cx again s = .ok () s)
  | settled (scope : RoutineScope) (hscope : s.scope = some scope) (hmoved : scope.moved = false)
    (heq : endWalk cx again s = closeRoutine cx scope s)
  | again (scope next : RoutineScope) (walk : Pass Unit) (hscope : s.scope = some scope)
    (hmoved : scope.moved = true) (hnext : scope.nextWalk? = some next) (hagain : again = some walk)
    (heq : endWalk cx again s = walk (s.walkAgain next))
  | spent (scope : RoutineScope) (hscope : s.scope = some scope) (hmoved : scope.moved = true)
    (hspent : scope.nextWalk? = none ∨ again = none)
    (heq : endWalk cx again s = stopWith (.routineNotSettled scope.walks scope.routine) s)

theorem walkEnd (cx : Context) (again : Option (Pass Unit)) (s : State) : WalkEnd cx again s := by
  cases hscope : s.scope with
  | none => exact .outside hscope (endWalk_outside hscope)
  | some scope =>
    cases hmoved : scope.moved with
    | false => exact .settled scope hscope hmoved (endWalk_settled hscope hmoved)
    | true =>
      cases hnext : scope.nextWalk? with
      | none => exact .spent scope hscope hmoved (.inl hnext) (endWalk_spent hscope hmoved
          (.inl hnext))
      | some next =>
        cases again with
        | none => exact .spent scope hscope hmoved (.inr rfl) (endWalk_spent hscope
            hmoved (.inr rfl))
        | some walk =>
          exact .again scope next walk hscope hmoved hnext rfl
            (endWalk_again hscope hmoved hnext walk)

/-! ## What a pass keeps -/

/-- What a state tells of its run: the diagnostics, and the records that are handed on. -/
structure Told where
  diagnostics : List Diagnostic
  handed : Array DebugRecord

def State.told (s : State) : Told := ⟨s.diagnostics.toList, s.handed⟩

theorem told_beginPass (s : State) (o : Options) (v : Version) (mode : Mode) :
    (s.beginPass o v mode).told = ⟨[], s.handed⟩ := by
  simp only [State.told, State.beginPass]

/-- While a pass over nodes with `P` goes on `I` holds of what it tells, and `E` holds where it
    stops. -/
structure Invariant (cx : Context) (P : Node → Prop) (I : Told → Prop)
    (E : Stop → State → Prop) : Prop where
  visit : ∀ (index : Nat) (n : Node) (s : State), P n → I s.told →
    Ends (fun _ t => I t.told) E (visit cx index n) s
  judge : ∀ (changes : List (String × Int32)) (s : State), I s.told →
    Ends (fun _ t => I t.told) E (runStep cx (judgeAll cx changes)) s
  recover : ∀ (problem : Problem) (s : State), I s.told →
    Ends (fun _ t => I t.told) E (recover cx problem) s
  stop : ∀ (problem : Problem) (s : State), problem.isTooManyErrors = false →
    I s.told → E (.failed problem) (s.report .fatal problem)
  rewind : ∀ (w : Told) (count : Nat), I w → I { w with diagnostics := w.diagnostics.take count }

namespace Invariant

variable {cx : Context} {P : Node → Prop} {I : Told → Prop} {E : Stop → State → Prop}
  (h : Invariant cx P I E) {s : State} (hs : I s.told)

include h hs

theorem visitAll (index : Nat) {nodes : List Node} (hnodes : ∀ n ∈ nodes, P n) :
    Ends (fun _ t => I t.told) E (visitAll cx index nodes) s := by
  induction nodes generalizing index s with
  | nil => exact hs
  | cons n rest ih =>
    refine (h.visit index n s (hnodes n List.mem_cons_self) hs).bind fun _ t _ ht => ?_
    exact ih ht (index + 1) fun m hm => hnodes m (List.mem_cons_of_mem _ hm)

theorem closeRoutine (scope : RoutineScope) :
    Ends (fun _ t => I t.told) E (closeRoutine cx scope) s := by
  unfold Assembly.closeRoutine
  refine Ends.bind (Q := fun _ t => I t.told) hs fun _ t _ ht => ?_
  split
  · exact Ends.bind (Q := fun _ u => I u.told) ht fun _ u _ hu => h.judge scope.deferred u hu
  · exact h.judge scope.deferred t ht

theorem endWalk {again : Option (Pass Unit)}
    (hagain : ∀ walk, again = some walk → ∀ t, I t.told →
      Ends (fun _ u => I u.told) E walk t) :
    Ends (fun _ t => I t.told) E (endWalk cx again) s := by
  cases walkEnd cx again s with
  | outside _ heq =>
    unfold Ends
    rw [heq]
    exact hs
  | settled scope _ _ heq => exact (h.closeRoutine hs scope).congr heq
  | spent scope _ _ _ heq =>
    unfold Ends
    rw [heq]
    exact h.stop _ s rfl hs
  | again scope next walk _ _ _ hwalk heq =>
    refine (hagain walk hwalk (s.walkAgain next) ?_).congr heq
    have htake := h.rewind _ next.snapshot.diagnostics hs
    dsimp only [State.told] at htake
    rw [← toList_take] at htake
    exact htake

theorem walkRoutine (start : Nat) (r : Routine) (hr : ∀ n ∈ r.nodes, P n) (left : Nat) :
    Ends (fun _ t => I t.told) E (walkRoutine cx start r left) s := by
  induction left generalizing s with
  | zero =>
    refine (h.visitAll hs start hr).bind fun _ t _ ht => h.endWalk ht fun walk hwalk => ?_
    cases hwalk
  | succ left ih =>
    refine (h.visitAll hs start hr).bind fun _ t _ ht => h.endWalk ht fun walk hwalk u hu => ?_
    rw [← Option.some.inj hwalk]
    exact ih hu

theorem routines (start : Nat) {rs : List Routine} (hrs : ∀ r ∈ rs, ∀ n ∈ r.nodes, P n) :
    Ends (fun _ t => I t.told) E (routines cx start rs) s := by
  induction rs generalizing start s with
  | nil => exact hs
  | cons r rest ih =>
    have hroutine : Ends (fun _ t => I t.told) E (routine cx start r) s :=
      (h.walkRoutine (s := s.enter start r) hs start r (hrs r List.mem_cons_self) maxWalks)
    refine hroutine.bind fun _ t _ ht => ?_
    exact ih ht _ fun r' hr' => hrs r' (List.mem_cons_of_mem _ hr')

theorem dropTable : Ends (fun _ t => I t.told) E (dropTable cx) s := by
  unfold Ends Assembly.dropTable
  rw [get_bind]
  cases s.table with
  | none => exact hs
  | some table => exact h.recover (.unclosedTable table.start) { s with table := none } hs

theorem dropVocabulary : Ends (fun _ t => I t.told) E (dropVocabulary cx) s := by
  unfold Ends Assembly.dropVocabulary
  rw [get_bind]
  cases s.vocabulary with
  | none => exact hs
  | some block => exact h.recover .unclosedVocabulary { s with vocabulary := none } hs

theorem lookBack : Ends (fun _ t => I t.told) E (lookBack cx) s := by
  unfold Assembly.lookBack
  cases cx.mode with
  | measuring => exact hs
  | assembling =>
    unfold Ends
    dsimp only
    rw [get_bind]
    by_cases hfixups : (!s.fixups.toList.isEmpty) = true
    · rw [if_pos hfixups]
      exact h.stop _ s rfl hs
    · rw [if_neg hfixups]
      exact hs

theorem endPass : Ends (fun _ t => I t.told) E (endPass cx) s := by
  rw [endPass_parts]
  refine (h.dropTable hs).bind fun _ t _ ht => (h.dropVocabulary ht).bind fun _ u _ hu => ?_
  exact h.lookBack hu

theorem pass {nodes : List Node} (hnodes : ∀ n ∈ nodes, P n) :
    Ends (fun _ t => I t.told) E (pass cx (.ofNodes nodes)) s := by
  have hread : ∀ n ∈ (Program.ofNodes nodes).nodes, P n := by
    rw [nodes_ofNodes]
    exact fun n hn => hnodes n (List.takeWhile_subset _ hn)
  have hpreamble : ∀ n ∈ (Program.ofNodes nodes).preamble, P n :=
    fun n hn => hread n (List.mem_append_left _ hn)
  have hroutines : ∀ r ∈ (Program.ofNodes nodes).routines, ∀ n ∈ r.nodes, P n :=
    fun r hr n hn => hread n (List.mem_append_right _ (List.mem_flatMap.mpr ⟨r, hr, hn⟩))
  unfold Assembly.pass
  refine (h.visitAll hs 0 hpreamble).bind fun _ t _ ht => ?_
  refine (h.routines ht _ hroutines).bind fun index u _ hu => ?_
  cases hclosing : (Program.ofNodes nodes).closing with
  | none => exact h.endPass hu
  | some n =>
    have hn : P n := hnodes n (List.mem_of_find?_eq_some hclosing)
    exact (h.visit index n u hn hu).bind fun _ t _ ht => h.endPass ht

end Invariant

/-! ## What the passes of an attempt keep -/

section Passes

variable {I : Told → Prop} {E : Stop → State → Prop} {o : Options} {program : Program} {v : Version}
  (h : ∀ mode s, I s.told → Ends (fun _ t => I t.told) E (onePass o program v mode) s)
  {s : State} (hs : I s.told)

include h hs

theorem ends_measure (left : Nat) :
    Ends (fun _ t => I t.told) E (measure o program v left) s := by
  induction left generalizing s with
  | zero => exact hs
  | succ left ih =>
    refine (h .measuring s hs).bind fun _ t _ ht => ?_
    refine Ends.bind (Q := fun _ u => I u.told) ht fun _ u _ hu => ?_
    unfold Ends
    rw [get_bind]
    by_cases hchanged : u.changed = true
    · rw [if_pos hchanged]
      exact ih hu
    · rw [if_neg hchanged]
      exact hu

theorem ends_passes : Ends (fun _ t => I t.told) E (passes o program v) s :=
  (ends_measure h hs maxMeasuringPasses).bind fun _ t _ ht => h .assembling t ht

end Passes

/-! ## What follows the passes of an attempt -/

section Attempts

variable {o : Options} {program : Program} {left : Nat} {tried : List Version} {v : Version}
    {s t : State}

theorem attempt_of_ok (h : passes o program v s = .ok () t) :
    attempt o program left tried v s = .ok v t := by
  unfold attempt
  rw [h]

theorem attempt_of_failed {problem : Problem}
    (h : passes o program v s = .error (.failed problem) t) :
    attempt o program left tried v s = .error problem t := by
  unfold attempt
  rw [h]

theorem attempt_of_restart {wanted : Version}
    (h : passes o program v s = .error (.restart wanted) t) (hnew : wanted ∉ tried) :
    attempt o program (left + 1) tried v s =
      attempt o program left (wanted :: tried) wanted (t.restart wanted) := by
  rw [attempt, h]
  dsimp only
  rw [decide_eq_false hnew]

theorem attempt_refused {wanted : Version} (h : passes o program v s = .error (.restart wanted) t)
    (hrefused : wanted ∈ tried ∨ left = 0) : attempt o program left tried v s =
      .error (.conflictingVersions v wanted) (t.report .fatal (.conflictingVersions v wanted)) := by
  unfold attempt
  rw [h]
  dsimp only
  rcases hrefused with hold | rfl
  · rw [decide_eq_true hold]
    cases left <;> rfl
  · rfl

/-- An attempt ends in one of four ways. -/
inductive AttemptEnd (o : Options) (program : Program) (left : Nat) (tried : List Version)
    (v : Version) (s : State) : Prop
  | done (t : State) (hpasses : passes o program v s = .ok () t)
  | failed (problem : Problem) (t : State)
      (hpasses : passes o program v s = .error (.failed problem) t)
  | again (wanted : Version) (t : State) (rest : Nat) (hleft : left = rest + 1)
      (hnew : wanted ∉ tried)
    (hpasses : passes o program v s = .error (.restart wanted) t)
  | refused (wanted : Version) (t : State) (hrefused : wanted ∈ tried ∨ left = 0)
    (hpasses : passes o program v s = .error (.restart wanted) t)

theorem attemptEnd (o : Options) (program : Program) (left : Nat) (tried : List Version)
    (v : Version) (s : State) : AttemptEnd o program left tried v s := by
  cases hpasses : passes o program v s with
  | ok a t => exact .done t hpasses
  | error e t =>
    cases e with
    | failed problem => exact .failed problem t hpasses
    | restart wanted =>
      by_cases hnew : wanted ∈ tried
      · exact .refused wanted t (.inl hnew) hpasses
      · cases left with
        | zero => exact .refused wanted t (.inr rfl) hpasses
        | succ rest => exact .again wanted t rest rfl hnew hpasses

end Attempts

/-- A pass that fails stops where `E` holds of its problem, one that asks for a version where `I`
    holds. -/
def Stop.Meets (I : Told → Prop) (E : Problem → State → Prop) : Stop → State → Prop
  | .failed problem, s => E problem s
  | .restart _, s => I s.told

/-- What every pass keeps is kept over the attempts of a run, up to where they end or stop. -/
theorem ends_attempt {I : Told → Prop} {E : Problem → State → Prop} {o : Options}
    {program : Program} (h : ∀ (v : Version) (mode : Mode) (s : State), I s.told →
      Ends (fun _ t => I t.told) (Stop.Meets I E) (onePass o program v mode) s)
    (hrefused : ∀ (v wanted : Version) (s : State), I s.told →
      E (.conflictingVersions v wanted) (s.report .fatal (.conflictingVersions v wanted)))
    (left : Nat) (tried : List Version) (v : Version) {s : State} (hs : I s.told) :
    Ends (fun _ t => I t.told) E (attempt o program left tried v) s := by
  induction left using Nat.strongRecOn generalizing tried v s with
  | _ left ih =>
    have hends := ends_passes (fun mode t => h v mode t) hs
    unfold Ends
    cases attemptEnd o program left tried v s with
    | done t hpasses =>
      rw [attempt_of_ok hpasses]
      exact hends.of_ok hpasses
    | failed problem t hpasses =>
      rw [attempt_of_failed hpasses]
      exact hends.of_error hpasses
    | refused wanted t hrefuses hpasses =>
      rw [attempt_refused hpasses hrefuses]
      exact hrefused v wanted t (hends.of_error hpasses)
    | again wanted t rest hleft hnew hpasses =>
      subst hleft
      rw [attempt_of_restart hpasses hnew]
      exact ih rest (Nat.lt_succ_self rest) (wanted :: tried) wanted (s := t.restart wanted)
        (hends.of_error hpasses)

/-! ## Outcomes -/

section Outcomes

variable {o : Options} {nodes : List Node} {s : State}

theorem assemble_of_ok {story : AssembledStory}
    (h : run o (.ofNodes nodes) (.initial o.version) = .ok story s) :
    assemble o nodes = ⟨.ok story, s.diagnostics.toList, s.counts, s.log.toList,
      s.handed.toList⟩ := by
  unfold assemble
  rw [h]

theorem assemble_of_error {problem : Problem}
    (h : run o (.ofNodes nodes) (.initial o.version) = .error problem s) :
    assemble o nodes = ⟨.error problem, s.diagnostics.toList, s.counts, s.log.toList,
      s.handed.toList⟩ := by
  unfold assemble
  rw [h]

end Outcomes

end ZAssembler.Assembly
