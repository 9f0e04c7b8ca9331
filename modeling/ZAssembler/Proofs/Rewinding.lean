import ZAssembler.Proofs.Frame

/-
  Routines that are walked again. `rewinds` lists every rewind of a run, over all its passes and
  restarts, whether the run succeeds or not; the log of the run tells of exactly these
  (`told_assemble`). A rewind gives back how far the pass had come when it reached the routine, and
  the bytes and the fixups that there were, if no block that was open then was ended since. It does
  not reopen a table that the walk closed, it drops one that was opened where the routine begins,
  and it leaves the vocabulary block as the walk left it.
-/

namespace ZAssembler.Assembly

/-! ## The rewinds of a run -/

/-- A routine is walked again: the state in which the pass came to the routine, the one in which the
    walk ended, and the scope of the walk to come. -/
structure Rewind where
  routine : Routine
  opened : State
  walked : State
  next : RoutineScope

namespace Rewind

/-- The state in which the next walk begins. -/
def again (r : Rewind) : State := r.walked.walkAgain r.next

def event (r : Rewind) : Event := .walkingAgain r.next.routine r.next.walks

end Rewind

/-- The scope of another walk, if the walk that ended here has to be repeated and may be. -/
def State.nextWalk? (s : State) : Option RoutineScope :=
  (s.scope.filter (·.moved)).bind (·.nextWalk?)

/-- The rewinds that follow a computation, if it comes to its end. -/
def thenRewinds {ε α : Type} (rest : α → State → List Rewind) :
    EStateM.Result ε State α → List Rewind
  | .ok a t => rest a t
  | .error _ _ => []

/-- The rewinds of a routine, from a walk on that begins in state `s`. -/
def walkRewinds (cx : Context) (start : Nat) (r : Routine) (opened : State) :
    (left : Nat) → State → List Rewind
  | 0, _ => []
  | left + 1, s =>
    (visitAll cx start r.nodes s) |> thenRewinds fun _ t =>
      match t.nextWalk? with
      | none => []
      | some next => ⟨r, opened, t, next⟩ :: walkRewinds cx start r opened left (t.walkAgain next)

def routinesRewinds (cx : Context) : Nat → List Routine → State → List Rewind
  | _, [], _ => []
  | start, r :: rest, s =>
    walkRewinds cx start r s maxWalks (s.enter start r) ++
      ((routine cx start r s) |> thenRewinds fun _ t =>
        routinesRewinds cx (start + 1 + r.body.length) rest t)

def passRewinds (cx : Context) (program : Program) (s : State) : List Rewind :=
  (visitAll cx 0 program.preamble s) |> thenRewinds fun _ t =>
    routinesRewinds cx program.preamble.length program.routines t

/-- The rewinds of the pass that follows state `s`. -/
def onePassRewinds (o : Options) (program : Program) (v : Version) (mode : Mode) (s : State) :
    List Rewind :=
  let start := s.beginPass o v mode
  passRewinds { version := v, mode, pass := start.counts.passes, errorLimit := max o.maxErrors 1 }
    program start

/-- The state after a measuring pass. -/
def State.measured (s : State) (left : Nat) : State :=
  let event := .passMeasured (maxMeasuringPasses - left) s.image.cursor s.fixups.size
  { s with log := s.log.push event }

/-- The context of the pass that follows state `s`. -/
def State.nextContext (s : State) (o : Options) (v : Version) (mode : Mode) : Context :=
  { version := v, mode, pass := s.counts.passes + 1, errorLimit := max o.maxErrors 1 }

theorem onePass_eq (o : Options) (program : Program) (v : Version) (mode : Mode) (s : State) :
    onePass o program v mode s = pass (s.nextContext o v mode) program (s.beginPass o v mode) := rfl

theorem measure_of_ok {o : Options} {program : Program} {v : Version} (left : Nat) {s t : State}
    (h : onePass o program v .measuring s = .ok () t) :
    measure o program v (left + 1) s =
      (if t.changed then measure o program v left else pure () : Pass Unit) (t.measured left) := by
  rw [measure, bind_of_ok h, modify_bind, get_bind]
  rfl

def measureRewinds (o : Options) (program : Program) (v : Version) :
    (left : Nat) → State → List Rewind
  | 0, _ => []
  | left + 1, s =>
    onePassRewinds o program v .measuring s ++
      ((onePass o program v .measuring s) |> thenRewinds fun _ t =>
        if t.changed then measureRewinds o program v left (t.measured left) else [])

def passesRewinds (o : Options) (program : Program) (v : Version) (s : State) : List Rewind :=
  measureRewinds o program v maxMeasuringPasses s ++
    ((measure o program v maxMeasuringPasses s) |> thenRewinds fun _ t =>
      onePassRewinds o program v .assembling t)

def attemptRewinds (o : Options) (program : Program) (left : Nat) (tried : List Version)
    (v : Version) (s : State) : List Rewind :=
  passesRewinds o program v s ++
    match passes o program v s with
    | .error (.restart wanted) t =>
      match left, decide (wanted ∈ tried) with
      | left + 1, false => attemptRewinds o program left (wanted :: tried) wanted (t.restart wanted)
      | _, _ => []
    | _ => []

/-- The rewinds of the assembly of a program, in the order of time. -/
def rewinds (o : Options) (nodes : List Node) : List Rewind :=
  attemptRewinds o (.ofNodes nodes) (Version.all.length - 1) [o.version] o.version
    (.initial o.version)

/-! ## What the log tells -/

/-- The cursor is inside the image, as long as that is below 2^32 bytes. -/
def State.Room (s : State) : Prop := min s.image.cursor (2 ^ 32) ≤ s.image.size

/-- The log tells of no new walk, and the cursor stays inside the image. -/
structure Calm (s t : State) : Prop where
  told : t.walksTold = s.walksTold
  room : s.Room → t.Room

instance : Std.Refl Calm where
  refl _ := ⟨rfl, id⟩

instance : IsTrans State Calm where
  trans _ _ _ hst htu := ⟨htu.told.trans hst.told, fun h => htu.room (hst.room h)⟩

theorem calm_of_image {s t : State} (himage : t.image = s.image)
    (htold : t.walksTold = s.walksTold) : Calm s t :=
  ⟨htold, fun h => by unfold State.Room; rwa [himage]⟩

theorem Keeps.room {s t : State} (h : Keeps (Beyond s) s t) (hs : s.Room) : t.Room := by
  unfold State.Room at hs ⊢
  by_cases hfit : t.image.size < 2 ^ 32
  · have hsize := h.size
    have hwithin := (h.keeps hfit (.refl (by omega))).within
    omega
  · omega

section Told

variable {ε α β : Type}

/-- The walks that a computation tells of are those of the rewinds. -/
def Tells (m : EStateM ε State α) (s : State) (rs : List Rewind) : Prop :=
  (final m s).walksTold = s.walksTold ++ rs.map Rewind.event

theorem Leaves.tells {m : EStateM ε State α} {s : State} (h : Leaves Calm m s) : Tells m s [] :=
  h.told.trans (List.append_nil _).symm

theorem Tells.bind {m : EStateM ε State α} {f : α → EStateM ε State β} {s : State}
    {rs : List Rewind} {rest : α → State → List Rewind} (hm : Tells m s rs)
    (hf : ∀ a t, m s = .ok a t → Tells (f a) t (rest a t)) :
    Tells (m >>= f) s (rs ++ thenRewinds rest (m s)) := by
  unfold Tells at hm ⊢
  cases h : m s with
  | ok a t =>
    rw [final_of_ok h] at hm
    rw [final_bind h, hf a t h, hm, List.map_append, List.append_assoc]
    rfl
  | error e t =>
    rw [final_of_error h] at hm
    rw [final_of_error (bind_of_error h), hm]
    exact congrArg _ (congrArg _ (List.append_nil rs).symm)

/-- What follows the rewinds tells of none. -/
theorem Tells.bind_calm {m : EStateM ε State α} {f : α → EStateM ε State β} {s : State}
    {rs : List Rewind} (hm : Tells m s rs)
    (hf : ∀ a t, m s = .ok a t → Leaves Calm (f a) t) : Tells (m >>= f) s rs := by
  have h : Tells (m >>= f) s (rs ++ thenRewinds (fun _ _ => []) (m s)) :=
    hm.bind fun a t h => (hf a t h).tells
  cases hrun : m s <;> simpa [hrun, thenRewinds] using h

theorem Tells.calm_bind {m : EStateM ε State α} {f : α → EStateM ε State β} {s : State}
    {rest : α → State → List Rewind} (hm : Leaves Calm m s)
    (hf : ∀ a t, m s = .ok a t → Tells (f a) t (rest a t)) :
    Tells (m >>= f) s (thenRewinds rest (m s)) :=
  hm.tells.bind hf

end Told

section Passes

variable (cx : Context)

theorem calm_effects {s t : State} (h : Effects 0 s t) : Calm s t := by
  induction h with
  | refl => exact refl_of Calm s
  | tail _ hstep ih => exact trans_of Calm ih ⟨hstep.onward.told, hstep.beyond.room⟩

theorem calm_visitAll (index : Nat) (nodes : List Node) (s : State) :
    Leaves Calm (visitAll cx index nodes) s :=
  ⟨(visitAll_onward cx index nodes s).told, (visitAll_beyond cx index nodes s).room⟩

theorem calm_judgeChanges (changes : List (String × Int32)) (s : State) :
    Leaves Calm (runStep cx (changes.forM fun (name, old) => judgeChange cx name old)) s := by
  refine calm_effects (Relation.ReflTransGen.trans ?_ (runStep_effects cx _ s))
  exact leaves_forM _ _ (fun change _ t => (quiet_judgeChange cx change.1 change.2 t).effects) s

theorem calm_closeRoutine (scope : RoutineScope) (s : State) :
    Leaves Calm (closeRoutine cx scope) s := by
  unfold closeRoutine
  refine Leaves.bind (leaves_modify (calm_of_image rfl rfl)) fun _ t _ => ?_
  split
  · exact Leaves.bind (leaves_modify (calm_of_image rfl (walksTold_push t rfl))) fun _ t _ =>
      calm_judgeChanges cx _ t
  · exact calm_judgeChanges cx _ t

theorem calm_endFixups (s : State) :
    Leaves Calm (match cx.mode with
      | .measuring =>
        modify fun s => { s with changed := s.changed || s.fixups.any (·.resolves cx s) }
      | .assembling => do
        let fixups := (← get).fixups.toList
        if !fixups.isEmpty then stopWith (.unresolvedReferences (waitingNames fixups)) : Pass Unit)
      s := by
  cases cx.mode with
  | measuring => exact leaves_modify (calm_of_image rfl rfl)
  | assembling =>
    refine leaves_get ?_
    dsimp only
    split
    · exact calm_effects (effects_stopWith _ s)
    · exact leaves_pure _ s

theorem calm_endPass (s : State) : Leaves Calm (endPass cx) s := by
  have hrecover : ∀ problem t, Leaves Calm (recover cx problem) t :=
    fun problem t => calm_effects (effects_recover cx problem t)
  have hdrop : ∀ {f : State → State} (k : Pass Unit) (problem : Problem) (t : State),
      Calm t (f t) → (∀ u, Leaves Calm k u) → Leaves Calm (do
        modify f
        recover cx problem
        k) t := fun k problem t hf hk =>
    (leaves_modify hf).bind fun _ t _ => (hrecover problem t).bind fun _ t _ => hk t
  unfold endPass
  refine leaves_get ?_
  cases s.table with
  | none =>
    refine leaves_get ?_
    cases s.vocabulary with
    | none => exact calm_endFixups cx s
    | some v => exact hdrop _ _ s (calm_of_image rfl rfl) (calm_endFixups cx)
  | some table =>
    refine hdrop _ _ s (calm_of_image rfl rfl) fun t => leaves_get ?_
    cases t.vocabulary with
    | none => exact calm_endFixups cx t
    | some v => exact hdrop _ _ t (calm_of_image rfl rfl) (calm_endFixups cx)

theorem walksTold_walkAgain (s : State) (next : RoutineScope) :
    (s.walkAgain next).walksTold = s.walksTold ++ [.walkingAgain next.routine next.walks] := by
  simp [State.walksTold, State.walkAgain, State.rewind, Event.walksAgain]

/-- What follows a walk tells of a rewind if there is one, and of those that come after it. -/
theorem tells_endWalk (r : Routine) (opened s : State) {again : Pass Unit}
    {rest : State → List Rewind} (h : ∀ t, Tells again t (rest t)) :
    Tells (endWalk cx (some again)) s (match s.nextWalk? with
      | none => []
      | some next => ⟨r, opened, s, next⟩ :: rest (s.walkAgain next)) := by
  unfold endWalk State.nextWalk?
  rw [Tells, show final (get >>= _) s = final _ s from final_bind rfl]
  cases s.scope with
  | none => exact (leaves_pure _ s : Leaves Calm _ s).tells
  | some scope =>
    cases hmoved : scope.moved with
    | false =>
      simp only [hmoved, Bool.not_false, if_true, Option.filter_some, Bool.false_eq_true, if_false,
        Option.bind_none]
      exact (calm_closeRoutine cx scope s).tells
    | true =>
      simp only [hmoved, Bool.not_true, Bool.false_eq_true, if_false, Option.filter_some, if_true,
        Option.bind_some]
      cases scope.nextWalk? with
      | none => exact Leaves.tells (calm_effects (effects_stopWith _ s))
      | some next =>
        show (final again (s.walkAgain next)).walksTold = _
        rw [h, walksTold_walkAgain, List.map_cons, List.append_assoc]
        rfl

theorem tells_walkRoutine (start : Nat) (r : Routine) (opened : State) (left : Nat) (s : State) :
    Tells (walkRoutine cx start r left) s (walkRewinds cx start r opened left s) := by
  induction left generalizing s with
  | zero =>
    refine Leaves.tells ((calm_visitAll cx start _ s).bind fun _ t _ => ?_)
    unfold endWalk
    refine leaves_get ?_
    split
    · exact leaves_pure _ t
    · next scope _ =>
      split
      · exact calm_closeRoutine cx scope t
      · cases scope.nextWalk? <;> exact calm_effects (effects_stopWith _ t)
  | succ left ih =>
    exact Tells.calm_bind (calm_visitAll cx start _ s) fun _ t _ => tells_endWalk cx r opened t ih

theorem tells_routines (start : Nat) (rs : List Routine) (s : State) :
    Tells (routines cx start rs) s (routinesRewinds cx start rs s) := by
  induction rs generalizing start s with
  | nil => exact (leaves_pure _ s : Leaves Calm _ s).tells
  | cons r rest ih =>
    have hr : Tells (routine cx start r) s (walkRewinds cx start r s maxWalks (s.enter start r)) :=
      tells_walkRoutine cx start r s maxWalks (s.enter start r)
    exact hr.bind fun _ t _ => ih _ t

theorem tells_pass (program : Program) (s : State) :
    Tells (pass cx program) s (passRewinds cx program s) := by
  refine Tells.calm_bind (calm_visitAll cx 0 _ s) fun _ t _ => ?_
  refine (tells_routines cx _ _ t).bind_calm fun index t _ => ?_
  dsimp only
  split
  · next n _ =>
    have hvisit : Leaves Calm (visit cx index n) t :=
      ⟨(visit_onward cx index n t).told, (visit_beyond cx index n t).room⟩
    exact hvisit.bind fun _ t _ => calm_endPass cx t
  · exact calm_endPass cx t

end Passes

/-! ## Runs -/

section Runs

variable (o : Options) (program : Program)

theorem tells_onePass (v : Version) (mode : Mode) (s : State) :
    Tells (onePass o program v mode) s (onePassRewinds o program v mode s) := by
  have htold : (s.beginPass o v mode).walksTold = s.walksTold := by
    simp only [State.walksTold, State.beginPass]
  unfold Tells
  rw [← htold]
  exact tells_pass _ program (s.beginPass o v mode)

theorem tells_measure (v : Version) (left : Nat) (s : State) :
    Tells (measure o program v left) s (measureRewinds o program v left s) := by
  induction left generalizing s with
  | zero => exact Leaves.tells (leaves_modify (calm_of_image rfl (walksTold_push s rfl)))
  | succ left ih =>
    refine (tells_onePass o program v .measuring s).bind fun _ t _ => ?_
    have ht : (t.measured left).walksTold = t.walksTold := walksTold_push t rfl
    have hrest : Tells (if t.changed then measure o program v left else pure () : Pass Unit)
        (t.measured left)
        (if t.changed then measureRewinds o program v left (t.measured left) else []) := by
      split
      · exact ih _
      · exact (leaves_pure _ _ : Leaves Calm _ _).tells
    unfold Tells at hrest ⊢
    rw [← ht]
    exact hrest

theorem tells_passes (v : Version) (s : State) :
    Tells (passes o program v) s (passesRewinds o program v s) :=
  (tells_measure o program v maxMeasuringPasses s).bind fun _ t _ =>
    tells_onePass o program v .assembling t

theorem walksTold_report (s : State) (severity : Severity) (problem : Problem) :
    (s.report severity problem).walksTold = s.walksTold := rfl

theorem walksTold_restart (s : State) (v : Version) : (s.restart v).walksTold = s.walksTold :=
  walksTold_push _ rfl

theorem tells_attempt (left : Nat) (tried : List Version) (v : Version) (s : State) :
    Tells (attempt o program left tried v) s (attemptRewinds o program left tried v s) := by
  have h := tells_passes o program v s
  unfold Tells final at h
  unfold Tells final attempt attemptRewinds
  cases hrun : passes o program v s with
  | ok a t => simpa [hrun] using h
  | error stop t =>
    cases stop with
    | failed problem => simpa [hrun] using h
    | restart wanted =>
      rw [hrun] at h
      dsimp only at h ⊢
      cases decide (wanted ∈ tried) with
      | true => cases left <;> simpa [walksTold_report] using h
      | false =>
        cases left with
        | zero => simpa [walksTold_report] using h
        | succ left =>
          have ih := tells_attempt left (wanted :: tried) wanted (t.restart wanted)
          unfold Tells final at ih
          rw [walksTold_restart, h] at ih
          dsimp only
          rw [List.map_append, ← List.append_assoc]
          exact ih

end Runs

theorem calm_finishStory (o : Options) (v : Version) (s : State) :
    Leaves Calm (finishStory o v) s := by
  unfold Leaves final finishStory
  by_cases herrors : 0 < errorCount s.diagnostics.toList
  · simp only [if_pos herrors]
    exact refl_of Calm s
  · by_cases hlong : v.maxStorySize < Story.lengthFor v s.image.length
    · simp only [if_neg herrors, if_pos hlong]
      exact calm_of_image rfl rfl
    · simp only [if_neg herrors, if_neg hlong]
      exact calm_of_image rfl (walksTold_push s rfl)

/-- The log of a run tells of its rewinds, each in its turn. -/
theorem told_assemble (o : Options) (nodes : List Node) :
    (assemble o nodes).log.filter Event.walksAgain = (rewinds o nodes).map Rewind.event := by
  have h : Tells (run o (.ofNodes nodes)) (.initial o.version) (rewinds o nodes) :=
    (tells_attempt o _ _ _ _ _).bind_calm fun v s _ => calm_finishStory o v s
  unfold Tells final at h
  unfold assemble
  cases hrun : run o (.ofNodes nodes) (.initial o.version) with
  | ok story s =>
    rw [hrun] at h
    exact h
  | error problem s =>
    rw [hrun] at h
    exact h

/-! ## Walks of a routine -/

theorem nextWalk?_eq_some {s : State} {next : RoutineScope} (h : s.nextWalk? = some next) :
    ∃ scope, s.scope = some scope ∧ scope.nextWalk? = some next := by
  unfold State.nextWalk? at h
  obtain ⟨scope, hscope, hnext⟩ := Option.bind_eq_some_iff.mp h
  exact ⟨scope, (Option.filter_eq_some_iff.mp hscope).1, hnext⟩

/-- The routine is being walked, in a pass that came to it in state `opened`. -/
structure Walking (start : Nat) (r : Routine) (opened s : State) : Prop where
  grows : Grows (opened.enter start r) s
  room : s.Room
  reaches : min opened.image.cursor (2 ^ 32) ≤ s.image.size

section Walks

variable {cx : Context} {start left : Nat} {r : Routine} {opened s t : State}

theorem walking_enter (h : opened.Room) : Walking start r opened (opened.enter start r) :=
  ⟨grows_of_mark rfl fun a ha => ⟨a, ha, rfl⟩, h, h⟩

theorem Walking.visitAll (h : Walking start r opened s) {index : Nat} {nodes : List Node}
    (ht : visitAll cx index nodes s = .ok () t) : Walking start r opened t := by
  have honward := (visitAll_onward cx index nodes s).of_ok ht
  exact ⟨h.grows.trans honward.grows, ((calm_visitAll cx index nodes s).of_ok ht).room h.room,
    Nat.le_trans h.reaches honward.size⟩

/-- Another walk has the snapshot of the first. -/
theorem Walking.snapshot (h : Walking start r opened s) {next : RoutineScope}
    (hnext : s.nextWalk? = some next) : next.snapshot = opened.snapshot := by
  obtain ⟨scope, hscope, hnext⟩ := nextWalk?_eq_some hnext
  obtain ⟨b, hb, hsnapshot⟩ := h.grows.scope _ rfl
  cases hscope.symm.trans hb
  exact (nextWalk_continues hnext).1.trans hsnapshot

theorem Walking.walkAgain (h : Walking start r opened s) {next : RoutineScope}
    (hnext : s.nextWalk? = some next) : Walking start r opened (s.walkAgain next) := by
  have hsnapshot := h.snapshot hnext
  have hposition : next.snapshot.position = opened.image.cursor := by rw [hsnapshot]; rfl
  have hcursor : (s.walkAgain next).image.cursor = opened.image.cursor := hposition
  have hreaches := h.reaches
  obtain ⟨scope, hscope, hnext⟩ := nextWalk?_eq_some hnext
  refine ⟨walkAgain_grows h.grows hscope hnext, ?_, ?_⟩
  · unfold State.Room
    rw [size_walkAgain, hcursor, hposition]
    omega
  · rw [size_walkAgain, hposition]
    omega

theorem Walking.endWalk (h : Walking start r opened s) {again : Option (Pass Unit)}
    (ht : endWalk cx again s = .ok () t)
    (hagain : ∀ walk u, again = some walk → Walking start r opened u → walk u = .ok () t → t.Room) :
    t.Room := by
  rcases endWalk_cases ht with ⟨-, rfl⟩ | ⟨scope, -, -, hclose⟩ |
    ⟨scope, next, walk, hs, hmoved, hnext, hwalk, ht⟩
  · exact h.room
  · exact ((calm_closeRoutine cx scope s).of_ok hclose).room h.room
  · have hnextWalk : s.nextWalk? = some next := by
      unfold State.nextWalk?
      rw [hs, Option.filter_some, if_pos hmoved]
      exact hnext
    exact hagain walk _ hwalk (h.walkAgain hnextWalk) ht

theorem Walking.walkRoutine (h : Walking start r opened s)
    (ht : walkRoutine cx start r left s = .ok () t) : t.Room := by
  induction left generalizing s with
  | zero =>
    obtain ⟨⟨⟩, u, hu, hend⟩ := bind_ok ht
    exact (h.visitAll hu).endWalk hend fun _ _ hnone => nomatch hnone
  | succ left ih =>
    obtain ⟨⟨⟩, u, hu, hend⟩ := bind_ok ht
    refine (h.visitAll hu).endWalk hend fun walk w hwalk hw hagain => ?_
    cases hwalk
    exact ih hw hagain

/-- A property of the walks of a routine holds at each of its rewinds. -/
theorem mem_walkRewinds {P : State → Prop} (hs : P s)
    (hvisit : ∀ s t, P s → visitAll cx start r.nodes s = .ok () t → P t)
    (hagain : ∀ x ∈ walkRewinds cx start r opened left s, x.walked.nextWalk? = some x.next →
      P x.walked → P x.again) :
    ∀ x ∈ walkRewinds cx start r opened left s,
      x.routine = r ∧ x.opened = opened ∧ x.walked.nextWalk? = some x.next ∧ P x.walked := by
  induction left generalizing s with
  | zero => exact fun x hx => nomatch hx
  | succ left ih =>
    intro x hx
    unfold walkRewinds at hx hagain
    cases ht : visitAll cx start r.nodes s with
    | error e t =>
      rw [ht] at hx
      cases hx
    | ok a t =>
      have hP := hvisit s t hs ht
      rw [ht] at hx hagain
      dsimp only [thenRewinds] at hx hagain
      cases hnext : t.nextWalk? with
      | none =>
        rw [hnext] at hx
        cases hx
      | some next =>
        rw [hnext] at hx hagain
        rcases List.mem_cons.mp hx with rfl | hx
        · exact ⟨rfl, rfl, hnext, hP⟩
        · refine ih (hagain ⟨r, opened, t, next⟩ List.mem_cons_self hnext hP) (fun y hy => ?_) x hx
          exact hagain y (List.mem_cons_of_mem _ hy)

theorem walkRewinds_walking (h : Walking start r opened s) :
    ∀ x ∈ walkRewinds cx start r opened left s, x.routine = r ∧ x.opened = opened ∧
      x.walked.nextWalk? = some x.next ∧ Walking start r opened x.walked :=
  mem_walkRewinds h (fun _ _ hs ht => hs.visitAll ht) fun _ _ hnext hw => hw.walkAgain hnext

theorem Beyond.walkAgain (h : Beyond opened s) {next : RoutineScope}
    (hsnapshot : next.snapshot = opened.snapshot) : Beyond opened (s.walkAgain next) := by
  have hposition : next.snapshot.position = opened.image.cursor := by rw [hsnapshot]; rfl
  have hcursor : (s.walkAgain next).image.cursor = opened.image.cursor := hposition
  have hbelow := Nat.le_trans h.cursor h.within
  refine ⟨Nat.le_of_eq hcursor.symm, ?_, fun table htable => ?_⟩
  · rw [size_walkAgain, hcursor, hposition]
    omega
  · exact h.table table (Option.filter_eq_some_iff.mp htable).1

/-- A table is open again if it has begun before the routine and the walk has left it open. -/
theorem Beyond.table_walkAgain (h : Beyond opened s) {next : RoutineScope}
    (hsnapshot : next.snapshot = opened.snapshot) :
    (s.walkAgain next).table = opened.table ↔ ∀ table, opened.table = some table →
      table.start < opened.image.cursor ∧ s.table = some table := by
  have hfilter : (s.walkAgain next).table = s.table.filter (·.start < opened.image.cursor) := by
    show s.table.filter (·.start < next.snapshot.position) = _
    rw [hsnapshot]
    rfl
  rw [hfilter]
  constructor
  · intro heq table htable
    obtain ⟨hs, hstart⟩ := Option.filter_eq_some_iff.mp (heq.trans htable)
    exact ⟨of_decide_eq_true hstart, hs⟩
  · intro hkept
    cases hopened : opened.table with
    | some table =>
      obtain ⟨hstart, hs⟩ := hkept table hopened
      exact Option.filter_eq_some_iff.mpr ⟨hs, decide_eq_true hstart⟩
    | none =>
      refine Option.filter_eq_none_iff.mpr fun table hs hstart => ?_
      rcases h.table table hs with hsame | hlater
      · exact nomatch hopened.symm.trans hsame
      · exact absurd (of_decide_eq_true hstart) (Nat.not_lt.mpr hlater)

theorem fixups_walkAgain (h : Inside opened s) {next : RoutineScope}
    (hsnapshot : next.snapshot = opened.snapshot) : (s.walkAgain next).fixups = opened.fixups := by
  show s.fixups.take next.snapshot.fixups = _
  rw [hsnapshot]
  exact take_prefix_eq h.fixups

/-- The bytes below the routine are all that is left. -/
theorem bytes_walkAgain (hbeyond : Beyond opened s) (h : Inside opened s)
    (hwithin : opened.image.cursor ≤ opened.image.size) {next : RoutineScope}
    (hsnapshot : next.snapshot = opened.snapshot) :
    (s.walkAgain next).image.bytes.toList =
      opened.image.bytes.toList.take opened.image.cursor := by
  have htake : (s.walkAgain next).image.bytes.toList =
      s.image.bytes.toList.take opened.image.cursor := by
    show (s.image.bytes.take next.snapshot.position).toList = _
    rw [hsnapshot, Array.take_eq_extract, Array.toList_extract]
    simp [State.snapshot]
  rw [htake]
  exact Image.take_eq_of_readByte (Nat.le_trans hbeyond.cursor hbeyond.within) hwithin h.bytes

theorem Framed.walkAgain {closes : Prop} (h : Framed closes opened s) {next : RoutineScope}
    (hsnapshot : next.snapshot = opened.snapshot) : Framed closes opened (s.walkAgain next) := by
  have hposition : next.snapshot.position = opened.image.cursor := by rw [hsnapshot]; rfl
  refine ⟨h.beyond.walkAgain hsnapshot, ⟨fun a ha => ?_, ?_, ?_⟩, h.inner⟩
  · have hbelow : a < next.snapshot.position := hposition ▸ ha
    exact (Image.readByte_truncate s.image hbelow).trans (h.inside.bytes a ha)
  · rw [fixups_walkAgain h.inside hsnapshot]
  · rw [fixups_walkAgain h.inside hsnapshot]
    exact (Inside.refl opened).waiting

/-- What reading nodes and walking again keep is kept at every rewind of a routine, if none of its
    walks is too long. -/
theorem walkRewinds_keep {P : State → Prop} (hw : Walking start r opened s)
    (hfit : ∀ x ∈ walkRewinds cx start r opened left s, x.walked.image.size < 2 ^ 32)
    (hs : s.image.size < 2 ^ 32 → P s)
    (hvisits : ∀ s, Leaves (Keeps P) (visitAll cx start r.nodes) s)
    (hagain : ∀ s next, P s → next.snapshot = opened.snapshot → P (s.walkAgain next)) :
    ∀ x ∈ walkRewinds cx start r opened left s, P x.walked := by
  let Q : State → Prop := fun t => Walking start r opened t ∧ (t.image.size < 2 ^ 32 → P t)
  have hvisitsQ : ∀ s t, Q s → visitAll cx start r.nodes s = .ok () t → Q t := by
    refine fun s t h ht => ⟨h.1.visitAll ht, fun htfit => ?_⟩
    have hkeeps := (hvisits s).of_ok ht
    exact hkeeps.keeps htfit (h.2 (Nat.lt_of_le_of_lt hkeeps.size htfit))
  have hagainQ : ∀ x ∈ walkRewinds cx start r opened left s, x.walked.nextWalk? = some x.next →
      Q x.walked → Q x.again :=
    fun x hx hnext h => ⟨h.1.walkAgain hnext, fun _ =>
      hagain x.walked x.next (h.2 (hfit x hx)) (h.1.snapshot hnext)⟩
  intro x hx
  obtain ⟨-, -, -, -, hkept⟩ := mem_walkRewinds (P := Q) ⟨hw, hs⟩ hvisitsQ hagainQ x hx
  exact hkept (hfit x hx)

end Walks

/-! ## Passes -/

/-- The rewinds are those of whole routines: with each come all that its routine has in the pass. -/
def Whole (rs : List Rewind) : Prop :=
  ∀ x ∈ rs, ∃ cx start, x.opened.Room ∧
    x ∈ walkRewinds cx start x.routine x.opened maxWalks (x.opened.enter start x.routine) ∧
    walkRewinds cx start x.routine x.opened maxWalks (x.opened.enter start x.routine) ⊆ rs

theorem whole_nil : Whole [] := fun _ hx => nomatch hx

theorem Whole.append {rs rs' : List Rewind} (h : Whole rs) (h' : Whole rs') :
    Whole (rs ++ rs') := by
  intro x hx
  rcases List.mem_append.mp hx with hx | hx
  · obtain ⟨cx, start, hroom, hmem, hsub⟩ := h x hx
    exact ⟨cx, start, hroom, hmem, List.Subset.trans hsub (List.subset_append_left rs rs')⟩
  · obtain ⟨cx, start, hroom, hmem, hsub⟩ := h' x hx
    exact ⟨cx, start, hroom, hmem, List.Subset.trans hsub (List.subset_append_right rs rs')⟩

theorem whole_then {ε α : Type} {rest : α → State → List Rewind} {result : EStateM.Result ε State α}
    (h : ∀ a t, result = .ok a t → Whole (rest a t)) : Whole (thenRewinds rest result) := by
  cases result with
  | ok a t => exact h a t rfl
  | error e t => exact whole_nil

section Whole

variable (cx : Context) (o : Options) (program : Program)

theorem whole_routine (start : Nat) (r : Routine) {s : State} (hs : s.Room) :
    Whole (walkRewinds cx start r s maxWalks (s.enter start r)) := by
  intro x hx
  obtain ⟨rfl, rfl, -, -⟩ := walkRewinds_walking (walking_enter hs) x hx
  exact ⟨cx, start, hs, hx, List.Subset.refl _⟩

theorem whole_routines (start : Nat) (rs : List Routine) {s : State} (hs : s.Room) :
    Whole (routinesRewinds cx start rs s) := by
  induction rs generalizing start s with
  | nil => exact whole_nil
  | cons r rest ih =>
    refine (whole_routine cx start r hs).append (whole_then fun _ t ht => ih _ ?_)
    have hwalks : walkRoutine cx start r maxWalks (s.enter start r) = .ok () t := ht
    exact (walking_enter hs).walkRoutine hwalks

theorem whole_pass {s : State} (hs : s.Room) : Whole (passRewinds cx program s) :=
  whole_then fun _ _ ht => whole_routines cx _ _ (((calm_visitAll cx 0 _ s).of_ok ht).room hs)

theorem room_beginPass (v : Version) (mode : Mode) (s : State) : (s.beginPass o v mode).Room := by
  have hcursor : (Image.fill {} Story.headerSize 0).cursor = Story.headerSize := by decide +kernel
  have hsize : (Image.fill {} Story.headerSize 0).size = Story.headerSize := by decide +kernel
  show min (Image.fill {} Story.headerSize 0).cursor _ ≤ (Image.fill {} Story.headerSize 0).size
  rw [hcursor, hsize]
  exact Nat.min_le_left _ _

theorem whole_onePass (v : Version) (mode : Mode) (s : State) :
    Whole (onePassRewinds o program v mode s) :=
  whole_pass _ program (room_beginPass o v mode s)

theorem whole_measure (v : Version) (left : Nat) (s : State) :
    Whole (measureRewinds o program v left s) := by
  induction left generalizing s with
  | zero => exact whole_nil
  | succ left ih =>
    refine (whole_onePass o program v .measuring s).append (whole_then fun _ t _ => ?_)
    split
    · exact ih _
    · exact whole_nil

theorem whole_passes (v : Version) (s : State) : Whole (passesRewinds o program v s) :=
  (whole_measure o program v maxMeasuringPasses s).append
    (whole_then fun _ t _ => whole_onePass o program v .assembling t)

theorem whole_attempt (left : Nat) (tried : List Version) (v : Version) (s : State) :
    Whole (attemptRewinds o program left tried v s) := by
  unfold attemptRewinds
  refine (whole_passes o program v s).append ?_
  split
  · next wanted t _ =>
    match left, decide (wanted ∈ tried) with
    | left + 1, false => exact whole_attempt left (wanted :: tried) wanted (t.restart wanted)
    | left + 1, true => exact whole_nil
    | 0, _ => exact whole_nil
  · exact whole_nil

end Whole

/-! ## What a rewind gives back -/

section Rewound

variable {o : Options} {nodes : List Node} {x : Rewind}

theorem rewinds_walking (hx : x ∈ rewinds o nodes) :
    ∃ start, Walking start x.routine x.opened x.walked ∧ x.walked.nextWalk? = some x.next := by
  obtain ⟨cx, start, hroom, hmem, -⟩ := whole_attempt o _ _ _ _ _ x hx
  obtain ⟨-, -, hnext, hwalking⟩ := walkRewinds_walking (walking_enter hroom) x hmem
  exact ⟨start, hwalking, hnext⟩

theorem rewinds_keep (hx : x ∈ rewinds o nodes)
    (hfit : ∀ y ∈ rewinds o nodes, y.walked.image.size < 2 ^ 32) {P : State → Prop}
    (hopened : x.opened.image.cursor ≤ x.opened.image.size →
      ∀ start, P (x.opened.enter start x.routine))
    (hvisits : ∀ cx start s, Leaves (Keeps P) (visitAll cx start x.routine.nodes) s)
    (hagain : ∀ s next, P s → next.snapshot = x.opened.snapshot → P (s.walkAgain next)) :
    P x.walked := by
  obtain ⟨cx, start, hroom, hmem, hsub⟩ := whole_attempt o _ _ _ _ _ x hx
  refine walkRewinds_keep (walking_enter hroom) (fun y hy => hfit y (hsub hy)) (fun hsize => ?_)
    (fun s => hvisits cx start s) hagain x hmem
  have hsize : x.opened.image.size < 2 ^ 32 := hsize
  unfold State.Room at hroom
  exact hopened (by omega) start

theorem rewinds_within (hx : x ∈ rewinds o nodes)
    (hfit : ∀ y ∈ rewinds o nodes, y.walked.image.size < 2 ^ 32) :
    x.opened.image.cursor ≤ x.opened.image.size :=
  rewinds_keep (P := fun _ => _) hx hfit (fun hwithin _ => hwithin)
    (fun cx start s => ⟨(visitAll_onward cx start _ s).size, fun _ h => h⟩) (fun _ _ h _ => h)

theorem rewinds_beyond (hx : x ∈ rewinds o nodes)
    (hfit : ∀ y ∈ rewinds o nodes, y.walked.image.size < 2 ^ 32) : Beyond x.opened x.walked :=
  rewinds_keep hx hfit
    (fun hwithin _ => beyond_of_eq (.refl hwithin) rfl (Nat.le_refl _) rfl)
    (fun cx start s => visitAll_beyond cx start _ s) (fun _ _ h => h.walkAgain)

theorem rewinds_inside (hx : x ∈ rewinds o nodes)
    (hfit : ∀ y ∈ rewinds o nodes, y.walked.image.size < 2 ^ 32)
    (hopen : x.opened.vocabulary = none ∨
      ∀ n ∈ x.routine.nodes, n.kind ≠ .directive .vocend) : Inside x.opened x.walked := by
  have hframed : Framed (x.opened.vocabulary = none) x.opened x.walked := by
    refine rewinds_keep hx hfit (fun hwithin _ => ?_) (fun cx start s => ?_)
      (fun _ _ h => h.walkAgain)
    · have hsame : Framed (x.opened.vocabulary = none) x.opened x.opened :=
        ⟨.refl hwithin, .refl _, fun hnone v hv => nomatch hnone.symm.trans hv⟩
      exact framed_of_eq hsame rfl rfl rfl rfl
    · refine visitAll_framed cx start _ (fun n hn hkind => ?_) s
      exact hopen.resolve_right fun h => h n hn hkind
  exact hframed.inside

end Rewound

/-- Walking a routine again gives back how far the pass had come when it reached the routine: its
    counters, records, diagnostics, collected text, abbreviations, packing bases and position. The
    log tells of every rewind. As long as no image grows to 2^32 bytes, the rewind also gives back

    * the table that was open, if it had begun before the routine and the walk has not closed it,
    * the bytes and the fixups, unless the walk has ended a block that was open.

    The vocabulary block stays as the walk left it. -/
theorem rewinding_restores (o : Options) (nodes : List Node) :
    (assemble o nodes).log.filter Event.walksAgain = (rewinds o nodes).map Rewind.event ∧
    ∀ x ∈ rewinds o nodes,
      x.again.mark = x.opened.mark ∧
      x.again.vocabulary = x.walked.vocabulary ∧
      ((∀ y ∈ rewinds o nodes, y.walked.image.size < 2 ^ 32) →
        (x.again.table = x.opened.table ↔ ∀ table, x.opened.table = some table →
          table.start < x.opened.image.cursor ∧ x.walked.table = some table) ∧
        (x.opened.vocabulary = none ∨ (∀ n ∈ x.routine.nodes, n.kind ≠ .directive .vocend) →
          x.again.image.bytes.toList = x.opened.image.bytes.toList.take x.opened.image.cursor ∧
          x.again.fixups = x.opened.fixups)) := by
  refine ⟨told_assemble o nodes, fun x hx => ?_⟩
  obtain ⟨start, hwalking, hnext⟩ := rewinds_walking hx
  have hsnapshot := hwalking.snapshot hnext
  obtain ⟨scope, hscope, hnext⟩ := nextWalk?_eq_some hnext
  refine ⟨walkAgain_mark hwalking.grows hscope hnext, rfl, fun hfit => ?_⟩
  have hbeyond := rewinds_beyond hx hfit
  refine ⟨hbeyond.table_walkAgain hsnapshot, fun hopen => ?_⟩
  have hinside := rewinds_inside hx hfit hopen
  exact ⟨bytes_walkAgain hbeyond hinside (rewinds_within hx hfit) hsnapshot,
    fixups_walkAgain hinside hsnapshot⟩

/-- A table that is open while `R` is walked again and again. -/
def spanned : List Node :=
  [⟨.directive (.table none), {}⟩, ⟨.directive (.word [.symbol "S"]), {}⟩,
    ⟨.directive (.funct "R" []), {}⟩,
    ⟨.instruction
      { opcode := "ZERO?", operands := [.number 1], branch := some ⟨true, .label "L"⟩ }, {}⟩,
    ⟨.localLabel "L", {}⟩, ⟨.instruction { opcode := "RTRUE" }, {}⟩,
    ⟨.directive (.funct "S" []), {}⟩, ⟨.directive .endt, {}⟩,
    ⟨.instruction { opcode := "RTRUE" }, {}⟩]

def spannedOptions : Options := { version := .v3, identity := { serial := "000000" } }

/-- The table is open again, and the fixup for `S` waits. -/
theorem spanned_restores :
    (∀ y ∈ rewinds spannedOptions spanned, y.walked.image.size < 2 ^ 32) ∧
    ∃ x ∈ rewinds spannedOptions spanned, x.event = .walkingAgain "R" 3 ∧
      x.opened.fixups.size = 1 ∧ x.again.mark = x.opened.mark ∧
      x.again.table = some { start := 64, size := none } ∧ x.again.table = x.opened.table ∧
      x.again.image.bytes.toList = x.opened.image.bytes.toList.take x.opened.image.cursor ∧
      x.again.fixups = x.opened.fixups := by
  have hrun : ((rewinds spannedOptions spanned).all
      (fun y => decide (y.walked.image.size < 2 ^ 32)) &&
      (rewinds spannedOptions spanned).any fun x => decide (x.event = .walkingAgain "R" 3 ∧
        x.opened.fixups.size = 1 ∧ x.opened.table = some { start := 64, size := none } ∧
        64 < x.opened.image.cursor ∧ x.walked.table = some { start := 64, size := none } ∧
        x.opened.vocabulary = none)) = true := by decide +kernel
  simp only [Bool.and_eq_true, List.all_eq_true, List.any_eq_true, decide_eq_true_eq] at hrun
  obtain ⟨hfit, x, hx, hevent, hfixups, hopened, hstart, hwalked, hblock⟩ := hrun
  obtain ⟨hmark, -, hrest⟩ := (rewinding_restores spannedOptions spanned).2 x hx
  obtain ⟨htable, hinside⟩ := hrest hfit
  have hsame : x.again.table = x.opened.table := by
    refine htable.mpr fun table h => ?_
    cases hopened.symm.trans h
    exact ⟨hstart, hwalked⟩
  exact ⟨hfit, x, hx, hevent, hfixups, hmark, hsame.trans hopened, hsame, hinside (.inl hblock)⟩

/-- The table and the block are open when `R` begins, and `R` ends both. -/
def interrupted : List Node :=
  [⟨.directive (.table none), {}⟩, ⟨.directive (.vocbeg (.number 3) (.number 2)), {}⟩,
    ⟨.directive (.word [.symbol "R"]), {}⟩, ⟨.directive (.funct "R" []), {}⟩,
    ⟨.directive .vocend, {}⟩, ⟨.directive .endt, {}⟩,
    ⟨.instruction
      { opcode := "ZERO?", operands := [.number 1], branch := some ⟨true, .label "L"⟩ }, {}⟩,
    ⟨.localLabel "L", {}⟩, ⟨.instruction { opcode := "RTRUE" }, {}⟩]

def interruptedOptions : Options := { version := .v3, identity := { serial := "000000" } }

/-- The second walk finds neither open, and the word of `R` is written and waits no longer. -/
theorem interrupted_differs :
    ∃ x ∈ rewinds interruptedOptions interrupted, x.event = .walkingAgain "R" 2 ∧
      x.again.table ≠ x.opened.table ∧ x.again.vocabulary ≠ x.opened.vocabulary ∧
      x.again.fixups ≠ x.opened.fixups ∧ x.again.image.bytes ≠ x.opened.image.bytes := by
  have hrun : ((rewinds interruptedOptions interrupted).any fun x => decide
      (x.event = .walkingAgain "R" 2 ∧ x.again.table ≠ x.opened.table ∧
        x.again.vocabulary ≠ x.opened.vocabulary ∧ x.again.fixups ≠ x.opened.fixups ∧
        x.again.image.bytes ≠ x.opened.image.bytes)) = true := by decide +kernel
  simp only [List.any_eq_true, decide_eq_true_eq] at hrun
  exact hrun

end ZAssembler.Assembly
