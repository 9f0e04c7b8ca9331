import Mathlib.Algebra.GroupWithZero.Nat
import Mathlib.Data.List.Perm.Subperm
import ZAssembler.Proofs.Invariant
import ZAssembler.Proofs.Measuring

/-
  The budgets of a run. A run tries each version at most once, measures at most sixteen times for
  each version and walks a routine at most eight times in a pass. The passes that are begun and the
  stays in routines are listed here as the run comes to them (`begunPasses`, `BegunPass.stays`), and
  the counts of the run are read off these lists.

  The loops over versions and over walks are given a number of rounds that they never use up: with
  any greater number they do the same (`attempt_ample`, `walkRoutine_ample`).
-/

namespace ZAssembler.Assembly

variable {ε α β : Type}

/-! ## What is begun -/

/-- A pass over a program that is begun in state `start`. -/
structure BegunPass where
  context : Context
  program : Program
  start : State

/-- A routine in a pass. -/
structure Stay where
  routine : Routine
  /-- The states in which its walks begin. -/
  walks : List State
  /-- The labels stood still in the last walk. -/
  completed : Bool

/-- The walks beyond the first, if the stay is completed. -/
def Stay.repeats (x : Stay) : Nat := if x.completed then x.walks.length - 1 else 0

/-- The walk that ended here found its labels where they were expected. -/
def State.standsStill (s : State) : Bool := s.scope.any (!·.moved)

/-- The stay in a routine from a walk on that begins in state `s`. -/
def stayFrom (cx : Context) (start : Nat) (r : Routine) : (left : Nat) → State → Stay
  | 0, s =>
    match visitAll cx start r.nodes s with
    | .ok () t => ⟨r, [s], t.standsStill⟩
    | .error _ _ => ⟨r, [s], false⟩
  | left + 1, s =>
    match visitAll cx start r.nodes s with
    | .ok () t =>
      match t.nextWalk? with
      | some next =>
        let rest := stayFrom cx start r left (t.walkAgain next)
        { rest with walks := s :: rest.walks }
      | none => ⟨r, [s], t.standsStill⟩
    | .error _ _ => ⟨r, [s], false⟩

def routinesStays (cx : Context) : Nat → List Routine → State → List Stay
  | _, [], _ => []
  | start, r :: rest, s =>
    stayFrom cx start r maxWalks (s.enter start r) ::
      (routine cx start r s |> following fun _ t =>
        routinesStays cx (start + 1 + r.body.length) rest t)

def BegunPass.stays (p : BegunPass) : List Stay :=
  visitAll p.context 0 p.program.preamble p.start |> following fun _ t =>
    routinesStays p.context p.program.preamble.length p.program.routines t

/-- The pass that follows state `s`. -/
def State.nextPass (s : State) (o : Options) (program : Program) (v : Version) (mode : Mode) :
    BegunPass :=
  ⟨s.nextContext o v mode, program, s.beginPass o v mode⟩

/-- The measuring passes that are begun, at most `left`. -/
def begunMeasuring (o : Options) (program : Program) (v : Version) : (left : Nat) → State →
    List BegunPass
  | 0, _ => []
  | left + 1, s =>
    s.nextPass o program v .measuring ::
      (onePass o program v .measuring s |> following fun _ t =>
        if t.changed then begunMeasuring o program v left (t.measured left) else [])

/-- The passes that are begun for version `v`. -/
def begunFor (o : Options) (program : Program) (v : Version) (s : State) : List BegunPass :=
  begunMeasuring o program v maxMeasuringPasses s ++
    (measure o program v maxMeasuringPasses s |> following fun _ t =>
      [t.nextPass o program v .assembling])

/-- The passes that the assembly of a program begins. -/
def begunPasses (o : Options) (nodes : List Node) : List BegunPass :=
  (attempts o nodes).flatMap fun x => begunFor o (.ofNodes nodes) x.1 x.2

/-! ## Counting walks -/

/-- The counts after so many more walks of completed stays. -/
def Counts.rewalk (c : Counts) (count : Nat) : Counts :=
  { c with reassemblies := c.reassemblies + count }

/-- Between the states `count` walks are counted, and nothing else. -/
def Counted (count : Nat) (s t : State) : Prop := t.counts = s.counts.rewalk count

theorem Counted.trans {a b : Nat} {s t u : State} (hst : Counted a s t) (htu : Counted b t u) :
    Counted (a + b) s u := by
  unfold Counted at *
  rw [htu, hst]
  unfold Counts.rewalk
  rw [Nat.add_assoc]

instance : Std.Refl (Counted 0) where
  refl _ := rfl

instance : IsTrans State (Counted 0) where
  trans _ _ _ hst htu := hst.trans htu

/-- The work of a node counts nothing. -/
theorem Work.counted {n : Node} {a : Nat} {cx cx' : Context} {g : Extent} {s : State}
    {m m' : Step α} (h : Work n a cx cx' g s m m') : Leaves (Counted 0) m s :=
  h.untouched.imp fun _ ht => ht.counts

section Counting

variable (cx : Context)

theorem counted_runStep {step : Step Unit} {s : State} (h : Leaves (Counted 0) step s) :
    Leaves (Counted 0) (runStep cx step) s :=
  leaves_runStep cx (fun _ _ _ => rfl) h

theorem counted_recover (problem : Problem) (s : State) :
    Leaves (Counted 0) (recover cx problem) s := by
  refine Leaves.bind (leaves_modify rfl) fun _ t _ => leaves_get ?_
  cases t.tooManyErrors? cx with
  | none => exact leaves_pure _ t
  | some tooMany => exact (rfl : t.counts = t.counts)

theorem counted_visit (index : Nat) (n : Node) (s : State) :
    Leaves (Counted 0) (visit cx index n) s :=
  Leaves.bind (leaves_modify rfl) fun _ t _ => counted_runStep cx (node_work (.refl cx) n t).counted

theorem counted_visitAll (index : Nat) (nodes : List Node) (s : State) :
    Leaves (Counted 0) (visitAll cx index nodes) s := by
  induction nodes generalizing index s with
  | nil => exact leaves_pure () s
  | cons n rest ih => exact (counted_visit cx index n s).bind fun _ t _ => ih (index + 1) t

theorem counted_endPass (s : State) : Leaves (Counted 0) (endPass cx) s := by
  have htable (t : State) : Leaves (Counted 0) (dropTable cx) t := by
    refine leaves_get ?_
    cases t.table with
    | none => exact leaves_pure _ t
    | some table => exact Leaves.bind (leaves_modify rfl) fun _ u _ => counted_recover cx _ u
  have hvocabulary (t : State) : Leaves (Counted 0) (dropVocabulary cx) t := by
    refine leaves_get ?_
    cases t.vocabulary with
    | none => exact leaves_pure _ t
    | some block => exact Leaves.bind (leaves_modify rfl) fun _ u _ => counted_recover cx _ u
  have hlook (t : State) : Leaves (Counted 0) (lookBack cx) t := by
    unfold lookBack
    cases cx.mode with
    | measuring => exact leaves_modify rfl
    | assembling =>
      refine leaves_get ?_
      dsimp only
      split
      · exact (rfl : t.counts = t.counts)
      · exact leaves_pure _ t
  rw [endPass_parts]
  exact (htable s).bind fun _ t _ => (hvocabulary t).bind fun _ u _ => hlook u

/-- A routine that is left has each of its walks beyond the first counted. -/
theorem counted_closeRoutine (scope : RoutineScope) (s : State) :
    Leaves (Counted (scope.walks - 1)) (closeRoutine cx scope) s := by
  have hjudge (t : State) : Counted 0 t (final (runStep cx (judgeAll cx scope.deferred)) t) :=
    counted_runStep cx (work_judgeAll (.refl cx) scope.deferred t).counted
  unfold closeRoutine
  by_cases hwalks : 1 < scope.walks
  · rw [if_pos hwalks]
    exact hjudge _
  · rw [if_neg hwalks, show scope.walks - 1 = 0 by omega]
    exact hjudge _

end Counting

/-! ## Walks of a routine -/

theorem Act.continues {n : Node} {here : Nat} {s t : State} (h : Act n here s t) {a : RoutineScope}
    (ha : s.scope = some a) : ∃ b, t.scope = some b ∧ Continues a b := by
  cases h with
  | effect h =>
    cases h with
    | quiet h => exact ⟨a, h.scope.trans ha, .refl a⟩
    | scope c b hc hcb =>
      cases hc.symm.trans ha
      exact ⟨b, rfl, hcb⟩
    | report | store | fixup | block | openBlock | table | pack | register => exact ⟨a, ha, .refl a⟩
  | close hnode h => exact ⟨a, h.scope.trans ha, .refl a⟩
  | object | globalVar | record | text => exact ⟨a, ha, .refl a⟩

/-- The scope of a routine goes on while its nodes are read, in any pass. -/
theorem visitAll_continues {cx : Context} {nodes : List Node} {index : Nat} {s t : State}
    {a : RoutineScope} (ha : s.scope = some a) (h : visitAll cx index nodes s = .ok () t) :
    ∃ b, t.scope = some b ∧ Continues a b := by
  induction nodes generalizing index s a with
  | nil =>
    cases h
    exact ⟨a, ha, .refl a⟩
  | cons n rest ih =>
    obtain ⟨⟨⟩, u, hvisit, hrest⟩ := bind_ok h
    have hacts := visit_acts cx index n s
    rw [final_of_ok hvisit] at hacts
    have hu : ∃ b, u.scope = some b ∧ Continues a b := by
      clear hrest hvisit
      induction hacts with
      | refl => exact ⟨a, ha, .refl a⟩
      | tail _ hact ih =>
        obtain ⟨b, hb, hab⟩ := ih
        obtain ⟨c, hc, hbc⟩ := hact.continues hb
        exact ⟨c, hc, hab.trans hbc⟩
    obtain ⟨b, hb, hab⟩ := hu
    obtain ⟨c, hc, hbc⟩ := ih hb hrest
    exact ⟨c, hc, hab.trans hbc⟩

section Walks

variable {cx : Context} {start : Nat} {r : Routine}

theorem stayFrom_of_error {s t : State} {e : Stop} (h : visitAll cx start r.nodes s = .error e t)
    (left : Nat) : stayFrom cx start r left s = ⟨r, [s], false⟩ := by
  cases left <;> rw [stayFrom, h]

theorem stayFrom_last {s t : State} (h : visitAll cx start r.nodes s = .ok () t) {left : Nat}
    (hlast : t.nextWalk? = none ∨ left = 0) :
    stayFrom cx start r left s = ⟨r, [s], t.standsStill⟩ := by
  cases left with
  | zero => rw [stayFrom, h]
  | succ left =>
    have hnone := hlast.resolve_right (Nat.succ_ne_zero left)
    rw [stayFrom, h]
    dsimp only
    rw [hnone]

theorem stayFrom_again {s t : State} (h : visitAll cx start r.nodes s = .ok () t)
    {next : RoutineScope} (hnext : t.nextWalk? = some next) (left : Nat) :
    stayFrom cx start r (left + 1) s =
      { stayFrom cx start r left (t.walkAgain next) with
        walks := s :: (stayFrom cx start r left (t.walkAgain next)).walks } := by
  rw [stayFrom, h]
  dsimp only
  rw [hnext]

/-- A walk that begins in state `s` is broken off, is the last one or is followed by another. -/
inductive Walked (cx : Context) (start : Nat) (r : Routine) (left : Nat) (s : State) : Prop
  | broken (e : Stop) (t : State) (hvisits : visitAll cx start r.nodes s = .error e t)
  | last (t : State) (hvisits : visitAll cx start r.nodes s = .ok () t)
      (hlast : t.nextWalk? = none ∨ left = 0)
  | again (t : State) (next : RoutineScope) (rest : Nat) (hleft : left = rest + 1)
    (hvisits : visitAll cx start r.nodes s = .ok () t) (hnext : t.nextWalk? = some next)

variable (cx start r) in
theorem walked (left : Nat) (s : State) : Walked cx start r left s := by
  cases hvisits : visitAll cx start r.nodes s with
  | error e t => exact .broken e t hvisits
  | ok u t =>
    cases hnext : t.nextWalk? with
    | none => exact .last t hvisits (.inl hnext)
    | some next =>
      cases left with
      | zero => exact .last t hvisits (.inr rfl)
      | succ rest => exact .again t next rest rfl hvisits hnext

variable (cx start r) in
theorem walkRoutine_parts (left : Nat) : ∃ again, (left = 0 → again = none) ∧
    walkRoutine cx start r left = (do visitAll cx start r.nodes; endWalk cx again) := by
  cases left with
  | zero => exact ⟨none, fun _ => rfl, rfl⟩
  | succ left =>
    exact ⟨some (walkRoutine cx start r left), fun h => absurd h (Nat.succ_ne_zero left), rfl⟩

/-- The scope of the next walk has one walk more, and not too many. -/
theorem walks_nextWalk {s : State} {a next : RoutineScope} (ha : s.scope = some a)
    (hnext : s.nextWalk? = some next) : next.walks = a.walks + 1 ∧ a.walks < maxWalks := by
  obtain ⟨b, hb, hnext⟩ := nextWalk?_eq_some hnext
  cases ha.symm.trans hb
  unfold RoutineScope.nextWalk? at hnext
  split at hnext
  · cases hnext
  · cases hnext
    exact ⟨rfl, by omega⟩

variable (cx start r) in
/-- A routine is walked at most `maxWalks` times. -/
theorem length_walks_le (left : Nat) {s : State} {a : RoutineScope} (ha : s.scope = some a)
    (hwalks : a.walks ≤ maxWalks) :
    a.walks + (stayFrom cx start r left s).walks.length ≤ maxWalks + 1 := by
  induction left using Nat.strongRecOn generalizing s a with
  | _ left ih =>
    cases walked cx start r left s with
    | broken e t hvisits =>
      rw [stayFrom_of_error hvisits, List.length_singleton]
      omega
    | last t hvisits hlast =>
      rw [stayFrom_last hvisits hlast, List.length_singleton]
      omega
    | again t next rest hleft hvisits hnext =>
      subst hleft
      obtain ⟨b, hb, hab⟩ := visitAll_continues ha hvisits
      have hmore := walks_nextWalk hb hnext
      have hsame := hab.walks
      have hrest := ih rest (Nat.lt_succ_self rest) (s := t.walkAgain next) rfl (by omega)
      rw [stayFrom_again hvisits hnext, List.length_cons]
      omega

theorem standsStill_eq {s : State} {a : RoutineScope} (ha : s.scope = some a) :
    s.standsStill = !a.moved := by
  unfold State.standsStill
  rw [ha]
  rfl

theorem nextWalk?_of_moved {s : State} {a : RoutineScope} (ha : s.scope = some a)
    (hmoved : a.moved = true) : s.nextWalk? = a.nextWalk? := by
  unfold State.nextWalk?
  rw [ha, Option.filter_some, if_pos hmoved]
  rfl

theorem nextWalk?_of_still {s : State} (h : s.standsStill = true) : s.nextWalk? = none := by
  cases ha : s.scope with
  | none =>
    unfold State.nextWalk?
    rw [ha]
    rfl
  | some a =>
    rw [standsStill_eq ha, Bool.not_eq_true'] at h
    unfold State.nextWalk?
    rw [ha, Option.filter_some, h]
    rfl

/-- What the end of a walk counts: the walks of a routine that is left, or what the walks to come
    count. -/
theorem counted_endWalk {again : Option (Pass Unit)} {s : State} {a : RoutineScope}
    (ha : s.scope = some a) {count : Nat} (hstill : s.standsStill = true → count = a.walks - 1)
    (hspent : s.standsStill = false → s.nextWalk? = none ∨ again = none → count = 0)
    (hagain : ∀ walk next, again = some walk → s.nextWalk? = some next →
      Leaves (Counted count) walk (s.walkAgain next)) :
    Leaves (Counted count) (endWalk cx again) s := by
  have hmoved {b : RoutineScope} (hb : s.scope = some b) (hmoved : b.moved = true) :
      s.standsStill = false := by
    rw [standsStill_eq hb, hmoved]
    rfl
  unfold Leaves final
  cases walkEnd cx again s with
  | outside hscope _ => cases ha.symm.trans hscope
  | settled b hb hsettled heq =>
    cases ha.symm.trans hb
    rw [heq, hstill (by rw [standsStill_eq ha, hsettled]; rfl)]
    exact counted_closeRoutine cx a s
  | again b next walk hb hb' hnext hwalk heq =>
    rw [heq]
    exact hagain walk next hwalk ((nextWalk?_of_moved hb hb').trans hnext)
  | spent b hb hb' hspends heq =>
    rw [heq, hspent (hmoved hb hb') (hspends.imp_left (nextWalk?_of_moved hb hb').trans)]
    exact (rfl : s.counts = s.counts)

/-- A walk counts what its end counts. -/
theorem counted_walk {again : Option (Pass Unit)} {s t : State} {count : Nat}
    (hvisits : visitAll cx start r.nodes s = .ok () t)
    (h : Leaves (Counted count) (endWalk cx again) t) :
    Leaves (Counted count) (do visitAll cx start r.nodes; endWalk cx again) s := by
  have hread := (counted_visitAll cx start r.nodes s).of_ok hvisits
  have hwalk := hread.trans h
  unfold Leaves
  rw [final_bind hvisits]
  rwa [Nat.zero_add] at hwalk

theorem counted_brokenWalk {again : Option (Pass Unit)} {s t : State} {e : Stop}
    (hvisits : visitAll cx start r.nodes s = .error e t) :
    Leaves (Counted 0) (do visitAll cx start r.nodes; endWalk cx again) s :=
  leaves_of_error (bind_of_error hvisits) ((counted_visitAll cx start r.nodes s).of_error hvisits)

theorem counted_lastWalk {again : Option (Pass Unit)} {s t : State} {a : RoutineScope}
    (ha : s.scope = some a) (hvisits : visitAll cx start r.nodes s = .ok () t)
    (hlast : t.nextWalk? = none ∨ again = none) :
    Leaves (Counted (if t.standsStill then a.walks + 1 - 2 else 0))
      (do visitAll cx start r.nodes; endWalk cx again) s := by
  obtain ⟨b, hb, hab⟩ := visitAll_continues ha hvisits
  refine counted_walk hvisits (counted_endWalk hb (fun hstill => ?_) (fun hmoves _ => ?_) ?_)
  · rw [if_pos hstill, hab.walks]
    omega
  · exact if_neg (Bool.eq_false_iff.mp hmoves)
  · intro walk next hwalk hnext
    rcases hlast with hlast | hlast
    · cases hnext.symm.trans hlast
    · cases hwalk.symm.trans hlast

variable (cx start r) in
/-- The walks are counted when the routine is left, and not before. -/
theorem counted_walkRoutine (left : Nat) {s : State} {a : RoutineScope} (ha : s.scope = some a) :
    Leaves (Counted (if (stayFrom cx start r left s).completed then
      a.walks + (stayFrom cx start r left s).walks.length - 2 else 0)) (walkRoutine cx
      start r left) s := by
  obtain ⟨again, hnone, hparts⟩ := walkRoutine_parts cx start r left
  induction left using Nat.strongRecOn generalizing s a again with
  | _ left ih =>
    cases walked cx start r left s with
    | broken e t hvisits =>
      rw [stayFrom_of_error hvisits, hparts]
      exact counted_brokenWalk hvisits
    | last t hvisits hlast =>
      rw [stayFrom_last hvisits hlast, hparts]
      exact counted_lastWalk ha hvisits (hlast.imp_right hnone)
    | again t next rest hleft hvisits hnext =>
      subst hleft
      obtain ⟨b, hb, hab⟩ := visitAll_continues ha hvisits
      obtain ⟨again', hnone', hparts'⟩ := walkRoutine_parts cx start r rest
      have hrest :=
        ih rest (Nat.lt_succ_self rest) (s := t.walkAgain next) rfl again' hnone' hparts'
      rw [(walks_nextWalk hb hnext).1, hab.walks, Nat.add_assoc, Nat.add_comm 1] at hrest
      rw [stayFrom_again hvisits hnext, List.length_cons]
      refine counted_walk hvisits (counted_endWalk hb (fun hstill => ?_) (fun _ hspent => ?_) ?_)
      · cases hnext.symm.trans (nextWalk?_of_still hstill)
      · rcases hspent with hspent | hspent
        · cases hnext.symm.trans hspent
        · cases hspent
      · intro walk next' hwalk hnext'
        cases hnext.symm.trans hnext'
        cases hwalk
        exact hrest

theorem endWalk_of_none {s : State} {a : RoutineScope} (ha : s.scope = some a)
    (hnone : s.nextWalk? = none) (again again' : Option (Pass Unit)) :
    endWalk cx again s = endWalk cx again' s := by
  cases hmoved : a.moved with
  | false => rw [endWalk_settled ha hmoved, endWalk_settled ha hmoved]
  | true =>
    rw [nextWalk?_of_moved ha hmoved] at hnone
    rw [endWalk_spent ha hmoved (.inl hnone), endWalk_spent ha hmoved (.inl hnone)]

theorem endWalk_of_some {s : State} {next : RoutineScope} (hnext : s.nextWalk? = some next)
    (walk : Pass Unit) : endWalk cx (some walk) s = walk (s.walkAgain next) := by
  unfold State.nextWalk? at hnext
  obtain ⟨a, hfilter, hnext⟩ := Option.bind_eq_some_iff.mp hnext
  obtain ⟨ha, hmoved⟩ := Option.filter_eq_some_iff.mp hfilter
  exact endWalk_again ha hmoved hnext walk

variable (cx start r) in
/-- The walks that a routine is given are never used up. -/
theorem walkRoutine_ample {left left' : Nat} {s : State} {a : RoutineScope} (ha : s.scope = some a)
    (hleft : maxWalks ≤ a.walks + left) (hleft' : maxWalks ≤ a.walks + left') :
    walkRoutine cx start r left s = walkRoutine cx start r left' s := by
  induction left using Nat.strongRecOn generalizing left' s a with
  | _ left ih =>
    obtain ⟨again, -, hparts⟩ := walkRoutine_parts cx start r left
    obtain ⟨again', -, hparts'⟩ := walkRoutine_parts cx start r left'
    cases walked cx start r left s with
    | broken e t hvisits =>
      rw [hparts, hparts']
      exact (bind_of_error hvisits).trans (bind_of_error hvisits).symm
    | last t hvisits hlast =>
      obtain ⟨b, hb, hab⟩ := visitAll_continues ha hvisits
      have hsame := hab.walks
      have hnone : t.nextWalk? = none := by
        cases hnext : t.nextWalk? with
        | none => rfl
        | some next =>
          have hless := (walks_nextWalk hb hnext).2
          rcases hlast with hlast | hlast
          · cases hnext.symm.trans hlast
          · omega
      rw [hparts, hparts']
      refine (bind_of_ok hvisits).trans (Eq.trans ?_ (bind_of_ok hvisits).symm)
      exact endWalk_of_none hb hnone _ _
    | again t next rest hleft hvisits hnext =>
      subst hleft
      obtain ⟨b, hb, hab⟩ := visitAll_continues ha hvisits
      have hsame := hab.walks
      obtain ⟨hmore, hless⟩ := walks_nextWalk hb hnext
      cases left' with
      | zero => omega
      | succ rest' =>
        refine (bind_of_ok hvisits).trans (Eq.trans ?_ (bind_of_ok hvisits).symm)
        rw [endWalk_of_some hnext, endWalk_of_some hnext]
        exact ih rest (Nat.lt_succ_self rest) (s := t.walkAgain next) rfl (by omega) (by omega)

end Walks

/-! ## Passes -/

def repeatsOf (xs : List Stay) : Nat := (xs.map Stay.repeats).sum

theorem repeatsOf_append (xs ys : List Stay) :
    repeatsOf (xs ++ ys) = repeatsOf xs + repeatsOf ys := by
  unfold repeatsOf
  rw [List.map_append, List.sum_append]

section Chains

variable {m : EStateM ε State α} {f : α → EStateM ε State β} {s : State} {count : Nat}

theorem counted_bind {rest : α → State → List Stay} (hm : Leaves (Counted count) m s)
    (hf : ∀ a t, m s = .ok a t → Leaves (Counted (repeatsOf (rest a t))) (f a) t) :
    Leaves (Counted (count + repeatsOf (following rest (m s)))) (m >>= f) s := by
  cases hs : m s with
  | ok a t =>
    unfold Leaves
    rw [final_bind hs]
    exact (hm.of_ok hs).trans (hf a t hs)
  | error e t => exact leaves_of_error (bind_of_error hs) (hm.of_error hs)

theorem counted_before {rest : α → State → List Stay} (hm : Leaves (Counted 0) m s)
    (hf : ∀ a t, m s = .ok a t → Leaves (Counted (repeatsOf (rest a t))) (f a) t) :
    Leaves (Counted (repeatsOf (following rest (m s)))) (m >>= f) s := by
  have hbind := counted_bind hm hf
  rwa [Nat.zero_add] at hbind

theorem counted_behind (hm : Leaves (Counted count) m s)
    (hf : ∀ a t, m s = .ok a t → Leaves (Counted 0) (f a) t) :
    Leaves (Counted count) (m >>= f) s := by
  have hbind : Leaves (Counted (count + repeatsOf (following (fun _ _ => []) (m s)))) (m >>= f) s :=
    counted_bind hm hf
  rwa [following_nil] at hbind

end Chains

section Passes

variable (cx : Context) (program : Program)

theorem counted_routine (start : Nat) (r : Routine) (s : State) :
    Leaves (Counted (stayFrom cx start r maxWalks (s.enter start r)).repeats)
      (routine cx start r) s := by
  have hwalks := counted_walkRoutine cx start r maxWalks (s := s.enter start r) rfl
  have hfirst (x : Stay) : 1 + x.walks.length - 2 = x.walks.length - 1 := by omega
  rw [show (RoutineScope.begin r.name start r.body s.snapshot).walks = 1 from rfl, hfirst] at hwalks
  exact hwalks

theorem counted_routines (start : Nat) (rs : List Routine) (s : State) :
    Leaves (Counted (repeatsOf (routinesStays cx start rs s))) (routines cx start rs) s := by
  induction rs generalizing start s with
  | nil => exact (rfl : s.counts = s.counts)
  | cons r rest ih => exact counted_bind (counted_routine cx start r s) fun _ t _ => ih _ t

theorem counted_pass (s : State) :
    Leaves (Counted (repeatsOf (BegunPass.stays ⟨cx, program, s⟩))) (pass cx program) s := by
  unfold pass
  refine counted_before (counted_visitAll cx 0 _ s) fun _ t _ => ?_
  refine counted_behind (counted_routines cx _ _ t) fun index u _ => ?_
  cases program.closing with
  | none => exact counted_endPass cx u
  | some n => exact (counted_visit cx index n u).bind fun _ v _ => counted_endPass cx v

end Passes

/-! ## Runs -/

/-- The counts after the passes `ps`. -/
def Counts.through (c : Counts) (ps : List BegunPass) : Counts where
  passes := c.passes + ps.length
  measuringPasses := c.measuringPasses + ps.countP (·.context.mode = .measuring)
  restarts := c.restarts
  reassemblies := c.reassemblies + repeatsOf (ps.flatMap BegunPass.stays)

theorem Counts.through_append (c : Counts) (ps qs : List BegunPass) :
    c.through (ps ++ qs) = (c.through ps).through qs := by
  unfold through
  rw [List.length_append, List.countP_append, List.flatMap_append, repeatsOf_append]
  simp only [Nat.add_assoc]

/-- Between the states the passes `ps` are counted. -/
def Passed (ps : List BegunPass) (s t : State) : Prop := t.counts = s.counts.through ps

theorem Passed.trans {ps qs : List BegunPass} {s t u : State} (hst : Passed ps s t)
    (htu : Passed qs t u) : Passed (ps ++ qs) s u := by
  unfold Passed at *
  rw [htu, hst, Counts.through_append]

theorem passed_bind {m : EStateM ε State α} {f : α → EStateM ε State β} {s : State}
    {ps : List BegunPass} {rest : α → State → List BegunPass} (hm : Leaves (Passed ps) m s)
    (hf : ∀ a t, m s = .ok a t → Leaves (Passed (rest a t)) (f a) t) :
    Leaves (Passed (ps ++ following rest (m s))) (m >>= f) s := by
  cases hs : m s with
  | ok a t =>
    unfold Leaves
    rw [final_bind hs]
    exact (hm.of_ok hs).trans (hf a t hs)
  | error e t =>
    rw [following, List.append_nil]
    exact leaves_of_error (bind_of_error hs) (hm.of_error hs)

section Runs

variable (o : Options) (program : Program)

theorem passed_onePass (v : Version) (mode : Mode) (s : State) :
    Leaves (Passed [s.nextPass o program v mode]) (onePass o program v mode) s := by
  have hpass := counted_pass (s.nextContext o v mode) program (s.beginPass o v mode)
  have hcounts : (s.counts.beginPass mode).rewalk (repeatsOf (s.nextPass o program v mode).stays) =
      s.counts.through [s.nextPass o program v mode] := by
    unfold Counts.through
    rw [List.flatMap_singleton]
    cases mode <;> rfl
  exact Eq.trans hpass hcounts

theorem passed_measure (v : Version) (left : Nat) (s : State) :
    Leaves (Passed (begunMeasuring o program v left s)) (measure o program v left) s := by
  induction left generalizing s with
  | zero => exact (rfl : s.counts = s.counts)
  | succ left ih =>
    refine passed_bind (passed_onePass o program v .measuring s) fun _ t ht => ?_
    show Passed _ t (final (if t.changed then measure o program v left else pure () : Pass Unit)
      (t.measured left))
    split
    · exact ih (t.measured left)
    · exact (rfl : t.counts = t.counts)

theorem passed_passes (v : Version) (s : State) :
    Leaves (Passed (begunFor o program v s)) (passes o program v) s :=
  passed_bind (passed_measure o program v maxMeasuringPasses s) fun _ t _ =>
    passed_onePass o program v .assembling t

/-- The versions that are tried: this one, and after a restart those from the next one on. -/
theorem attemptsFrom_of_restart {left : Nat} {tried : List Version} {v wanted : Version}
    {s t : State} (h : passes o program v s = .error (.restart wanted) t) (hnew : wanted ∉ tried) :
    attemptsFrom o program (left + 1) tried v s =
      (v, s) :: attemptsFrom o program left (wanted :: tried) wanted (t.restart wanted) := by
  rw [attemptsFrom, h]
  dsimp only
  rw [decide_eq_false hnew]

theorem attemptsFrom_last {left : Nat} {tried : List Version} {v : Version} {s : State}
    (h : ∀ wanted t, passes o program v s = .error (.restart wanted) t →
      wanted ∈ tried ∨ left = 0) :
    attemptsFrom o program left tried v s = [(v, s)] := by
  unfold attemptsFrom
  cases hpasses : passes o program v s with
  | ok a t => rfl
  | error e t =>
    cases e with
    | failed problem => rfl
    | restart wanted =>
      dsimp only
      rcases h wanted t hpasses with hold | hzero
      · rw [decide_eq_true hold]
        cases left <;> rfl
      · rw [hzero]

theorem length_attemptsFrom_pos (left : Nat) (tried : List Version) (v : Version) (s : State) :
    0 < (attemptsFrom o program left tried v s).length := by
  unfold attemptsFrom
  exact Nat.succ_pos _

/-- An attempt is the last one, and then counts what its passes count, or it is followed by
    others. -/
theorem attemptsFrom_cases (left : Nat) (tried : List Version) (v : Version) (s : State) :
    attemptsFrom o program left tried v s = [(v, s)] ∧
        (final (attempt o program left tried v) s).counts = (final (passes o program v) s).counts ∨
      ∃ (wanted : Version) (t : State) (rest : Nat), left = rest + 1 ∧ wanted ∉ tried ∧
        passes o program v s = .error (.restart wanted) t ∧
        attemptsFrom o program left tried v s = (v, s) ::
          attemptsFrom o program rest (wanted :: tried) wanted (t.restart wanted) := by
  cases attemptEnd o program left tried v s with
  | done t hpasses =>
    refine .inl ⟨attemptsFrom_last o program fun _ _ h => (by cases hpasses.symm.trans h), ?_⟩
    rw [final_of_ok (attempt_of_ok hpasses), final_of_ok hpasses]
  | failed problem t hpasses =>
    refine .inl ⟨attemptsFrom_last o program fun _ _ h => (by cases hpasses.symm.trans h), ?_⟩
    rw [final_of_error (attempt_of_failed hpasses), final_of_error hpasses]
  | refused wanted t hrefused hpasses =>
    refine .inl ⟨attemptsFrom_last o program fun _ _ h => ?_, ?_⟩
    · cases hpasses.symm.trans h
      exact hrefused
    · rw [final_of_error (attempt_refused hpasses hrefused), final_of_error hpasses]
      rfl
  | again wanted t rest hleft hnew hpasses =>
    subst hleft
    exact .inr ⟨wanted, t, rest, rfl, hnew, hpasses, attemptsFrom_of_restart o program hpasses hnew⟩

/-- The counts of a run that has tried so many versions and begun these passes. -/
theorem counts_attempt (left : Nat) (tried : List Version) (v : Version) (s : State) :
    (final (attempt o program left tried v) s).counts =
      { s.counts.through ((attemptsFrom o program left tried v s).flatMap fun x =>
        begunFor o program x.1 x.2) with
        restarts := s.counts.restarts + ((attemptsFrom o program left tried v s).length - 1) } := by
  induction left using Nat.strongRecOn generalizing tried v s with
  | _ left ih =>
    have hpassed := passed_passes o program v s
    rcases attemptsFrom_cases o program left tried v s with
      ⟨hlast, hcounts⟩ | ⟨wanted, t, rest, rfl, hnew, hpasses, hagain⟩
    · rw [hcounts, hlast, List.flatMap_singleton]
      exact hpassed
    · have hrest := ih rest (Nat.lt_succ_self rest) (wanted :: tried) wanted (t.restart wanted)
      have hpos :=
        length_attemptsFrom_pos o program rest (wanted :: tried) wanted (t.restart wanted)
      have ht : t.counts = s.counts.through (begunFor o program v s) := hpassed.of_error hpasses
      have hfinal : final (attempt o program (rest + 1) tried v) s =
          final (attempt o program rest (wanted :: tried) wanted) (t.restart wanted) := by
        unfold final
        rw [attempt_of_restart hpasses hnew]
      rw [hfinal, hrest, hagain, List.flatMap_cons, List.length_cons, Counts.through_append, ← ht]
      have hrestarts : (t.restart wanted).counts.restarts = s.counts.restarts + 1 := by
        show t.counts.restarts + 1 = _
        rw [ht]
        rfl
      have hlength : ∀ length, 0 < length →
          s.counts.restarts + 1 + (length - 1) = s.counts.restarts + (length + 1 - 1) := by
        intro length hlength
        omega
      rw [hrestarts, hlength _ hpos]
      rfl

theorem counts_finishStory (v : Version) (s : State) :
    (final (finishStory o v) s).counts = s.counts := by
  unfold final finishStory
  by_cases herrors : 0 < errorCount s.diagnostics.toList
  · simp only [if_pos herrors]
  · by_cases hlong : v.maxStorySize < Story.lengthFor v s.image.length
    · simp only [if_neg herrors, if_pos hlong]
    · simp only [if_neg herrors, if_neg hlong]

/-! ## Budgets -/

theorem mode_begunMeasuring (v : Version) (left : Nat) (s : State) :
    ∀ p ∈ begunMeasuring o program v left s, p.context.mode = .measuring := by
  induction left generalizing s with
  | zero => exact fun p hp => absurd hp List.not_mem_nil
  | succ left ih =>
    intro p hp
    unfold begunMeasuring at hp
    rcases List.mem_cons.mp hp with rfl | hp
    · rfl
    · obtain ⟨_, t, -, hp⟩ := mem_following hp
      split at hp
      · exact ih _ p hp
      · exact absurd hp List.not_mem_nil

theorem length_begunMeasuring_le (v : Version) (left : Nat) (s : State) :
    (begunMeasuring o program v left s).length ≤ left := by
  induction left generalizing s with
  | zero => exact Nat.le_refl 0
  | succ left ih =>
    unfold begunMeasuring
    rw [List.length_cons]
    refine Nat.succ_le_succ ?_
    cases onePass o program v .measuring s with
    | error e t => exact Nat.zero_le _
    | ok u t =>
      rw [following]
      split
      · exact ih _
      · exact Nat.zero_le _

theorem measuring_begunFor_le (v : Version) (s : State) :
    (begunFor o program v s).countP (·.context.mode = .measuring) ≤ maxMeasuringPasses := by
  have hmeasuring :=
    (List.countP_le_length (p := fun p : BegunPass => decide (p.context.mode = .measuring))
    (l := begunMeasuring o program v maxMeasuringPasses s)).trans
    (length_begunMeasuring_le o program v _ s)
  unfold begunFor
  rw [List.countP_append]
  cases measure o program v maxMeasuringPasses s with
  | error e t => exact hmeasuring
  | ok u t => exact hmeasuring

theorem assembling_begunFor_le (v : Version) (s : State) :
    (begunFor o program v s).countP (·.context.mode = .assembling) ≤ 1 := by
  have hnone : (begunMeasuring o program v maxMeasuringPasses s).countP
      (·.context.mode = .assembling) = 0 := by
    rw [List.countP_eq_zero]
    intro p hp
    rw [mode_begunMeasuring o program v _ s p hp]
    decide
  unfold begunFor
  rw [List.countP_append, hnone, Nat.zero_add]
  refine List.countP_le_length.trans ?_
  cases measure o program v maxMeasuringPasses s with
  | error e t => exact Nat.zero_le 1
  | ok u t => exact Nat.le_refl 1

theorem countP_flatMap_le {f : α → List β} {p : β → Bool} {limit : Nat}
    (h : ∀ a, (f a).countP p ≤ limit) (xs : List α) :
    (xs.flatMap f).countP p ≤ limit * xs.length := by
  induction xs with
  | nil => exact Nat.zero_le _
  | cons a xs ih =>
    have ha := h a
    rw [List.flatMap_cons, List.countP_append, List.length_cons, Nat.mul_succ]
    omega

theorem length_attemptsFrom_le (left : Nat) (tried : List Version) (v : Version) (s : State) :
    (attemptsFrom o program left tried v s).length ≤ left + 1 := by
  induction left using Nat.strongRecOn generalizing tried v s with
  | _ left ih =>
    rcases attemptsFrom_cases o program left tried v s with
      ⟨hlast, -⟩ | ⟨wanted, t, rest, rfl, -, -, hagain⟩
    · rw [hlast, List.length_singleton]
      omega
    · rw [hagain, List.length_cons]
      exact Nat.succ_le_succ (ih rest (Nat.lt_succ_self rest) _ _ _)

/-- The versions that are tried after the first are new, each one. -/
theorem versions_attemptsFrom (left : Nat) (tried : List Version) (v : Version) (s : State) :
    ∃ rest, attemptsFrom o program left tried v s = (v, s) :: rest ∧ (∀ x ∈ rest, x.1 ∉ tried) ∧
      (rest.map Prod.fst).Nodup := by
  induction left using Nat.strongRecOn generalizing tried v s with
  | _ left ih =>
    rcases attemptsFrom_cases o program left tried v s with
      ⟨hlast, -⟩ | ⟨wanted, t, rest, rfl, hnew, -, hagain⟩
    · exact ⟨[], hlast, fun x hx => absurd hx List.not_mem_nil, List.nodup_nil⟩
    · obtain ⟨more, hmore, hnews, hnodup⟩ :=
        ih rest (Nat.lt_succ_self rest) (wanted :: tried) wanted (t.restart wanted)
      rw [hmore] at hagain
      refine ⟨_, hagain, fun x hx => ?_, ?_⟩
      · rcases List.mem_cons.mp hx with rfl | hx
        · exact hnew
        · exact fun hold => hnews x hx (List.mem_cons_of_mem _ hold)
      · rw [List.map_cons, List.nodup_cons]
        refine ⟨fun hold => ?_, hnodup⟩
        obtain ⟨x, hx, hsame⟩ := List.mem_map.mp hold
        exact hnews x hx (hsame ▸ List.mem_cons_self)

theorem length_le_of_nodup {vs : List Version} (h : vs.Nodup) : vs.length ≤ Version.all.length :=
  (List.subperm_of_subset h fun v _ => Version.mem_all v).length_le

/-- The attempts that a run is given are never used up. -/
theorem attempt_ample {left left' : Nat} {tried : List Version} (htried : tried.Nodup)
    (hleft : Version.all.length ≤ tried.length + left)
    (hleft' : Version.all.length ≤ tried.length + left') (v : Version) (s : State) :
    attempt o program left tried v s = attempt o program left' tried v s := by
  induction left using Nat.strongRecOn generalizing left' tried v s with
  | _ left ih =>
    cases attemptEnd o program left tried v s with
    | done t hpasses => rw [attempt_of_ok hpasses, attempt_of_ok hpasses]
    | failed problem t hpasses => rw [attempt_of_failed hpasses, attempt_of_failed hpasses]
    | refused wanted t hrefused hpasses =>
      have hold : wanted ∈ tried := by
        rcases hrefused with hold | hzero
        · exact hold
        · by_contra hnew
          have hlength := length_le_of_nodup (List.nodup_cons.mpr ⟨hnew, htried⟩)
          rw [List.length_cons] at hlength
          omega
      rw [attempt_refused hpasses (.inl hold), attempt_refused hpasses (.inl hold)]
    | again wanted t rest hleft hnew hpasses =>
      subst hleft
      have hnodup := List.nodup_cons.mpr ⟨hnew, htried⟩
      have hlength := length_le_of_nodup hnodup
      rw [List.length_cons] at hlength
      cases left' with
      | zero => omega
      | succ rest' =>
        rw [attempt_of_restart hpasses hnew, attempt_of_restart hpasses hnew]
        refine ih rest (Nat.lt_succ_self rest) hnodup ?_ ?_ wanted (t.restart wanted)
        · rw [List.length_cons]
          omega
        · rw [List.length_cons]
          omega

end Runs

section Outcomes

variable (o : Options) (nodes : List Node)

theorem counts_run : (assemble o nodes).counts =
    (final (attempt o (.ofNodes nodes) (Version.all.length - 1) [o.version] o.version)
      (.initial o.version)).counts := by
  have hassemble :
      (assemble o nodes).counts = (final (run o (.ofNodes nodes)) (.initial o.version)).counts := by
    cases hrun : run o (.ofNodes nodes) (.initial o.version) with
    | ok story t => rw [assemble_of_ok hrun, final_of_ok hrun]
    | error problem t => rw [assemble_of_error hrun, final_of_error hrun]
  rw [hassemble]
  unfold run
  cases hs : attempt o (.ofNodes nodes) (Version.all.length - 1) [o.version] o.version
    (.initial o.version) with
  | ok v t => rw [final_bind hs, final_of_ok hs, counts_finishStory]
  | error e t => rw [final_of_error (bind_of_error hs), final_of_error hs]

/-- The counts of a run are those of its attempts and passes. -/
theorem counts_assemble : (assemble o nodes).counts =
    { ({} : Counts).through (begunPasses o nodes) with
      restarts := (attempts o nodes).length - 1 } := by
  rw [counts_run, counts_attempt, show (State.initial o.version).counts.restarts = 0 from rfl,
    Nat.zero_add]
  rfl

/-- A pass walks each routine at most `maxWalks` times. -/
theorem length_walks_le_of_stay (p : BegunPass) : ∀ x ∈ p.stays, x.walks.length ≤ maxWalks := by
  have hstay (start : Nat) (r : Routine) (s : State) :
      (stayFrom p.context start r maxWalks (s.enter start r)).walks.length ≤ maxWalks := by
    have hwalks := length_walks_le p.context start r maxWalks (s := s.enter start r) rfl
      (show 1 ≤ maxWalks by decide)
    rw [show (RoutineScope.begin r.name start r.body s.snapshot).walks = 1 from rfl] at hwalks
    omega
  have hroutines (start : Nat) (rs : List Routine) (s : State) :
      ∀ x ∈ routinesStays p.context start rs s, x.walks.length ≤ maxWalks := by
    induction rs generalizing start s with
    | nil => exact fun x hx => absurd hx List.not_mem_nil
    | cons r rest ih =>
      intro x hx
      unfold routinesStays at hx
      rcases List.mem_cons.mp hx with rfl | hx
      · exact hstay start r s
      · obtain ⟨_, t, -, hx⟩ := mem_following hx
        exact ih _ t x hx
  intro x hx
  obtain ⟨_, t, -, hx⟩ := mem_following hx
  exact hroutines _ _ t x hx

end Outcomes

/-- What bounds the run for `nodes`. -/
structure WithinBudgets (o : Options) (nodes : List Node) : Prop where
  /-- Each restart begins another attempt. -/
  attempts : (attempts o nodes).length = (assemble o nodes).counts.restarts + 1
  restarts : (assemble o nodes).counts.restarts ≤ 7
  /-- No version is started twice. -/
  versions : ((Assembly.attempts o nodes).map Prod.fst).Nodup
  passes : (assemble o nodes).counts.passes = (begunPasses o nodes).length
  measuring : (assemble o nodes).counts.measuringPasses =
    (begunPasses o nodes).countP (·.context.mode = .measuring)
  measuringLimit :
    (assemble o nodes).counts.measuringPasses ≤ 16 * ((assemble o nodes).counts.restarts + 1)
  assembling : (begunPasses o nodes).countP (·.context.mode = .assembling) ≤
    (assemble o nodes).counts.restarts + 1
  walks : ∀ p ∈ begunPasses o nodes, ∀ x ∈ p.stays, x.walks.length ≤ 8
  /-- Each walk beyond the first of a completed stay is counted once. -/
  reassemblies : (assemble o nodes).counts.reassemblies =
    (((begunPasses o nodes).flatMap BegunPass.stays).map Stay.repeats).sum
  /-- The loop over versions ends by itself: with any more rounds it does the same. -/
  ampleVersions : ∀ more,
    attempt o (.ofNodes nodes) (Version.all.length - 1 + more) [o.version] o.version
    (.initial o.version) =
      attempt o (.ofNodes nodes) (Version.all.length - 1) [o.version] o.version (.initial o.version)
  /-- So does the loop over the walks of a routine. -/
  ampleWalks : ∀ (cx : Context) (start : Nat) (r : Routine) (s : State) (more : Nat),
    walkRoutine cx start r (maxWalks + more) (s.enter start r) =
      walkRoutine cx start r maxWalks (s.enter start r)

/-- Every run ends within fixed budgets. -/
theorem run_within_budgets (o : Options) (nodes : List Node) : WithinBudgets o nodes := by
  have hcounts := counts_assemble o nodes
  have hpos : 0 < (attempts o nodes).length := length_attemptsFrom_pos o _ _ _ _ _
  have hattempts : (attempts o nodes).length = (assemble o nodes).counts.restarts + 1 := by
    rw [hcounts]
    dsimp only
    omega
  have hmeasuring : (assemble o nodes).counts.measuringPasses =
      (begunPasses o nodes).countP (·.context.mode = .measuring) := by
    rw [hcounts]
    exact Nat.zero_add _
  refine ⟨hattempts, ?_, ?_, ?_, hmeasuring, ?_, ?_, ?_, ?_, fun more => ?_,
    fun cx start r s more => ?_⟩
  · have hlength :=
      length_attemptsFrom_le o (.ofNodes nodes) (Version.all.length - 1) [o.version] o.version
      (.initial o.version)
    have hseven : (attempts o nodes).length ≤ 7 + 1 := hlength
    omega
  · obtain ⟨rest, hrest, hnew, hnodup⟩ :=
      versions_attemptsFrom o (.ofNodes nodes) (Version.all.length - 1)
      [o.version] o.version (.initial o.version)
    rw [show attempts o nodes = _ from hrest, List.map_cons, List.nodup_cons]
    refine ⟨fun hold => ?_, hnodup⟩
    obtain ⟨x, hx, hsame⟩ := List.mem_map.mp hold
    exact hnew x hx (hsame ▸ List.mem_cons_self)
  · rw [hcounts]
    exact Nat.zero_add _
  · rw [hmeasuring, ← hattempts]
    exact countP_flatMap_le (fun x : Version × State => measuring_begunFor_le o _ x.1 x.2) _
  · rw [← hattempts, ← Nat.one_mul (attempts o nodes).length]
    exact countP_flatMap_le (fun x : Version × State => assembling_begunFor_le o _ x.1 x.2) _
  · exact fun p _ => length_walks_le_of_stay p
  · rw [hcounts]
    exact Nat.zero_add _
  · have hfirst : [o.version].Nodup := List.nodup_cons.mpr ⟨List.not_mem_nil, List.nodup_nil⟩
    refine attempt_ample o _ hfirst ?_ ?_ o.version (.initial o.version)
    · rw [List.length_singleton]
      omega
    · rw [List.length_singleton]
      omega
  · exact walkRoutine_ample cx start r (s := s.enter start r) rfl (by omega) (by omega)

end ZAssembler.Assembly
