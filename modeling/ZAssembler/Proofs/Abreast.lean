import ZAssembler.Proofs.Clear
import ZAssembler.Proofs.InStep

/-
  Passes in step. What `InStep` says of the steps of nodes goes on to hold of routines and of
  passes, from the states in which the measuring pass comes to its nodes (`Abreast`). Under the
  outlook `Outlook.ahead` each of these nodes has to find its names known.
-/

namespace ZAssembler.Assembly

open Halting

/-! ## Steps as parts of a pass -/

section Visits

variable {k : Outlook} {known : String → Prop} {R : Context → State → State → Prop} [Following k R]
  {cm ca : Context}

theorem inStep_stopWith {α : Type} (problem : Problem) :
    InStep k known R cm ca (stopWith problem : Pass α) (stopWith problem) :=
  ⟨fun _ => Keeping.of_rest rfl, fun _ _ _ => .lost (.failed problem) id rfl⟩

omit [Following k R] in
/-- The assembling pass is stopped for another reason than that a value has changed. -/
theorem stopped_stopWith {α : Type} {mm ma : Pass α} {m a a' : State} {p : Problem}
    (ha : ma a = .error (.failed p) a') (hp : ∀ old new name, p ≠ .valueChanged old new name) :
    Paired k known cm ca mm ma m a := by
  refine .stopped (.failed p) id ha ?_
  rintro ⟨old, new, name, h⟩
  cases h
  exact absurd rfl (hp old new name)

theorem tooManyErrors_ne {s : State} {cx : Context} {p : Problem} (h : s.tooManyErrors? cx = some p)
    (old new : Int32) (name : String) : p ≠ .valueChanged old new name := by
  rintro rfl
  simp [State.tooManyErrors?] at h

theorem recover_cases (cx : Context) (problem : Problem) (s : State) :
    recover cx problem s = .ok () (s.report .error problem) ∨
      ∃ tooMany t, recover cx problem s = .error (.failed tooMany) t ∧ t.rest = s.rest ∧
        ∀ old new name, tooMany ≠ .valueChanged old new name := by
  have hreport :
      (modify (·.report .error problem) : Pass Unit) s = .ok () (s.report .error problem) := rfl
  unfold recover
  rw [bind_of_ok hreport, get_bind]
  cases hmany : (s.report .error problem).tooManyErrors? cx with
  | none => exact .inl rfl
  | some tooMany => exact .inr ⟨tooMany, _, rfl, rfl, tooManyErrors_ne hmany⟩

theorem rest_recover (cx : Context) (problem : Problem) (s : State) :
    (final (recover cx problem) s).rest = s.rest := by
  obtain hs | ⟨_, _, hs, hrest, -⟩ := recover_cases cx problem s
  · rw [final_of_ok hs]
    rfl
  · rw [final_of_error hs]
    exact hrest

omit [Following k R] in
theorem paired_recover (problem : Problem) {m a : State} (h : Twin k known cm ca m a) :
    Paired k known cm ca (recover cm problem) (recover ca problem) m a := by
  obtain hm | ⟨tooMany, _, hm, -⟩ := recover_cases cm problem m
  · obtain ha | ⟨tooMany, _, ha, -, hne⟩ := recover_cases ca problem a
    · exact .ok () hm ha (h.of_rest h.layout rfl rfl)
    · exact stopped_stopWith ha hne
  · exact .lost (.failed tooMany) id hm

theorem inStep_recover (problem : Problem) :
    InStep k known R cm ca (recover cm problem) (recover ca problem) :=
  ⟨fun s => Keeping.of_rest (rest_recover cm problem s), fun _ _ h => paired_recover problem h⟩

theorem rest_runStep (cx : Context) (step : Step Unit) (s : State) :
    (final (runStep cx step) s).rest = (final step s).rest := by
  rw [final_runStep]
  unfold final
  cases step s with
  | ok x t => rfl
  | error i t =>
    cases i with
    | skip problem => exact rest_recover cx problem t
    | abort problem => rfl
    | restart version => rfl

theorem runStep_eq (cx : Context) (step : Step Unit) (s : State) :
    runStep cx step s = match step s with
      | .ok () s => .ok () s
      | .error (.skip problem) s => recover cx problem s
      | .error (.abort problem) s => stopWith problem s
      | .error (.restart version) s => .error (.restart version) s := rfl

include R in
theorem paired_runStep {sm sa : Step Unit} {m a : State} (h : Paired k known cm ca sm sa m a) :
    Paired k known cm ca (runStep cm sm) (runStep ca sa) m a := by
  have hoff (hoff : k.Off cm (final sm m)) : k.Off cm (final (runStep cm sm) m) :=
    Following.off (R := R) (Keeping.of_rest (rest_runStep cm sm m)) hoff
  cases h with
  | ok x hm ha h => exact .ok () (by rw [runStep_eq, hm]) (by rw [runStep_eq, ha]) h
  | error e he hm ha h =>
    obtain ⟨problem, rfl⟩ := he
    exact (paired_recover problem h).congr (by rw [runStep_eq, hm]) (by rw [runStep_eq, ha])
  | lost e he hm =>
    cases e with
    | skip problem => exact absurd ⟨problem, rfl⟩ he
    | abort problem => exact .lost (.failed problem) id (by rw [runStep_eq, hm]; rfl)
    | restart version => exact .lost (.restart version) id (by rw [runStep_eq, hm])
  | stopped e he ha hmoved =>
    cases e with
    | skip problem => exact absurd ⟨problem, rfl⟩ he
    | restart version =>
      refine .stopped (.restart version) id (by rw [runStep_eq, ha]) ?_
      rintro ⟨old, new, name, h⟩
      cases h
    | abort problem =>
      refine .stopped (.failed problem) id (by rw [runStep_eq, ha]; rfl) ?_
      rintro ⟨old, new, name, h⟩
      cases h
      exact hoff (hmoved ⟨old, new, name, rfl⟩)
  | off hk h => exact .off hk (hoff h)

theorem inStep_runStep {sm sa : Step Unit} (h : InStep k known R cm ca sm sa) :
    InStep k known R cm ca (runStep cm sm) (runStep ca sa) :=
  ⟨fun s => Keeping.trans (h.kept s) (Keeping.of_rest (rest_runStep cm sm s)),
    fun m a htwin => paired_runStep (R := R) (h.run m a htwin)⟩

end Visits

/-! ## Debug directives -/

theorem constant_cases {cx : Context} (hmode : cx.mode = .assembling) (what : String) (e : Expr)
    (s : State) :
    (∃ value, constant cx what e s = .ok value s) ∨
    (∃ p, constant cx what e s = .error (.skip p) s) ∨
      ∃ p, constant cx what e s = .error (.abort p) s ∧ ∀ old new name,
      p ≠ .valueChanged old new name := by
  have heval := evaluate_eq hmode e s
  cases he : e.eval (s.scoping cx) with
  | ok r =>
    rw [he] at heval
    cases r with
    | known kind value => exact .inl ⟨value, bind_of_ok heval⟩
    | unknown name => exact .inr (.inl ⟨_, bind_of_ok heval⟩)
  | error error =>
    rw [he] at heval
    cases error with
    | undefined name => exact .inr (.inr ⟨_, bind_of_error heval, fun _ _ _ h => nomatch h⟩)
    | notAddable kind => exact .inr (.inl ⟨_, bind_of_error heval⟩)
    | notVariable name => exact .inr (.inl ⟨_, bind_of_error heval⟩)

theorem debugDirective_cases {cx : Context} (hmode : cx.mode = .assembling) (d : DebugDirective)
    (s : State) :
    (∃ debug, debugDirective cx d s = .ok () { s with debug }) ∨
      (∃ p, debugDirective cx d s = .error (.skip p) s) ∨
        ∃ p, debugDirective cx d s = .error (.abort p) s ∧
          ∀ old new name, p ≠ .valueChanged old new name := by
  have hposition : position s = .ok s.image.cursor s := rfl
  unfold debugDirective
  rw [hmode]
  dsimp only
  rw [bind_of_ok hposition]
  cases d with
  | file | line | routine | routineEnd => exact .inl ⟨_, rfl⟩
  | named table number name =>
    obtain ⟨value, h⟩ | ⟨p, h⟩ | ⟨p, h, hp⟩ := constant_cases hmode "Debug record number" number s
    · have hrecord : debugRecord cx s.image.cursor (.named table number name) s =
          .ok (.named table value name) s := bind_of_ok h
      exact .inl ⟨_, bind_of_ok hrecord⟩
    · exact .inr (.inl ⟨p, bind_of_error (bind_of_error h)⟩)
    · exact .inr (.inr ⟨p, bind_of_error (bind_of_error h), hp⟩)

theorem node_of_debug {n : Node} {d : DebugDirective} (h : n.debug? = some d) (cx : Context) :
    node cx n = debugDirective cx d := by
  unfold Node.debug? at h
  split at h
  · next hkind =>
    cases h
    exact node_directive hkind
  · cases h

/-- A debug directive makes a record in the assembling pass only. -/
theorem inStep_debugVisit {k : Outlook} {known : String → Prop} {R : Context → State → State → Prop}
    [Following k R] {cm ca : Context} (hc : Pairing cm ca) (hm : cm.mode = .measuring)
    (d : DebugDirective) :
    InStep k known R cm ca (runStep cm (debugDirective cm d))
      (runStep ca (debugDirective ca d)) := by
  have hmeasuring : ∀ s, runStep cm (debugDirective cm d) s = .ok () s := by
    intro s
    rw [runStep_eq, debugDirective, hm]
    rfl
  refine ⟨fun s => leaves_of_ok (hmeasuring s) (Keeping.refl cm s), fun m a h => ?_⟩
  obtain ⟨debug, ha⟩ | ⟨p, ha⟩ | ⟨p, ha, hp⟩ := debugDirective_cases hc.mode d a
  · have htwin : Twin k known cm ca m { a with debug } := h.of_rest h.layout rfl rfl
    exact .ok () (hmeasuring m) (by rw [runStep_eq, ha]) htwin
  · have hrecover : runStep ca (debugDirective ca d) a = recover ca p a := by rw [runStep_eq, ha]
    obtain hok | ⟨tooMany, t, hstop, -, hne⟩ := recover_cases ca p a
    · have htwin : Twin k known cm ca m (a.report .error p) := h.of_rest h.layout rfl rfl
      exact .ok () (hmeasuring m) (hrecover.trans hok) htwin
    · exact stopped_stopWith (hrecover.trans hstop) hne
  · exact stopped_stopWith (p := p) (by rw [runStep_eq, ha]; rfl) hp

/-! ## Names that are known -/

/-- The node that a pass has come to opens no block, and the names that it reads have the kinds with
    which they end. -/
structure Arrival.Knows (x : Arrival) (ending : String → Option (SymbolKind × Int32)) : Prop where
  outside : x.node.opensBlock = false
  names : ∀ e ∈ x.node.exprs, ∀ name ∈ e.names,
    (x.before.globals.defined name).map Symbol.kind = (ending name).map Prod.fst

instance (x : Arrival) (ending : String → Option (SymbolKind × Int32)) :
    Decidable (x.Knows ending) :=
  decidable_of_iff (x.node.opensBlock = false ∧ ∀ e ∈ x.node.exprs, ∀ name ∈ e.names,
    (x.before.globals.defined name).map Symbol.kind = (ending name).map Prod.fst)
    ⟨fun h => ⟨h.1, h.2⟩, fun h => ⟨h.outside, h.names⟩⟩

/-- What an outlook asks of the nodes that the measuring pass comes to. -/
def Outlook.Meets (k : Outlook) (xs : List Arrival) : Prop :=
  ∀ ending, k = .ahead ending → ∀ x ∈ xs, x.Knows ending

/-- The names of which nothing more is asked than that they agree. -/
def NoName (_ : String) : Prop := False

/-- A pending name is known if it has the kind with which it ends. -/
theorem Pending.matching {ending : String → Option (SymbolKind × Int32)} {p q : Nat}
    {g h : SymbolTable} {name : String} (hp : Pending ending p q g h name)
    (hkind : (g.defined name).map Symbol.kind = (ending name).map Prod.fst) :
    MatchingAt p q g h name := by
  have hvalue := hp.value
  have hfresh := hp.fresh
  have hfresh' := hp.fresh'
  rw [← hp.ends, Option.map_map] at hkind
  simp only [valueOf_eq] at hvalue
  unfold MatchingAt
  cases hx : g.defined name with
  | none =>
    rw [hx, Option.map_none] at hkind
    rw [Option.map_eq_none_iff.mp hkind.symm]
    exact .none
  | some x =>
    rw [hx, Option.map_some] at hkind
    obtain ⟨y, hy, hxy⟩ := Option.map_eq_some_iff.mp hkind.symm
    rw [hx, hy] at hvalue
    have hsame : y.value = x.value := Option.some.inj (hvalue x.value rfl)
    rw [hy]
    exact .some ⟨hxy, hsame, fun node => iff_of_false (hfresh' y node hy) (hfresh x node hx)⟩

section Known

variable {k : Outlook} {known : String → Prop} {cm ca : Context} {m a : State}

/-- The names that have the kinds with which they end. -/
def Outlook.Knows (k : Outlook) (g : SymbolTable) (name : String) : Prop :=
  ∀ ending, k = .ahead ending → (g.defined name).map Symbol.kind = (ending name).map Prod.fst

theorem Twin.knows (h : Twin k NoName cm ca m a) : Twin k (k.Knows m.globals) cm ca m a := by
  refine ⟨h.layout, fun name => ?_, h.still, h.orderly⟩
  rcases h.globals name with hmatch | ⟨-, ending, hk, hpending⟩
  · exact .inl hmatch
  · by_cases hknown : k.Knows m.globals name
    · exact .inl (hpending.matching (hknown ending hk))
    · exact .inr ⟨hknown, ending, hk, hpending⟩

theorem Twin.forget (h : Twin k known cm ca m a) : Twin k NoName cm ca m a :=
  ⟨h.layout, fun name => (h.globals name).imp_right fun hpending => ⟨id, hpending.2⟩,
    h.still, h.orderly⟩

theorem Paired.forget {ε α : Type} [Halting ε] {mm ma : EStateM ε State α}
    (h : Paired k known cm ca mm ma m a) : Paired k NoName cm ca mm ma m a := by
  cases h with
  | ok x hm ha h => exact .ok x hm ha h.forget
  | error e he hm ha h => exact .error e he hm ha h.forget
  | lost e he hm => exact .lost e he hm
  | stopped e he ha hmoved => exact .stopped e he ha hmoved
  | off hk h => exact .off hk h

/-- The node reads only names that are known. -/
theorem sees_of_meets {index : Nat} {n : Node} (h : k.Meets [⟨cm, index, n, m⟩]) :
    (∀ e ∈ n.exprs, k.Sees (k.Knows m.globals) e) ∧ (k = .level ∨ n.opensBlock = false) := by
  cases k with
  | level => exact ⟨fun _ _ => .inl rfl, .inl rfl⟩
  | ahead ending =>
    have hx := h ending rfl _ List.mem_cons_self
    refine ⟨fun e he => .inr fun name hname => ?_, .inr hx.outside⟩
    rintro _ ⟨⟩
    exact hx.names e he name hname

end Known

/-! ## Passes abreast -/

/-- Two passes in which nodes are in step, and what the first does at the ends of routines. -/
structure Passing (k : Outlook) (R : Context → State → State → Prop) (cm ca : Context) : Prop
    extends Pairing cm ca where
  measuring : cm.mode = .measuring
  reads {known : String → Prop} {n : Node} (hsees : ∀ e ∈ n.exprs, k.Sees known e)
    (hblock : k = .level ∨ n.opensBlock = false) (hdebug : n.debug? = none) :
    InStep k known R cm ca (node cm n) (node ca n)
  enter {s : State} (hs : s.scope = none) (start : Nat) (r : Routine) : R cm s (s.enter start r)
  leave {s : State} {scope : RoutineScope} (hs : s.scope = some scope) :
    Leaves (R cm) (closeRoutine cm scope) s

section Abreast

variable {α β : Type} {k : Outlook} {R : Context → State → State → Prop} {cm ca : Context}

/-- The computations are paired from state `m` of the measuring pass on, if it comes to the nodes
    `xs` as the outlook asks. -/
structure Abreast (k : Outlook) (R : Context → State → State → Prop) (cm ca : Context)
    (mm ma : Pass α) (m : State) (xs : List Arrival) : Prop where
  kept : k.Meets xs → Leaves (R cm) mm m
  run : k.Meets xs → ∀ a, Twin k NoName cm ca m a → Paired k NoName cm ca mm ma m a

theorem Outlook.Meets.left {xs ys : List Arrival} (h : k.Meets (xs ++ ys)) : k.Meets xs :=
  fun ending hk x hx => h ending hk x (List.mem_append_left _ hx)

theorem Outlook.Meets.right {xs ys : List Arrival} (h : k.Meets (xs ++ ys)) : k.Meets ys :=
  fun ending hk x hx => h ending hk x (List.mem_append_right _ hx)

theorem InStep.abreast {mm ma : Pass α} (h : InStep k NoName R cm ca mm ma) (m : State) :
    Abreast k R cm ca mm ma m [] :=
  ⟨fun _ => h.kept m, fun _ a htwin => h.run m a htwin⟩

variable [Following k R]

theorem Abreast.bind {mm ma : Pass α} {fm fa : α → Pass β} {m : State} {xs : List Arrival}
    {rest : α → State → List Arrival} (h : Abreast k R cm ca mm ma m xs)
    (hf : ∀ x t, mm m = .ok x t → Abreast k R cm ca (fm x) (fa x) t (rest x t)) :
    Abreast k R cm ca (mm >>= fm) (ma >>= fa) m (xs ++ following rest (mm m)) := by
  have hrest (hmeets : k.Meets (xs ++ following rest (mm m))) {x : α} {t : State}
      (hx : mm m = .ok x t) : k.Meets (rest x t) := by
    rw [hx] at hmeets
    exact hmeets.right
  refine ⟨fun hmeets => ?_, fun hmeets a htwin => ?_⟩
  · exact (h.kept hmeets.left).bind fun x t hx => (hf x t hx).kept (hrest hmeets hx)
  · exact (h.run hmeets.left a htwin).bind (fun x t hx => (hf x t hx).kept (hrest hmeets hx))
      fun x t a' hx => (hf x t hx).run (hrest hmeets hx) a'

/-- What follows comes to no node. -/
theorem Abreast.andThen {mm ma : Pass α} {fm fa : α → Pass β} {m : State} {xs : List Arrival}
    (h : Abreast k R cm ca mm ma m xs) (hf : ∀ x t, Abreast k R cm ca (fm x) (fa x) t []) :
    Abreast k R cm ca (mm >>= fm) (ma >>= fa) m xs := by
  have hbind :
      Abreast k R cm ca (mm >>= fm) (ma >>= fa) m (xs ++ following (fun _ _ => []) (mm m)) :=
    h.bind fun x t _ => hf x t
  rwa [following_nil, List.append_nil] at hbind

variable (hp : Passing k R cm ca)

include hp

theorem abreast_visit (index : Nat) (n : Node) (m : State) :
    Abreast k R cm ca (visit cm index n) (visit ca index n) m [⟨cm, index, n, m⟩] := by
  have hreach {known : String → Prop} : InStep k known R cm ca
      (modify fun s => { s with index, location := n.location.known? } : Pass Unit)
      (modify fun s => { s with index, location := n.location.known? }) :=
    inStep_modify (fun l => { l with index }) (fun _ => rfl) (fun _ => rfl) (fun _ => rfl)
      (fun _ => rfl)
  cases hdebug : n.debug? with
  | none =>
    have hvisit {known : String → Prop} (hsees : ∀ e ∈ n.exprs, k.Sees known e)
        (hblock : k = .level ∨ n.opensBlock = false) :
        InStep k known R cm ca (visit cm index n) (visit ca index n) :=
      hreach.bind fun _ => inStep_runStep (hp.reads hsees hblock hdebug)
    refine ⟨fun hmeets => ?_, fun hmeets a htwin => ?_⟩
    · exact (hvisit (sees_of_meets hmeets).1 (sees_of_meets hmeets).2).kept m
    · obtain ⟨hsees, hblock⟩ := sees_of_meets hmeets
      exact ((hvisit hsees hblock).run m a htwin.knows).forget
  | some d =>
    have hvisit : InStep k NoName R cm ca (visit cm index n) (visit ca index n) := by
      refine hreach.bind fun _ => ?_
      rw [node_of_debug hdebug, node_of_debug hdebug]
      exact inStep_debugVisit hp.toPairing hp.measuring d
    exact ⟨fun _ => hvisit.kept m, fun _ a htwin => hvisit.run m a htwin⟩

theorem abreast_visitAll (nodes : List Node) (index : Nat) (m : State) :
    Abreast k R cm ca (visitAll cm index nodes) (visitAll ca index nodes) m
      (arrivals cm index nodes m) := by
  induction nodes generalizing index m with
  | nil => exact (inStep_pure ()).abreast m
  | cons n rest ih => exact (abreast_visit hp index n m).bind fun _ t _ => ih (index + 1) t

end Abreast

/-! ## Between routines -/

section Outside

variable {cx : Context} {s t : State}

theorem Act.outside {n : Node} {here : Nat} (h : Act n here s t) (hs : s.scope = none) :
    t.scope = none := by
  cases h with
  | effect h =>
    cases h with
    | quiet h => exact h.scope.trans hs
    | scope a b ha hab => cases ha.symm.trans hs
    | report | store | fixup | block | openBlock | table | pack | register => exact hs
  | close hnode h => exact h.scope.trans hs
  | object | globalVar | record | text => exact hs

theorem visit_outside {index : Nat} {n : Node} (hs : s.scope = none)
    (h : visit cx index n s = .ok () t) : t.scope = none := by
  have hacts := visit_acts cx index n s
  rw [final_of_ok h] at hacts
  clear h
  induction hacts with
  | refl => exact hs
  | tail _ hact ih => exact hact.outside ih

theorem visitAll_outside {nodes : List Node} {index : Nat} (hs : s.scope = none)
    (h : visitAll cx index nodes s = .ok () t) : t.scope = none := by
  induction nodes generalizing index s with
  | nil =>
    cases h
    exact hs
  | cons n rest ih =>
    obtain ⟨⟨⟩, u, hvisit, hrest⟩ := bind_ok h
    exact ih (visit_outside hs hvisit) hrest

theorem judgeChange_cases (cx : Context) (name : String) (old : Int32) (s : State) :
    judgeChange cx name old s = .ok () s ∨
      (∃ log, judgeChange cx name old s = .ok () { s with log, changed := true }) ∨
        ∃ e, judgeChange cx name old s = .error e s := by
  rw [judgeChange_get]
  cases s.globals.valueOf name with
  | none => exact .inl rfl
  | some new =>
    dsimp only
    split
    · exact .inl rfl
    · cases cx.mode with
      | measuring => exact .inr (.inl ⟨_, rfl⟩)
      | assembling => exact .inr (.inr ⟨_, rfl⟩)

/-- A routine has been left, and the changes in it are yet to be judged. -/
structure Leaving (s u : State) : Prop where
  layout : u.layout = { s.layout with scope := none, locals := .empty }
  core : u.core = s.core

theorem Leaving.outside {u : State} (h : Leaving s u) : u.scope = none :=
  Option.map_eq_none_iff.mp (congrArg Layout.scope h.layout)

theorem closeRoutine_eq (cx : Context) (scope : RoutineScope) (s : State) :
    ∃ u, Leaving s u ∧ closeRoutine cx scope s = runStep cx (judgeAll cx scope.deferred) u := by
  unfold closeRoutine
  rw [modify_bind]
  by_cases hwalks : 1 < scope.walks
  · rw [if_pos hwalks, modify_bind]
    refine ⟨_, ?_, rfl⟩
    exact ⟨rfl, rfl⟩
  · rw [if_neg hwalks]
    refine ⟨_, ?_, rfl⟩
    exact ⟨rfl, rfl⟩

/-- Judging changes writes to the log and sets the flag, and does nothing else. -/
theorem judgeAll_final (cx : Context) (changes : List (String × Int32)) (s : State) :
    ∃ log changed, final (judgeAll cx changes) s = { s with log, changed } := by
  induction changes generalizing s with
  | nil => exact ⟨s.log, s.changed, rfl⟩
  | cons change rest ih =>
    rcases judgeChange_cases cx change.1 change.2 s with hs | ⟨log, hs⟩ | ⟨e, hs⟩
    · obtain ⟨log, changed, hrest⟩ := ih s
      exact ⟨log, changed, (final_bind hs).trans hrest⟩
    · obtain ⟨log', changed, hrest⟩ := ih { s with log, changed := true }
      exact ⟨log', changed, (final_bind hs).trans hrest⟩
    · exact ⟨s.log, s.changed, final_of_error (bind_of_error hs)⟩

theorem kept_judgeAll {R : Context → State → State → Prop} [Keeping R]
    (changes : List (String × Int32)) (s : State) : Leaves (R cx) (judgeAll cx changes) s :=
  leaves_forM _ _ (fun change _ t => kept_judgeChange change.1 change.2 t) s

/-- A measuring pass tells whether one of the globals has moved. -/
theorem judgeAll_tells (hm : cx.mode = .measuring) (changes : List (String × Int32)) (s : State) :
    (final (judgeAll cx changes) s).changed = true ∨
      ∀ change ∈ changes, Unmoved s.globals change.1 change.2 := by
  induction changes generalizing s with
  | nil => exact .inr fun _ h => nomatch h
  | cons change rest ih =>
    by_cases hchange : Unmoved s.globals change.1 change.2
    · have hjudge : judgeChange cx change.1 change.2 s = .ok () s := by
        rw [judgeChange_get]
        rcases hchange with hnone | hsome
        · rw [hnone]
          rfl
        · rw [hsome]
          dsimp only
          rw [if_pos rfl]
          rfl
      have hfinal : final (judgeAll cx (change :: rest)) s = final (judgeAll cx rest) s :=
        final_bind hjudge
      rw [hfinal]
      exact (ih s).imp_right fun hrest => List.forall_mem_cons.mpr ⟨hchange, hrest⟩
    · have hmoved : ∃ new, s.globals.valueOf change.1 = some new ∧ new ≠ change.2 := by
        cases hvalue : s.globals.valueOf change.1 with
        | none => exact absurd (.inl hvalue) hchange
        | some new => exact ⟨new, rfl, fun heq => hchange (.inr (heq ▸ hvalue))⟩
      obtain ⟨new, hnew, hne⟩ := hmoved
      obtain ⟨log, hjudge⟩ := judgeChange_moved hm hnew hne
      have hfinal : final (judgeAll cx (change :: rest)) s =
          final (judgeAll cx rest) { s with log, changed := true } := final_bind hjudge
      rw [hfinal]
      exact .inl ((kept_judgeAll (R := Carried) rest { s with log, changed := true }).changed rfl)

theorem closeRoutine_outside {scope : RoutineScope} (h : closeRoutine cx scope s = .ok () t) :
    t.scope = none := by
  obtain ⟨u, hu, heq⟩ := closeRoutine_eq cx scope s
  obtain ⟨log, changed, hfinal⟩ := judgeAll_final cx scope.deferred u
  have hrest := rest_runStep cx (judgeAll cx scope.deferred) u
  rw [final_of_ok (heq.symm.trans h), hfinal] at hrest
  have hdeferred : t.scope.map RoutineScope.deferred = u.scope.map RoutineScope.deferred :=
    congrArg Rest.deferred hrest
  rw [hu.outside] at hdeferred
  exact Option.map_eq_none_iff.mp hdeferred

theorem walkRoutine_outside {start : Nat} {r : Routine} {left : Nat}
    (h : walkRoutine cx start r left s = .ok () t) : t.scope = none := by
  have hend {again : Option (Pass Unit)} {u : State} (h : endWalk cx again u = .ok () t)
      (hagain : ∀ walk v, again = some walk → walk v = .ok () t → t.scope = none) :
      t.scope = none := by
    rcases endWalk_cases h with ⟨hu, rfl⟩ | ⟨scope, -, -, hclose⟩ |
      ⟨scope, next, walk, -, -, -, hwalk, ht⟩
    · exact hu
    · exact closeRoutine_outside hclose
    · exact hagain walk _ hwalk ht
  induction left generalizing s with
  | zero =>
    obtain ⟨⟨⟩, u, -, hwalk⟩ := bind_ok h
    exact hend hwalk fun walk v hnone => nomatch hnone
  | succ left ih =>
    obtain ⟨⟨⟩, u, -, hwalk⟩ := bind_ok h
    refine hend hwalk fun walk v hsome hv => ?_
    cases hsome
    exact ih hv

theorem routines_outside {start next : Nat} {rs : List Routine} (hs : s.scope = none)
    (h : routines cx start rs s = .ok next t) : t.scope = none := by
  induction rs generalizing start s with
  | nil =>
    cases h
    exact hs
  | cons r rest ih =>
    obtain ⟨⟨⟩, u, hroutine, hrest⟩ := bind_ok h
    obtain ⟨⟨⟩, v, -, hwalk⟩ := bind_ok hroutine
    exact ih (walkRoutine_outside hwalk) hrest

end Outside

/-! ## Routines -/

/-- The snapshot of a state with this layout, without what it holds beside the layout. -/
def Layout.snapshot (l : Layout) : Snapshot :=
  { position := l.image.cursor, fixups := l.fixups.size, debugRecords := 0, diagnostics := 0
    text := none, objects := l.objects, globals := l.globalVars
    abbreviations := l.encoder.abbreviations.length, packing := l.packing.bases }

/-- What the start of another walk makes of a layout. -/
def Layout.walkAgain (l : Layout) (next : RoutineScope) : Layout :=
  { l with
    image := (l.image.truncate next.snapshot.position).seek next.snapshot.position
    fixups := l.fixups.take next.snapshot.fixups
    table := l.table.filter (·.start < next.snapshot.position)
    objects := next.snapshot.objects
    globalVars := next.snapshot.globals
    encoder := l.encoder.truncate next.snapshot.abbreviations
    packing := { l.packing with bases := next.snapshot.packing }
    scope := some next }

theorem nextWalk?_plain (x : RoutineScope) :
    x.plain.nextWalk? = x.nextWalk?.map RoutineScope.plain := by
  unfold RoutineScope.nextWalk?
  show (if maxWalks ≤ x.walks then _ else _) = _
  split <;> rfl

theorem rest_walkAgain {s : State} {scope next : RoutineScope} (hscope : s.scope = some scope)
    (hnext : scope.nextWalk? = some next) : (s.walkAgain next).rest = s.rest := by
  have hdeferred : next.deferred = scope.deferred := by
    unfold RoutineScope.nextWalk? at hnext
    split at hnext
    · cases hnext
    · cases hnext
      rfl
  unfold State.rest
  rw [hscope, Option.map_some, ← hdeferred]
  rfl

theorem layout_enter (s : State) (start : Nat) (r : Routine) :
    (s.enter start r).layout =
      { s.layout with scope := some (.begin r.name start r.body s.layout.snapshot) } := rfl

theorem layout_walkAgain (s : State) (next : RoutineScope) :
    (s.walkAgain next).layout = s.layout.walkAgain next.plain := rfl

/-- A routine that is entered has put nothing off. -/
theorem State.Orderly.enterRoutine {s : State} (hs : s.Orderly) (start : Nat) (r : Routine) :
    (s.enter start r).Orderly := by
  refine ⟨hs.shut, fun changes hchanges change hchange => ?_⟩
  cases hchanges
  cases hchange

section EndWalk

variable {cx : Context} {again : Option (Pass Unit)} {s : State} {scope : RoutineScope}

theorem endWalk_outside (hscope : s.scope = none) : endWalk cx again s = .ok () s := by
  unfold endWalk
  rw [get_bind, hscope]
  rfl

theorem endWalk_settled (hscope : s.scope = some scope) (hmoved : scope.moved = false) :
    endWalk cx again s = closeRoutine cx scope s := by
  unfold endWalk
  rw [get_bind, hscope]
  dsimp only
  rw [hmoved]
  rfl

theorem endWalk_again (hscope : s.scope = some scope) (hmoved : scope.moved = true)
    {next : RoutineScope} (hnext : scope.nextWalk? = some next) (walk : Pass Unit) :
    endWalk cx (some walk) s = walk (s.walkAgain next) := by
  unfold endWalk
  rw [get_bind, hscope]
  dsimp only
  rw [hmoved, hnext]
  rfl

theorem endWalk_spent (hscope : s.scope = some scope) (hmoved : scope.moved = true)
    (hspent : scope.nextWalk? = none ∨ again = none) :
    endWalk cx again s = stopWith (.routineNotSettled scope.walks scope.routine) s := by
  unfold endWalk
  rw [get_bind, hscope]
  dsimp only
  rw [hmoved]
  rcases hspent with hspent | hspent
  · rw [hspent]
    rfl
  · rw [hspent]
    cases scope.nextWalk? <;> rfl

end EndWalk

section Routines

variable {k : Outlook} {known : String → Prop} {R : Context → State → State → Prop} [Following k R]
  {cm ca : Context}

include R in
/-- The changes that wait are judged in the same way. -/
theorem paired_judgeAll (hc : Pairing cm ca) {changes : List (String × Int32)} {m a : State}
    (h : Twin k known cm ca m a)
    (hvalued : ∀ change ∈ changes, k = .level ∨ (m.globals.valueOf change.1).isSome = true) :
    Paired k known cm ca (judgeAll cm changes) (judgeAll ca changes) m a := by
  induction changes generalizing m a with
  | nil => exact .ok () rfl rfl h
  | cons change rest ih =>
    have hjudge := paired_judgeChange hc h (hvalued change List.mem_cons_self) change.2
    refine hjudge.bind (fun _ m' _ => kept_judgeAll (R := R) rest m') fun _ m' a' hm htwin =>
      ih htwin ?_
    have hglobals : m'.globals = m.globals := by
      rcases judgeChange_cases cm change.1 change.2 m with heq | ⟨log, heq⟩ | ⟨e, heq⟩ <;>
        cases hm.symm.trans heq
      · rfl
      · rfl
    rw [hglobals]
    exact fun other hother => hvalued other (List.mem_cons_of_mem _ hother)

include R in
theorem paired_closeRoutine (hc : Pairing cm ca) {x y : RoutineScope} {m a : State}
    (h : Twin k known cm ca m a) (hscope : m.scope = some x) (hxy : y.plain = x.plain) :
    Paired k known cm ca (closeRoutine cm x) (closeRoutine ca y) m a := by
  obtain ⟨u, hu, hm⟩ := closeRoutine_eq cm x m
  obtain ⟨v, hv, ha⟩ := closeRoutine_eq ca y a
  have hvocabulary : u.vocabulary = m.vocabulary := congrArg Layout.vocabulary hu.layout
  have hglobals : u.globals = m.globals := congrArg Core.globals hu.core
  have horderly (horderly : m.Orderly) : u.Orderly := by
    refine ⟨hvocabulary.trans horderly.shut, fun changes hchanges => ?_⟩
    rw [hu.outside] at hchanges
    cases hchanges
  have htwin : Twin k known cm ca u v :=
    h.of_core (by rw [hu.layout, hv.layout, h.layout]) hu.core hv.core
      (h.orderly.imp_right horderly)
  have hdeferred : y.plain.deferred = x.plain.deferred := by rw [hxy]
  have hvalued : ∀ change ∈ x.deferred, k = .level ∨
      (u.globals.valueOf change.1).isSome = true := by
    intro change hchange
    rw [hglobals]
    exact h.orderly.imp_right fun horderly => horderly.valued _ (by rw [hscope]; rfl) change hchange
  rw [show y.deferred = x.deferred from hdeferred] at ha
  exact (paired_runStep (R := R) (paired_judgeAll (R := R) hc htwin hvalued)).congr hm ha

variable (hp : Passing k R cm ca)

include hp

/-- The walks to come are none for both passes, or they are abreast. -/
theorem abreast_endWalk {again again' : Option (Pass Unit)} {t : State} {xs : List Arrival}
    (hagain : Option.Rel (fun walk walk' => ∀ next, t.nextWalk? = some next →
      Abreast k R cm ca walk walk' (t.walkAgain next) xs) again again') :
    Abreast k R cm ca (endWalk cm again) (endWalk ca again') t xs := by
  have hkept {mm : Pass Unit} {u : State} (heq : endWalk cm again t = mm u) (hu : R cm t u)
      (hmm : Leaves (R cm) mm u) : Leaves (R cm) (endWalk cm again) t := by
    unfold Leaves final
    rw [heq]
    exact Keeping.trans hu hmm
  cases hscope : t.scope with
  | none =>
    refine ⟨fun _ => leaves_of_ok (endWalk_outside hscope) (Keeping.refl cm t), fun _ a h => ?_⟩
    obtain ⟨-, ha⟩ | ⟨x, y, hx, -, -⟩ := scope_cases h.layout
    · exact .ok () (endWalk_outside hscope) (endWalk_outside ha) h
    · cases hscope.symm.trans hx
  | some x =>
    have htwin {a : State} (h : Twin k NoName cm ca t a) :
        ∃ y, a.scope = some y ∧ y.plain = x.plain := by
      obtain ⟨hnone, -⟩ | ⟨x', y, hx, hy, hxy⟩ := scope_cases h.layout
      · cases hscope.symm.trans hnone
      · cases hscope.symm.trans hx
        exact ⟨y, hy, hxy⟩
    cases hmoved : x.moved with
    | false =>
      refine ⟨fun _ => hkept (endWalk_settled hscope hmoved) (Keeping.refl cm t) (hp.leave hscope),
        fun _ a h => ?_⟩
      obtain ⟨y, hy, hxy⟩ := htwin h
      have hymoved : y.plain.moved = x.plain.moved := by rw [hxy]
      exact (paired_closeRoutine (R := R) hp.toPairing h hscope hxy).congr
        (endWalk_settled hscope hmoved) (endWalk_settled hy (hymoved.trans hmoved))
    | true =>
      have hspent (hspent : x.nextWalk? = none ∨ again = none) :
          Abreast k R cm ca (endWalk cm again) (endWalk ca again') t xs := by
        have heq : endWalk cm again t = stopWith (.routineNotSettled x.walks x.routine) t :=
          endWalk_spent hscope hmoved hspent
        refine ⟨fun _ => hkept heq (Keeping.refl cm t) (Keeping.of_rest rfl), fun _ a _ => ?_⟩
        exact .lost (.failed (.routineNotSettled x.walks x.routine)) id heq
      cases hnext : x.nextWalk? with
      | none => exact hspent (.inl hnext)
      | some next =>
        cases hagain with
        | none => exact hspent (.inr rfl)
        | @some walk walk' hwalk =>
          have hnextWalk : t.nextWalk? = some next := by
            unfold State.nextWalk?
            rw [hscope, Option.filter_some, if_pos hmoved]
            exact hnext
          have habreast := hwalk next hnextWalk
          have hrest := rest_walkAgain hscope hnext
          refine ⟨fun hmeets => hkept (endWalk_again hscope hmoved hnext walk)
            (Keeping.of_rest hrest) (habreast.kept hmeets), fun hmeets a h => ?_⟩
          obtain ⟨y, hy, hxy⟩ := htwin h
          have hymoved : y.plain.moved = x.plain.moved := by rw [hxy]
          have hplain :
              y.nextWalk?.map RoutineScope.plain = x.nextWalk?.map RoutineScope.plain := by
            rw [← nextWalk?_plain, ← nextWalk?_plain, hxy]
          rw [hnext, Option.map_some, Option.map_eq_some_iff] at hplain
          obtain ⟨next', hnext', hplain⟩ := hplain
          have hlayout : (a.walkAgain next').layout = (t.walkAgain next).layout := by
            rw [layout_walkAgain, layout_walkAgain, h.layout, hplain]
          exact (habreast.run hmeets _ (h.of_rest hlayout hrest (rest_walkAgain hy hnext'))).congr
            (endWalk_again hscope hmoved hnext walk)
            (endWalk_again hy (hymoved.trans hmoved) hnext' walk')

theorem abreast_walkRoutine (start : Nat) (r : Routine) (left : Nat) (m : State) :
    Abreast k R cm ca (walkRoutine cm start r left) (walkRoutine ca start r left) m
      (walkArrivals cm start r left m) := by
  induction left generalizing m with
  | zero =>
    refine (abreast_visitAll hp r.nodes start m).andThen fun _ t => ?_
    exact abreast_endWalk hp .none
  | succ left ih =>
    refine (abreast_visitAll hp r.nodes start m).bind fun _ t _ => ?_
    refine abreast_endWalk hp (.some fun next hnext => ?_)
    rw [hnext]
    exact ih (t.walkAgain next)

theorem abreast_routines (rs : List Routine) (start : Nat) {m : State} (hm : m.scope = none) :
    Abreast k R cm ca (routines cm start rs) (routines ca start rs) m
      (routinesArrivals cm start rs m) := by
  induction rs generalizing start m with
  | nil => exact (inStep_pure start).abreast m
  | cons r rest ih =>
    have hroutine : Abreast k R cm ca (routine cm start r) (routine ca start r) m
        (walkArrivals cm start r maxWalks (m.enter start r)) := by
      have hwalk := abreast_walkRoutine hp start r maxWalks (m.enter start r)
      refine ⟨fun hmeets => Keeping.trans (hp.enter hm start r) (hwalk.kept hmeets),
        fun hmeets a h => ?_⟩
      have htwin : Twin k NoName cm ca (m.enter start r) (a.enter start r) := by
        refine h.of_core ?_ rfl rfl
          (h.orderly.imp_right fun horderly => horderly.enterRoutine start r)
        rw [layout_enter, layout_enter, h.layout]
      exact (hwalk.run hmeets _ htwin).congr rfl rfl
    refine hroutine.bind fun _ t ht => ih _ ?_
    obtain ⟨⟨⟩, u, -, hwalk⟩ := bind_ok ht
    exact walkRoutine_outside hwalk

end Routines

/-! ## Passes -/

/-- Closes the table that is open at the end of a pass, with an error. -/
def dropTable (cx : Context) : Pass Unit := do
  match (← get).table with
  | some table =>
    modify fun s => { s with table := none }
    recover cx (.unclosedTable table.start)
  | none => pure ()

/-- Closes the vocabulary block that is open at the end of a pass, with an error. -/
def dropVocabulary (cx : Context) : Pass Unit := do
  match (← get).vocabulary with
  | some _ =>
    modify fun s => { s with vocabulary := none }
    recover cx .unclosedVocabulary
  | none => pure ()

/-- Looks at the fixups that are left. -/
def lookBack (cx : Context) : Pass Unit :=
  match cx.mode with
  | .measuring =>
    modify fun s => { s with changed := s.changed || s.fixups.any (·.resolves cx s) }
  | .assembling => do
    let fixups := (← get).fixups.toList
    if !fixups.isEmpty then stopWith (.unresolvedReferences (waitingNames fixups))

theorem endPass_parts (cx : Context) :
    endPass cx = dropTable cx >>= fun _ => dropVocabulary cx >>= fun _ => lookBack cx := by
  have hvocabulary : dropVocabulary cx >>= (fun _ => lookBack cx) = (do
      match (← get).vocabulary with
      | some _ =>
        modify fun s => { s with vocabulary := none }
        recover cx .unclosedVocabulary
        lookBack cx
      | none => lookBack cx) := by
    unfold dropVocabulary
    rw [bind_assoc]
    refine congrArg _ (funext fun s => ?_)
    cases s.vocabulary <;> simp only [bind_assoc, pure_bind]
  rw [hvocabulary]
  unfold dropTable
  rw [bind_assoc]
  refine congrArg _ (funext fun s => ?_)
  cases s.table <;> simp only [bind_assoc, pure_bind] <;> rfl

/-- A pass up to the look at its fixups. -/
def passBody (cx : Context) (program : Program) : Pass Unit := do
  visitAll cx 0 program.preamble
  let index ← routines cx program.preamble.length program.routines
  match program.closing with
  | some n => visit cx index n
  | none => pure ()
  dropTable cx
  dropVocabulary cx

theorem pass_eq (cx : Context) (program : Program) :
    pass cx program = passBody cx program >>= fun _ => lookBack cx := by
  unfold pass passBody
  rw [endPass_parts]
  cases program.closing <;> simp only [bind_assoc]

section Passes

variable {k : Outlook} {known : String → Prop} {R : Context → State → State → Prop} [Following k R]
  {cm ca : Context}

theorem inStep_dropTable : InStep k known R cm ca (dropTable cm) (dropTable ca) := by
  refine inStep_get fun m a h => ?_
  rw [show a.table = m.table from congrArg Layout.table h]
  split
  · refine InStep.bind ?_ fun _ => inStep_recover _
    exact inStep_modify (fun l => { l with table := none }) (fun _ => rfl) (fun _ => rfl)
      (fun _ => rfl) (fun _ => rfl)
  · exact inStep_pure _

theorem inStep_dropVocabulary : InStep k known R cm ca (dropVocabulary cm) (dropVocabulary ca) := by
  refine inStep_get fun m a h => ?_
  rw [show a.vocabulary = m.vocabulary from congrArg Layout.vocabulary h]
  split
  · refine InStep.bind ⟨fun s => leaves_modify ?_, fun m a h => .ok () rfl rfl ?_⟩ fun _ =>
      inStep_recover _
    · cases hblock : s.vocabulary with
      | none => exact Keeping.of_rest (by unfold State.rest; rw [hblock]; rfl)
      | some v => exact Keeping.inBlock (by simp [hblock]) rfl
    · refine h.of_core ?_ rfl rfl (h.orderly.imp_right fun hm => ⟨rfl, hm.valued⟩)
      exact congrArg (fun l : Layout => { l with vocabulary := none }) h.layout
  · exact inStep_pure _

/-- A pass is abreast up to the look at its fixups. -/
theorem abreast_passBody (hp : Passing k R cm ca) (program : Program) {m : State}
    (hm : m.scope = none) :
    Abreast k R cm ca (passBody cm program) (passBody ca program) m
      (passArrivals cm program m) := by
  have hdrop : InStep k NoName R cm ca (dropTable cm >>= fun _ => dropVocabulary cm)
      (dropTable ca >>= fun _ => dropVocabulary ca) :=
    inStep_dropTable.bind fun _ => inStep_dropVocabulary
  refine (abreast_visitAll hp program.preamble 0 m).bind fun _ t ht => ?_
  refine (abreast_routines hp program.routines _ (visitAll_outside hm ht)).bind fun index u _ => ?_
  cases program.closing with
  | none => exact hdrop.abreast u
  | some n => exact (abreast_visit hp index n u).andThen fun _ t => hdrop.abreast t

end Passes

/-! ## Both outlooks -/

theorem kept_closeRoutine {R : Context → State → State → Prop} [Keeping R] {cx : Context}
    {scope : RoutineScope} {s : State} (h : ∀ u, Leaving s u → R cx s u) :
    Leaves (R cx) (closeRoutine cx scope) s := by
  obtain ⟨u, hu, heq⟩ := closeRoutine_eq cx scope s
  have hfinal :
      final (closeRoutine cx scope) s = final (runStep cx (judgeAll cx scope.deferred)) u := by
    unfold final
    rw [heq]
  unfold Leaves
  rw [hfinal]
  exact Keeping.trans (h u hu)
    (Keeping.trans (kept_judgeAll scope.deferred u) (Keeping.of_rest (rest_runStep cx _ u)))

/-- All but the flags that a header tells of. -/
structure Flagged (s t : State) : Prop where
  layout : t.layout = s.layout
  core : { t.core with timed := s.timed, sound := s.sound } = s.core

theorem Flagged.carried {cx : Context} {s t : State} (h : Flagged s t) : Carried cx s t := by
  have hglobals : t.globals = s.globals := congrArg Core.globals h.core
  have hchanged : t.changed = s.changed := congrArg Core.changed h.core
  refine ⟨fun hs => hchanged.trans hs, congrArg Core.passes h.core, fun hs => ?_⟩
  rw [hglobals]
  exact hs

theorem Flagged.deferred {s t : State} (h : Flagged s t) :
    t.scope.map RoutineScope.deferred = s.scope.map RoutineScope.deferred := by
  have hscope : t.scope.map RoutineScope.plain = s.scope.map RoutineScope.plain :=
    congrArg Layout.scope h.layout
  have hdeferred := congrArg (Option.map RoutineScope.deferred) hscope
  rwa [Option.map_map, Option.map_map] at hdeferred

theorem Flagged.steady {cx : Context} {s t : State} (h : Flagged s t) : Steady cx s t := by
  have hglobals : t.globals = s.globals := congrArg Core.globals h.core
  have hvocabulary : t.vocabulary = s.vocabulary := congrArg Layout.vocabulary h.layout
  exact steady_of_values h.carried (fun hs => hvocabulary.trans hs) h.deferred fun name => by
    rw [hglobals]

section Reading

variable {k : Outlook} {known : String → Prop} {R R' : Context → State → State → Prop}
    {cm ca : Context}

theorem InStep.weaken {ε α : Type} [Halting ε] {mm ma : EStateM ε State α}
    (h : InStep k known R cm ca mm ma) (hR : ∀ s t, R cm s t → R' cm s t) :
    InStep k known R' cm ca mm ma :=
  ⟨fun s => (h.kept s).imp (hR s), h.run⟩

theorem inStep_flag {f g : State → State} (hf : ∀ s, Flagged s (f s)) (hg : ∀ s, Flagged s (g s))
    (hR : ∀ s t, Flagged s t → R cm s t) :
    InStep k known R cm ca (modify f : Step Unit) (modify g) := by
  refine ⟨fun s => leaves_modify (hR s _ (hf s)), fun m a h => .ok () rfl rfl ?_⟩
  have hmglobals : (f m).globals = m.globals := congrArg Core.globals (hf m).core
  have haglobals : (g a).globals = a.globals := congrArg Core.globals (hg a).core
  have hchanged : (f m).changed = m.changed := congrArg Core.changed (hf m).core
  have hvocabulary : (f m).vocabulary = m.vocabulary := congrArg Layout.vocabulary (hf m).layout
  refine ⟨?_, ?_, hchanged.trans h.still, h.orderly.imp_right fun hm => ?_⟩
  · rw [(hf m).layout, (hg a).layout, h.layout]
  · rw [hmglobals, haglobals]
    exact h.globals
  · exact hm.of_values (hvocabulary.trans hm.shut) (hf m).deferred fun name => by rw [hmglobals]

/-- What is in step at the nodes that set no flag is so at all nodes. -/
theorem inStep_reads [Following k R'] (hd : Defining k known R' cm ca)
    (hR : ∀ s t, R' cm s t → R cm s t) (hflag : ∀ s t, Flagged s t → R cm s t) {n : Node}
    (hsees : ∀ e ∈ n.exprs, k.Sees known e) (hblock : k = .level ∨ n.opensBlock = false)
    (hdebug : n.debug? = none) :
    InStep k known R cm ca (node cm n) (node ca n) := by
  by_cases htime : n.kind = .directive .time
  · rw [node_directive htime, node_directive htime]
    exact inStep_flag (f := fun s => { s with timed := s.timed || cm.version.number ≤ 3 })
      (g := fun s => { s with timed := s.timed || ca.version.number ≤ 3 }) (fun _ => ⟨rfl, rfl⟩)
      (fun _ => ⟨rfl, rfl⟩) hflag
  · by_cases hsound : n.kind = .directive .sound
    · rw [node_directive hsound, node_directive hsound]
      exact inStep_flag (f := fun s => { s with sound := true })
        (g := fun s => { s with sound := true }) (fun _ => ⟨rfl, rfl⟩) (fun _ => ⟨rfl, rfl⟩) hflag
    · exact (inStep_node hd hsees hblock hdebug htime hsound).weaken hR

end Reading

theorem steady_enter {cx : Context} {s : State} (hs : s.scope = none) (start : Nat) (r : Routine) :
    Steady cx s (s.enter start r) := by
  refine ⟨carried_of_core rfl, fun _ horderly => ?_⟩
  have hentered := horderly.enterRoutine start r
  refine ⟨hentered, .inr fun name value hvalue => ?_⟩
  rw [horderly.heldTo, hs] at hvalue
  rw [hentered.heldTo]
  exact hvalue

/-- A routine that is left has no global moved, or the pass tells so. -/
theorem steady_closeRoutine {cx : Context} {scope : RoutineScope} {s : State}
    (hs : s.scope = some scope) : Leaves (Steady cx) (closeRoutine cx scope) s := by
  have hcarried : Leaves (Carried cx) (closeRoutine cx scope) s :=
    kept_closeRoutine fun u hu => carried_of_core hu.core
  refine ⟨hcarried, fun hm horderly => ?_⟩
  obtain ⟨u, hu, heq⟩ := closeRoutine_eq cx scope s
  have hfinal :
      final (closeRoutine cx scope) s = final (runStep cx (judgeAll cx scope.deferred)) u := by
    unfold final
    rw [heq]
  rw [hfinal]
  have hrest := rest_runStep cx (judgeAll cx scope.deferred) u
  have htells := judgeAll_tells hm scope.deferred u
  obtain ⟨log, changed, hjudged⟩ := judgeAll_final cx scope.deferred u
  generalize final (runStep cx (judgeAll cx scope.deferred)) u = t at hrest
  rw [hjudged] at hrest htells
  have hshut : t.vocabulary = none :=
    shut_of_rest hrest ((congrArg Layout.vocabulary hu.layout).trans horderly.shut)
  have hglobals : t.globals = s.globals :=
    (congrArg (·.globals) hrest : t.globals = u.globals).trans (congrArg Core.globals hu.core)
  have hchanged : t.changed = changed := congrArg (·.changed) hrest
  have houtside : t.scope.map RoutineScope.deferred = none := by
    have hdeferred : t.scope.map RoutineScope.deferred = u.scope.map RoutineScope.deferred :=
      congrArg Rest.deferred hrest
    rw [hdeferred, hu.outside]
    rfl
  have ht : t.Orderly := ⟨hshut, fun changes hchanges => nomatch houtside.symm.trans hchanges⟩
  refine ⟨ht, htells.imp hchanged.trans fun hunmoved name value hvalue => ?_⟩
  rw [ht.heldTo, houtside, hglobals, Option.bind_none, Option.none_or]
  rw [horderly.heldTo, hs, Option.map_some, Option.bind_some] at hvalue
  cases hlookup : scope.deferred.lookup name with
  | none => rwa [hlookup, Option.none_or] at hvalue
  | some old =>
    rw [hlookup, Option.some_or] at hvalue
    cases hvalue
    have hsame : u.globals = s.globals := congrArg Core.globals hu.core
    rw [hsame] at hunmoved
    exact unmoved_of_lookup hunmoved hlookup (horderly.known (by rw [hs]; rfl) hlookup)

section Passing

variable {cm ca : Context} (hc : Pairing cm ca) (hm : cm.mode = .measuring)

include hc hm

theorem passing_level : Passing .level Carried cm ca := by
  refine ⟨hc, hm, ?_, fun _ _ _ => carried_of_core rfl,
    fun _ => kept_closeRoutine fun u hu => carried_of_core hu.core⟩
  exact inStep_reads (defining_level hc) (fun _ _ h => h.toCarried) fun _ _ h => h.carried

theorem passing_ahead (ending : String → Option (SymbolKind × Int32)) :
    Passing (.ahead ending) Steady cm ca := by
  refine ⟨hc, hm, ?_, steady_enter, steady_closeRoutine⟩
  exact inStep_reads (defining_ahead hc hm ending) (fun _ _ h => h) fun _ _ h => h.steady

end Passing

end ZAssembler.Assembly
