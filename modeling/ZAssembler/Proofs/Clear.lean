import ZAssembler.Proofs.Rewinding

/-
  The header stays clear. A pass begins after the 64 bytes of the header, and as long as it stays
  below 2^32 bytes everything that a node may write to or patch lies after them: the cursor, the
  fixups that wait and the open block (`Clear`). So reading a node leaves the bytes of the header as
  they are, whatever they are (`arrivals_leave_header`), in every pass and in every walk of a
  routine.

  What each node and each further walk of a routine keeps (`Upheld`) holds before every node that a
  pass comes to (`Upheld.passArrivals`); the clear header is one case of it.
-/

namespace ZAssembler.Assembly

/-- All that a node may write to lies after the header. -/
structure Clear (s : State) : Prop where
  cursor : Story.headerSize ≤ s.image.cursor
  within : s.image.cursor ≤ s.image.size
  fixups : ∀ f ∈ s.fixups.toList, ∀ addr width, f.target = .image addr width →
    Story.headerSize ≤ addr
  block : ∀ v, s.vocabulary = some v → Story.headerSize ≤ v.start

/-- The bytes of the header are the same. -/
def SameHeader (s t : State) : Prop :=
  ∀ a, a < Story.headerSize → t.image.readByte a = s.image.readByte a

section Clear

variable {s t : State}

/-- What is left of a state if nothing has been written after the header. -/
def State.underHeader (s : State) : State :=
  { s with image := s.image.seek Story.headerSize, fixups := #[], vocabulary := none }

theorem Clear.framed (h : Clear s) : Framed True s.underHeader s := by
  refine ⟨⟨h.cursor, h.within, fun _ ht => .inl ht⟩, ⟨fun _ _ => rfl, List.nil_prefix, ?_⟩, ?_⟩
  · exact fun f hf addr width htarget => h.fixups f hf addr width htarget
  · exact fun _ v hv => ⟨h.block v hv, Nat.zero_le _⟩

theorem Clear.of_framed (h : Framed True s.underHeader t) : Clear t ∧ SameHeader s t :=
  ⟨⟨h.beyond.cursor, h.beyond.within, h.inside.waiting, fun v hv => (h.inner trivial v hv).1⟩,
    h.inside.bytes⟩

/-- What keeps the frame keeps the header clear and leaves its bytes alone. -/
theorem Clear.keeps (hs : Clear s) (h : Keeps (Framed True s.underHeader) s t)
    (hfit : t.image.size < 2 ^ 32) : Clear t ∧ SameHeader s t :=
  Clear.of_framed (h.keeps hfit hs.framed)

theorem Clear.visit (hs : Clear s) (cx : Context) (index : Nat) (n : Node)
    (hfit : (final (visit cx index n) s).image.size < 2 ^ 32) :
    Clear (final (visit cx index n) s) ∧ SameHeader s (final (visit cx index n) s) :=
  hs.keeps (visit_framed cx index n (fun _ => trivial) s) hfit

theorem Clear.of_eq (hs : Clear s) (himage : t.image = s.image) (hfixups : t.fixups = s.fixups)
    (hvocabulary : t.vocabulary = s.vocabulary) : Clear t :=
  ⟨himage ▸ hs.cursor, himage ▸ hs.within, hfixups ▸ hs.fixups, hvocabulary ▸ hs.block⟩

theorem Clear.walkAgain (hs : Clear s) {next : RoutineScope}
    (hlow : Story.headerSize ≤ next.snapshot.position)
    (hhigh : next.snapshot.position ≤ s.image.size) :
    Clear (s.walkAgain next) ∧ SameHeader s (s.walkAgain next) := by
  refine ⟨⟨hlow, ?_, fun f hf => hs.fixups f ?_, hs.block⟩, fun a ha => ?_⟩
  · rw [size_walkAgain]
    exact Nat.le_min.mpr ⟨Nat.le_refl _, hhigh⟩
  · have htake : f ∈ (s.fixups.take next.snapshot.fixups).toList := hf
    rw [toList_take] at htake
    exact List.mem_of_mem_take htake
  · exact Image.readByte_truncate s.image (Nat.lt_of_lt_of_le ha hlow)

end Clear

/-! ## The arrivals of a pass -/

/-- A node is about to be read. -/
structure Arrival where
  context : Context
  index : Nat
  node : Node
  before : State

/-- The state after the node is read, even if the pass stops there. -/
def Arrival.after (x : Arrival) : State := final (visit x.context x.index x.node) x.before

/-- What follows a computation, if it comes to its end. -/
def following {ε α β : Type} (rest : α → State → List β) : EStateM.Result ε State α → List β
  | .ok a t => rest a t
  | .error _ _ => []

def arrivals (cx : Context) : Nat → List Node → State → List Arrival
  | _, [], _ => []
  | index, n :: rest, s =>
    ⟨cx, index, n, s⟩ :: (visit cx index n s |> following fun _ t => arrivals cx (index + 1) rest t)

/-- The arrivals of a routine, from a walk on that begins in state `s`. -/
def walkArrivals (cx : Context) (start : Nat) (r : Routine) : (left : Nat) → State → List Arrival
  | 0, s => arrivals cx start r.nodes s
  | left + 1, s =>
    arrivals cx start r.nodes s ++ (visitAll cx start r.nodes s |> following fun _ t =>
      match t.nextWalk? with
      | none => []
      | some next => walkArrivals cx start r left (t.walkAgain next))

def routinesArrivals (cx : Context) : Nat → List Routine → State → List Arrival
  | _, [], _ => []
  | start, r :: rest, s =>
    walkArrivals cx start r maxWalks (s.enter start r) ++
    (routine cx start r s |> following fun _ t =>
      routinesArrivals cx (start + 1 + r.body.length) rest t)

/-- The arrivals of a pass that begins in state `s`, in the order of time, up to where it stops. -/
def passArrivals (cx : Context) (program : Program) (s : State) : List Arrival :=
  arrivals cx 0 program.preamble s ++ (visitAll cx 0 program.preamble s |> following fun _ t =>
    routinesArrivals cx program.preamble.length program.routines t ++
      (routines cx program.preamble.length program.routines t |> following fun index u =>
        program.closing.toList.map fun n => ⟨cx, index, n, u⟩))

/-- No more than 2^32 - 1 bytes are written at any time. -/
def Small (xs : List Arrival) : Prop := ∀ x ∈ xs, x.after.image.size < 2 ^ 32

instance (xs : List Arrival) : Decidable (Small xs) :=
  inferInstanceAs (Decidable (∀ x ∈ xs, x.after.image.size < 2 ^ 32))

theorem following_nil {ε α β : Type} (result : EStateM.Result ε State α) :
    following (fun _ _ => ([] : List β)) result = [] := by
  cases result <;> rfl

theorem mem_following {ε α β : Type} {rest : α → State → List β} {result : EStateM.Result ε State α}
    {x : β} (h : x ∈ following rest result) : ∃ a t, result = .ok a t ∧ x ∈ rest a t := by
  cases result with
  | ok a t => exact ⟨a, t, rfl, h⟩
  | error e t => exact absurd h List.not_mem_nil

/-- If `P` holds before a computation whose arrivals are fine, it holds before each of the arrivals
    and when the computation comes to its end. -/
def Upholds (fine : Arrival → Prop) (P : State → Prop) {ε α : Type}
    (m : EStateM ε State α) (s : State) (xs : List Arrival) : Prop :=
  P s → (∀ x ∈ xs, fine x) → (∀ x ∈ xs, P x.before) ∧ ∀ a t, m s = .ok a t → P t

section Upholds

variable {fine : Arrival → Prop} {P : State → Prop} {ε α β : Type}

theorem Upholds.bind {m : EStateM ε State α} {f : α → EStateM ε State β} {s : State}
    {xs : List Arrival} {rest : α → State → List Arrival} (h : Upholds fine P m s xs)
    (hf : ∀ a t, m s = .ok a t → Upholds fine P (f a) t (rest a t)) :
    Upholds fine P (m >>= f) s (xs ++ following rest (m s)) := by
  intro hs hfine
  obtain ⟨hbefore, hend⟩ := h hs fun x hx => hfine x (List.mem_append_left _ hx)
  cases hm : m s with
  | error e t =>
    refine ⟨fun x hx => ?_, fun b u hu => ?_⟩
    · rw [following, List.append_nil] at hx
      exact hbefore x hx
    · cases (bind_of_error hm).symm.trans hu
  | ok a t =>
    rw [hm] at hfine
    obtain ⟨hbefore', hend'⟩ := hf a t hm (hend a t hm) fun x hx =>
      hfine x (List.mem_append_right _ hx)
    refine ⟨fun x hx => ?_, fun b u hu => hend' b u ((bind_of_ok hm).symm.trans hu)⟩
    rcases List.mem_append.mp hx with hx | hx
    · exact hbefore x hx
    · exact hbefore' x hx

theorem upholds_pure (a : α) (s : State) : Upholds fine P (pure a : EStateM ε State α) s [] := by
  refine fun hs _ => ⟨fun x hx => (nomatch hx), fun b t ht => ?_⟩
  cases ht
  exact hs

end Upholds

section Recovering

variable {R : State → State → Prop} [Std.Refl R] [IsTrans State R] (cx : Context)
  (hreport : ∀ s severity problem, R s (s.report severity problem))

include hreport

theorem leaves_recover (problem : Problem) (s : State) : Leaves R (recover cx problem) s := by
  refine Leaves.bind (leaves_modify (hreport s .error problem)) fun _ t _ => leaves_get ?_
  split
  · exact hreport t .fatal _
  · exact leaves_pure _ t

/-- Making a step part of a pass adds no more than reports. -/
theorem leaves_runStep {step : Step Unit} {s : State} (h : Leaves R step s) :
    Leaves R (runStep cx step) s := by
  unfold Leaves final at h ⊢
  unfold runStep
  cases hstep : step s with
  | ok a t =>
    rw [hstep] at h
    exact h
  | error i t =>
    rw [hstep] at h
    cases i with
    | skip problem => exact trans_of R h (leaves_recover cx hreport problem t)
    | abort problem => exact trans_of R h (hreport t .fatal problem)
    | restart version => exact h

end Recovering

/-- The image, the fixups and the block stay. -/
structure Resting (s t : State) : Prop where
  image : t.image = s.image
  fixups : t.fixups = s.fixups
  vocabulary : t.vocabulary = s.vocabulary

instance : Std.Refl Resting where
  refl _ := ⟨rfl, rfl, rfl⟩

instance : IsTrans State Resting where
  trans _ _ _ hst htu := ⟨htu.image.trans hst.image, htu.fixups.trans hst.fixups,
    htu.vocabulary.trans hst.vocabulary⟩

theorem resting_closeRoutine (cx : Context) (scope : RoutineScope) (s : State) :
    Leaves Resting (closeRoutine cx scope) s := by
  have hjudge : ∀ t, Leaves Resting
      (runStep cx (scope.deferred.forM fun change => judgeChange cx change.1 change.2)) t := by
    refine fun t => leaves_runStep cx (fun _ _ _ => ⟨rfl, rfl, rfl⟩) ?_
    exact leaves_forM _ _ (fun change _ t => (quiet_judgeChange cx change.1 change.2 t).imp
      fun _ h => ⟨h.image, h.fixups, h.vocabulary⟩) t
  unfold closeRoutine
  refine Leaves.bind (leaves_modify ⟨rfl, rfl, rfl⟩) fun _ t _ => ?_
  split
  · exact Leaves.bind (leaves_modify ⟨rfl, rfl, rfl⟩) fun _ t _ => hjudge t
  · exact hjudge t

/-- What follows a walk, if it is not another walk. -/
theorem endWalk_rests {cx : Context} {again : Option (Pass Unit)} {s t : State}
    (h : endWalk cx again s = .ok () t) :
    Resting s t ∨ ∃ walk next, again = some walk ∧ s.nextWalk? = some next ∧
      walk (s.walkAgain next) = .ok () t := by
  rcases endWalk_cases h with ⟨-, rfl⟩ | ⟨scope, -, -, hclose⟩ |
    ⟨scope, next, walk, hscope, hmoved, hnext, hwalk, ht⟩
  · exact .inl (refl_of Resting t)
  · exact .inl ((resting_closeRoutine cx scope s).of_ok hclose)
  · refine .inr ⟨walk, next, hwalk, ?_, ht⟩
    unfold State.nextWalk?
    rw [hscope, Option.filter_some, if_pos hmoved]
    exact hnext

/-- What a pass upholds as long as its arrivals are fine: each node keeps it, and so does another
    walk of a routine that the pass came to in state `opened`. -/
structure Upheld (fine : Arrival → Prop) (P : State → Prop) : Prop where
  within {s : State} (hs : P s) : s.image.cursor ≤ s.image.size
  arrival {x : Arrival} (hx : fine x) (hs : P x.before) : P x.after
  resting {s t : State} (h : Resting s t) (hs : P s) : P t
  walkAgain {opened s : State} {next : RoutineScope} (hopened : P opened) (hs : P s)
    (hposition : next.snapshot.position = opened.image.cursor)
    (hreach : opened.image.cursor ≤ s.image.size) : P (s.walkAgain next)

section Upheld

variable {fine : Arrival → Prop} {P : State → Prop} (h : Upheld fine P) (cx : Context)

include h

theorem Upheld.visit (index : Nat) (n : Node) (s : State) :
    Upholds fine P (visit cx index n) s [⟨cx, index, n, s⟩] := by
  intro hs hfine
  refine ⟨fun x hx => ?_, fun a t ht => ?_⟩
  · rw [List.mem_singleton.mp hx]
    exact hs
  · have hafter : P (final (Assembly.visit cx index n) s) :=
      h.arrival (hfine _ List.mem_cons_self) hs
    rwa [final_of_ok ht] at hafter

theorem Upheld.visitAll (nodes : List Node) (index : Nat) (s : State) :
    Upholds fine P (visitAll cx index nodes) s (arrivals cx index nodes s) := by
  induction nodes generalizing index s with
  | nil => exact upholds_pure () s
  | cons n rest ih => exact (h.visit cx index n s).bind fun _ t _ => ih (index + 1) t

theorem Upheld.walkRoutine {start : Nat} {r : Routine} {opened : State} (hopened : P opened)
    {left : Nat} {s : State} (hw : Walking start r opened s)
    (hreach : opened.image.cursor ≤ s.image.size) :
    Upholds fine P (walkRoutine cx start r left) s (walkArrivals cx start r left s) := by
  induction left generalizing s with
  | zero =>
    have hwalk : Upholds fine P (Assembly.walkRoutine cx start r 0) s
        (arrivals cx start r.nodes s ++ following (fun _ _ => [])
          (Assembly.visitAll cx start r.nodes s)) := by
      refine (h.visitAll cx r.nodes start s).bind fun _ u _ hu _ => ?_
      refine ⟨fun x hx => (nomatch hx), fun _ t ht => ?_⟩
      obtain hrest | ⟨walk, next, hnone, -⟩ := endWalk_rests ht
      · exact h.resting hrest hu
      · cases hnone
    rwa [following_nil, List.append_nil] at hwalk
  | succ left ih =>
    refine (h.visitAll cx r.nodes start s).bind fun _ u hvisits hu hfine => ?_
    have hwu := hw.visitAll hvisits
    have hreachu := Nat.le_trans hreach ((visitAll_onward cx start r.nodes s).of_ok hvisits).size
    cases hnext : u.nextWalk? with
    | none =>
      refine ⟨fun x hx => (nomatch hx), fun _ t ht => ?_⟩
      obtain hrest | ⟨walk, next, -, hsome, -⟩ := endWalk_rests ht
      · exact h.resting hrest hu
      · cases hnext.symm.trans hsome
    | some next =>
      rw [hnext] at hfine
      have hposition : next.snapshot.position = opened.image.cursor := by
        rw [hwu.snapshot hnext]; rfl
      have hreach' : opened.image.cursor ≤ (u.walkAgain next).image.size := by
        rw [size_walkAgain, hposition]
        exact Nat.le_min.mpr ⟨Nat.le_refl _, hreachu⟩
      obtain ⟨hbefore, hend⟩ := ih (hwu.walkAgain hnext) hreach'
        (h.walkAgain hopened hu hposition hreachu) hfine
      refine ⟨hbefore, fun _ t ht => ?_⟩
      obtain hrest | ⟨walk, next', hagain, hsome, ht⟩ := endWalk_rests ht
      · exact h.resting hrest hu
      · cases hnext.symm.trans hsome
        cases hagain
        exact hend _ t ht

theorem Upheld.routines (rs : List Routine) (start : Nat) (s : State) :
    Upholds fine P (routines cx start rs) s (routinesArrivals cx start rs s) := by
  induction rs generalizing start s with
  | nil => exact upholds_pure start s
  | cons r rest ih =>
    have hroutine : Upholds fine P (routine cx start r) s
        (walkArrivals cx start r maxWalks (s.enter start r)) := by
      intro hs hfine
      have hroom : s.Room := Nat.le_trans (Nat.min_le_left _ _) (h.within hs)
      have hentered : P (s.enter start r) := h.resting (s := s) ⟨rfl, rfl, rfl⟩ hs
      exact h.walkRoutine cx hs (walking_enter hroom) (h.within hs) hentered hfine
    exact hroutine.bind fun _ t _ => ih _ t

/-- What a pass upholds holds before each of its arrivals. -/
theorem Upheld.passArrivals (program : Program) {s : State} (hs : P s)
    (hfine : ∀ x ∈ passArrivals cx program s, fine x) :
    ∀ x ∈ passArrivals cx program s, P x.before := by
  have hclosing : ∀ index u, Upholds fine P (pure () : Pass Unit) u
      (program.closing.toList.map fun n => (⟨cx, index, n, u⟩ : Arrival)) := by
    refine fun index u hu _ => ⟨fun x hx => ?_, fun _ t ht => ?_⟩
    · obtain ⟨n, -, rfl⟩ := List.mem_map.mp hx
      exact hu
    · cases ht
      exact hu
  have hpass := (h.visitAll cx program.preamble 0 s).bind fun _ t _ =>
    (h.routines cx program.routines program.preamble.length t).bind fun index u _ =>
      hclosing index u
  exact (hpass hs hfine).1

end Upheld

theorem upheld_clear : Upheld (fun x => x.after.image.size < 2 ^ 32) Clear where
  within hs := hs.within
  arrival hx hs := (hs.visit _ _ _ hx).1
  resting h hs := hs.of_eq h.image h.fixups h.vocabulary
  walkAgain hopened hs hposition hreach :=
    (hs.walkAgain (hposition ▸ hopened.cursor) (hposition ▸ hreach)).1

theorem clear_passArrivals (cx : Context) (program : Program) {s : State} (hs : Clear s)
    (hfit : Small (passArrivals cx program s)) : ∀ x ∈ passArrivals cx program s, Clear x.before :=
  upheld_clear.passArrivals cx program hs hfit

theorem clear_beginPass (s : State) (o : Options) (v : Version) (mode : Mode) :
    Clear (s.beginPass o v mode) := by
  have himage : (s.beginPass o v mode).image = Image.fill {} Story.headerSize 0 := by
    simp only [State.beginPass]
  refine ⟨?_, ?_, ?_, ?_⟩
  · rw [himage, cursor_fill]
  · rw [himage, cursor_fill, size_fill]
  · simp [State.beginPass]
  · simp [State.beginPass]

/-- Whatever bytes the image holds, reading the node leaves those of the header alone. -/
def Arrival.LeavesHeader (x : Arrival) : Prop :=
  ∀ bytes : Array UInt8, bytes.size = x.before.image.size →
    let t := final (visit x.context x.index x.node)
      { x.before with image := { x.before.image with bytes } }
    t.image.size < 2 ^ 32 → ∀ a, a < Story.headerSize → t.image.readByte a = bytes.getD a 0

/-- No node that a pass comes to writes a byte of the header or patches one. -/
theorem arrivals_leave_header (o : Options) (program : Program) (v : Version)
    (mode : Mode) (s : State)
    (hfit : Small (passArrivals (s.nextContext o v mode) program (s.beginPass o v mode))) :
    ∀ x ∈ passArrivals (s.nextContext o v mode) program (s.beginPass o v mode), x.LeavesHeader := by
  intro x hx bytes hsize t ht
  have hbefore := clear_passArrivals _ program (clear_beginPass s o v mode) hfit x hx
  have hclear : Clear { x.before with image := { x.before.image with bytes } } :=
    ⟨hbefore.cursor, hbefore.within.trans_eq hsize.symm, hbefore.fixups, hbefore.block⟩
  exact (hclear.visit x.context x.index x.node ht).2

end ZAssembler.Assembly
