import Mathlib.Algebra.Group.Nat.Defs
import ZAssembler.Assemble
import ZAssembler.Proofs.Change
import ZAssembler.Proofs.Story

/-
  The trace of the assembling pass. A pass reads its nodes in walks: the nodes before the first
  routine are walked once, each routine until its labels stand still. A walk that no other walk
  replaces is settled; what it wrote is what the story holds.

  `finalPass?` runs the assembler up to the pass that makes the story and gives that pass, and
  `exists_finalPass` says that an assembly that succeeds has one.
-/

namespace ZAssembler.Assembly

/-! ## Walks -/

/-- A node that was read: the state in which its work began and the state in which it ended. -/
structure Visit where
  index : Nat
  node : Node
  before : State
  after : State

/-- One reading of the nodes of a routine, or of those before the first. -/
structure Walk where
  visits : List Visit
  /-- The state after the last visit. -/
  finish : State
  /-- The state in which the pass goes on, unless the nodes are walked again. -/
  left : Option State

def Walk.settled (w : Walk) : Bool := w.left.isSome

/-- The state in which the work of a node begins. -/
def State.reach (s : State) (index : Nat) (n : Node) : State :=
  { s with index, location := n.location.known? }

/-- The state in which the first walk of a routine begins. -/
def State.enter (s : State) (start : Nat) (r : Routine) : State :=
  { s with scope := some (.begin r.name start r.body s.snapshot) }

/-- The visits to nodes that are numbered from `index`. -/
def visits (cx : Context) : Nat → List Node → State → List Visit
  | _, [], _ => []
  | index, n :: rest, s =>
    match visit cx index n s with
    | .ok () t => ⟨index, n, s.reach index n, t⟩ :: visits cx (index + 1) rest t
    | .error _ _ => []

/-- A walk that ends in state `finish`, and those that `again` gives if it has not settled. -/
def endedWalks (cx : Context) (visits : List Visit) (finish : State) (again : State → List Walk) :
    List Walk :=
  match finish.scope with
  | none => [⟨visits, finish, some finish⟩]
  | some scope =>
    if !scope.moved then
      match closeRoutine cx scope finish with
      | .ok () left => [⟨visits, finish, some left⟩]
      | .error _ _ => []
    else
      match scope.nextWalk? with
      | some next => ⟨visits, finish, none⟩ :: again (finish.walkAgain next)
      | none => []

/-- The walks of a routine, of which at most `left` follow the first. -/
def routineWalks (cx : Context) (start : Nat) (r : Routine) : (left : Nat) → State → List Walk
  | 0, s =>
    match visitAll cx start (r.head :: r.body) s with
    | .ok () t => endedWalks cx (visits cx start (r.head :: r.body) s) t fun _ => []
    | .error _ _ => []
  | left + 1, s =>
    match visitAll cx start (r.head :: r.body) s with
    | .ok () t =>
      endedWalks cx (visits cx start (r.head :: r.body) s) t (routineWalks cx start r left)
    | .error _ _ => []

/-- The walks of routines of which the first starts at node `start`. -/
def routinesWalks (cx : Context) : Nat → List Routine → State → List Walk
  | _, [], _ => []
  | start, r :: rest, s =>
    match routine cx start r s with
    | .ok () t =>
      routineWalks cx start r maxWalks (s.enter start r) ++
        routinesWalks cx (start + 1 + r.body.length) rest t
    | .error _ _ => []

/-- The walks of a pass. The `.END` node, which does nothing, is left out. -/
def passWalks (cx : Context) (program : Program) (s : State) : List Walk :=
  match visitAll cx 0 program.preamble s with
  | .ok () t =>
    ⟨visits cx 0 program.preamble s, t, some t⟩ ::
      routinesWalks cx program.preamble.length program.routines t
  | .error _ _ => []

/-! ## The pass that makes the story -/

/-- An assembling pass that came to its end. -/
structure FinalPass where
  context : Context
  program : Program
  start : State
  finish : State

def FinalPass.walks (p : FinalPass) : List Walk := passWalks p.context p.program p.start

/-- Every visit, in the order of time. -/
def FinalPass.visits (p : FinalPass) : List Visit := p.walks.flatMap Walk.visits

/-- At no time are so many bytes written that an address wraps at 2^32, or the length of a story in
    whole units. -/
def FinalPass.Fits (p : FinalPass) : Prop :=
  ∀ v ∈ p.visits, v.after.image.size + p.context.version.lengthUnit ≤ 2 ^ 32

instance (p : FinalPass) : Decidable p.Fits :=
  inferInstanceAs (Decidable (∀ v ∈ p.visits, _ ≤ 2 ^ 32))

theorem FinalPass.Fits.size_lt {p : FinalPass} (h : p.Fits) {v : Visit} (hv : v ∈ p.visits) :
    v.after.image.size < 2 ^ 32 := by
  have hfit := h v hv
  have hpos := Story.lengthUnit_pos p.context.version
  omega

/-- The context of the assembling pass that begins in state `s`. -/
def assemblingContext (o : Options) (v : Version) (s : State) : Context :=
  { version := v, mode := .assembling, pass := s.counts.passes, errorLimit := max o.maxErrors 1 }

/-- The assembling pass for version `v`. -/
def assemblingPass? (o : Options) (program : Program) (v : Version) (s : State) :
    Option FinalPass :=
  match measure o program v maxMeasuringPasses s with
  | .error _ _ => none
  | .ok () t =>
    let start := t.beginPass o v .assembling
    let context := assemblingContext o v start
    match pass context program start with
    | .ok () finish => some { context, program, start, finish }
    | .error _ _ => none

/-- The assembling pass for the version that stands. -/
def attemptPass? (o : Options) (program : Program) (left : Nat) (tried : List Version) (v : Version)
    (s : State) : Option FinalPass :=
  match passes o program v s with
  | .ok () _ => assemblingPass? o program v s
  | .error (.failed _) _ => none
  | .error (.restart wanted) t =>
    match left, decide (wanted ∈ tried) with
    | left + 1, false => attemptPass? o program left (wanted :: tried) wanted (t.restart wanted)
    | _, _ => none

/-- The pass that makes the story of a program. -/
def finalPass? (o : Options) (nodes : List Node) : Option FinalPass :=
  attemptPass? o (.ofNodes nodes) (Version.all.length - 1) [o.version] o.version
    (.initial o.version)

/-- What is known of the pass that made the story of a program. -/
structure FinalPass.Makes (p : FinalPass) (o : Options) (nodes : List Node)
    (story : AssembledStory) : Prop where
  program : p.program = .ofNodes nodes
  mode : p.context.mode = .assembling
  begins : ∃ s : State, p.start = s.beginPass o p.context.version .assembling
  ends : pass p.context p.program p.start = .ok () p.finish
  stands : attempt o (.ofNodes nodes) (Version.all.length - 1) [o.version] o.version
    (.initial o.version) = .ok p.context.version p.finish
  reports : ∃ s, finishStory o p.context.version p.finish = .ok story s ∧
    (assemble o nodes).diagnostics = s.diagnostics.toList ∧
    (assemble o nodes).debug = s.handed.toList

theorem FinalPass.Makes.finishes {p : FinalPass} {o : Options} {nodes : List Node}
    {story : AssembledStory} (h : p.Makes o nodes story) :
    ∃ s, finishStory o p.context.version p.finish = .ok story s := by
  obtain ⟨s, hs, -⟩ := h.reports
  exact ⟨s, hs⟩

/-- The pass is an assembling pass of a program for version `v` that ended in state `t`. -/
structure FinalPass.EndsIn (p : FinalPass) (o : Options) (program : Program) (v : Version)
    (t : State) : Prop where
  program : p.program = program
  version : p.context.version = v
  mode : p.context.mode = .assembling
  begins : ∃ s : State, p.start = s.beginPass o v .assembling
  finish : p.finish = t
  ends : pass p.context p.program p.start = .ok () p.finish

theorem exists_assemblingPass {o : Options} {program : Program} {v : Version} {s u : State}
    (h : passes o program v s = .ok () u) :
    ∃ p, assemblingPass? o program v s = some p ∧ p.EndsIn o program v u := by
  obtain ⟨⟨⟩, t, hmeasure, hpass⟩ := bind_ok h
  have hends : pass (assemblingContext o v (t.beginPass o v .assembling)) program
      (t.beginPass o v .assembling) = .ok () u := hpass
  refine ⟨⟨_, program, t.beginPass o v .assembling, u⟩, ?_, rfl, rfl, rfl, ⟨t, rfl⟩, rfl,
    hends⟩
  unfold assemblingPass?
  rw [hmeasure]
  dsimp only
  rw [hends]
  rfl

theorem exists_attemptPass {o : Options} {program : Program} {left : Nat} {tried : List Version}
    {v w : Version} {s u : State} (h : attempt o program left tried v s = .ok w u) :
    ∃ p, attemptPass? o program left tried v s = some p ∧ p.EndsIn o program w u := by
  induction left generalizing tried v s with
  | zero =>
    unfold attempt at h
    unfold attemptPass?
    cases hp : passes o program v s with
    | ok a t =>
      rw [hp] at h
      cases h
      exact exists_assemblingPass hp
    | error stop t =>
      rw [hp] at h
      cases stop <;> cases h
  | succ left ih =>
    unfold attempt at h
    unfold attemptPass?
    cases hp : passes o program v s with
    | ok a t =>
      rw [hp] at h
      cases h
      exact exists_assemblingPass hp
    | error stop t =>
      rw [hp] at h
      cases stop with
      | failed problem => cases h
      | restart wanted =>
        dsimp only at h ⊢
        cases ht : decide (wanted ∈ tried) with
        | true => rw [ht] at h; cases h
        | false =>
          rw [ht] at h
          exact ih h

/-- An assembly that succeeds has a final pass, and the story is made of what that pass left. -/
theorem exists_finalPass {o : Options} {nodes : List Node} {story : AssembledStory}
    (h : (assemble o nodes).result = .ok story) :
    ∃ p, finalPass? o nodes = some p ∧ p.Makes o nodes story := by
  unfold assemble at h
  cases hr : run o (.ofNodes nodes) (.initial o.version) with
  | error problem s => simp [hr] at h
  | ok made s =>
    simp only [hr, Except.ok.injEq] at h
    subst h
    obtain ⟨v, t, hattempt, hfinish⟩ := bind_ok hr
    obtain ⟨p, hp, hprogram, hv, hmode, hbegins, ht, hends⟩ := exists_attemptPass hattempt
    subst hv ht
    refine ⟨p, hp, hprogram, hmode, hbegins, hends, hattempt, s, hfinish, ?_, ?_⟩
    · unfold assemble
      rw [hr]
    · unfold assemble
      rw [hr]

/-- What an evaluation shows of the final pass of a program that assembles. -/
theorem exists_run (o : Options) (nodes : List Node) (b : FinalPass → Bool)
    (h : (match (assemble o nodes).result, finalPass? o nodes with
      | .ok _, some p => b p
      | _, _ => false) = true) :
    ∃ story p, (assemble o nodes).result = .ok story ∧
    finalPass? o nodes = some p ∧ b p = true := by
  split at h
  · next story p hresult hp => exact ⟨story, p, hresult, hp, h⟩
  · cases h

end ZAssembler.Assembly
