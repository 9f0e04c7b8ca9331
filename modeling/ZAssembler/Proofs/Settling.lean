import ZAssembler.Proofs.Budgets
import ZAssembler.Proofs.Rereading

/-
  How a forward branch settles. A walk encodes the branch to where the walk before found the label,
  and the first walk encodes it to the routine's start. What it writes for the branch moves the
  label by one or two bytes, or by the whole instruction if the start is out of reach and the
  instruction is given up. From there on the walks follow by arithmetic (`Spans.Settles`): they are
  at most three if the start is within reach. If it is not, there may be four, or the second walk
  guesses the label just where the branch field should stand, gives the branch up again and so finds
  the label where it guessed it.
-/

namespace ZAssembler.Assembly

open Bytecode Machine

/-! ## A routine with one forward branch -/

/-- A routine with one local label and one branch to it, ahead of it. All its other nodes have a
    fixed size. -/
structure ForwardBranch where
  head : Node
  name : String
  decls : List LocalDecl
  before : List Node
  branching : Node
  instruction : Instruction
  branch : Branch
  between : List Node
  labelled : Node
  label : String
  after : List Node
  head_kind : head.kind = .directive (.funct name decls)
  branching_kind : branching.kind = .instruction instruction
  branches : instruction.branch = some branch
  target : branch.target = .label label
  plain : plainOperands (some label) instruction = true
  labelled_kind : labelled.kind = .localLabel label
  fixed : ∀ n ∈ before ++ between ++ after, fixedSize (some label) n = true

namespace ForwardBranch

def routine (f : ForwardBranch) : Routine :=
  { head := f.head, name := f.name
    body := f.before ++ f.branching :: (f.between ++ f.labelled :: f.after) }

/-- The branching node with a return in the place of its branch. -/
def returning (f : ForwardBranch) : Node :=
  { f.branching with kind := .instruction f.instruction.returning }

end ForwardBranch

/-- Where the parts of such a routine lie when it returns in the place of its branch. -/
structure Spans where
  /-- The first byte of the routine. -/
  start : Nat
  /-- The branching instruction. -/
  address : Nat
  /-- Its branch field. -/
  field : Nat
  /-- The bytes between the instruction and the label. -/
  gap : Nat
  deriving DecidableEq, Repr

/-- The state in which a computation ends, if it succeeds. -/
def ended? {ε : Type} (m : EStateM ε State Unit) (s : State) : Option State :=
  match m s with
  | .ok () t => some t
  | .error _ _ => none

/-- Walks the routine with a return in the place of its branch. It has spans if that adds no error
    and writes no more than 2^31 - 1 bytes. -/
def ForwardBranch.spans? (f : ForwardBranch) (cx : Context) (s : State) : Option Spans := do
  let scope ← s.scope
  let u ← ended? (visitAll cx scope.start (f.head :: f.before)) s
  let v ← ended? (visit cx (scope.start + 1 + f.before.length) f.returning) u
  let w ← ended? (visitAll cx (scope.start + 1 + f.before.length + 1) f.between) v
  let t ← ended? (visitAll cx (scope.start + 1 + f.before.length + 1 + f.between.length)
    (f.labelled :: f.after)) w
  if errorCount t.diagnostics.toList = errorCount s.diagnostics.toList ∧ t.image.size < 2 ^ 31 then
    some ⟨s.padded.image.cursor, u.image.cursor, v.image.cursor - 1,
      w.image.cursor - v.image.cursor⟩
  else none

/-- The branch is encoded in the walk that begins in state `s`. -/
def ForwardBranch.encodes (f : ForwardBranch) (cx : Context) (s : State) : Bool :=
  Option.isSome do
    let scope ← s.scope
    let u ← ended? (visitAll cx scope.start (f.head :: f.before)) s
    ended? (node cx f.branching) (u.reach (scope.start + 1 + f.before.length) f.branching)

/-! ## One walk -/

/-- The length of a branch field that leads to `target`; none if there is no such field. -/
def fieldLength (field target : Nat) : Option Nat :=
  if field < target ∧ target ≤ field + 62 then some 1
  else if target + 8192 < field ∨ field + 8191 < target ∨ target = field then none
  else some 2

theorem branchBytes_length (onTrue : Bool) (field target : Nat)
    (hback : field < target + 2147483648) (hahead : target + 2 < field + 2147483648) :
    (∀ length, fieldLength field target = some length →
      ∃ bytes long, branchBytes ⟨onTrue, .address target⟩ field = .ok (bytes, long) ∧
        bytes.length = length) ∧
    (fieldLength field target = none →
      ∃ error, branchBytes ⟨onTrue, .address target⟩ field = .error error) := by
  have hshort : branchOffset target (field + 1) = (target : Int) - field + 1 := by
    unfold branchOffset
    rw [wrap32_of_small (by omega) (by omega)]
    omega
  have hlong : branchOffset target (field + 2) = (target : Int) - field := by
    unfold branchOffset
    rw [wrap32_of_small (by omega) (by omega)]
    omega
  unfold fieldLength branchBytes
  dsimp only
  rw [hshort, hlong]
  by_cases hone : 2 ≤ (target : Int) - field + 1 ∧ (target : Int) - field + 1 ≤ 63
  · rw [if_pos hone, if_pos (show field < target ∧ target ≤ field + 62 by omega)]
    refine ⟨fun length hlength => ?_, fun hnone => by cases hnone⟩
    cases hlength
    exact ⟨_, _, rfl, rfl⟩
  rw [if_neg hone, if_neg (show ¬ (field < target ∧ target ≤ field + 62) by omega)]
  by_cases hfar : (target : Int) - field < -8192 ∨ 8191 < (target : Int) - field
  · rw [if_pos hfar, if_pos (show target + 8192 < field ∨ field + 8191 < target ∨
      target = field by omega)]
    exact ⟨fun length hlength => (by cases hlength), fun _ => ⟨_, rfl⟩⟩
  rw [if_neg hfar]
  by_cases hinside : (target : Int) - field = 0 ∨ (target : Int) - field = 1
  · rw [if_pos hinside, if_pos (show target + 8192 < field ∨ field + 8191 < target ∨
      target = field by omega)]
    exact ⟨fun length hlength => (by cases hlength), fun _ => ⟨_, rfl⟩⟩
  · rw [if_neg hinside,
      if_neg (show ¬ (target + 8192 < field ∨ field + 8191 < target ∨ target = field) by omega)]
    refine ⟨fun length hlength => ?_, fun hnone => by cases hnone⟩
    cases hlength
    exact ⟨_, _, rfl, rfl⟩

theorem fieldLength_le {field target length : Nat} (h : fieldLength field target = some length) :
    length ≤ 2 := by
  unfold fieldLength at h
  split at h
  · cases h
    decide
  · split at h
    · cases h
    · cases h
      decide

/-- Where a walk finds the label that guesses it at `target`. -/
def Spans.found (sp : Spans) (target : Nat) : Nat :=
  sp.address + sp.gap + ((fieldLength sp.field target).map (sp.field - sp.address + ·)).getD 0

theorem visitAll_append {cx : Context} {index : Nat} {xs : List Node} (ys : List Node) {s t : State}
    (h : visitAll cx index xs s = .ok () t) :
    visitAll cx index (xs ++ ys) s = visitAll cx (index + xs.length) ys t := by
  induction xs generalizing index s with
  | nil =>
    cases h
    rfl
  | cons n rest ih =>
    obtain ⟨⟨⟩, u, hn, hrest⟩ := bind_ok h
    have hlength : index + (n :: rest).length = index + 1 + rest.length := by
      rw [List.length_cons]
      omega
    rw [hlength, ← ih hrest]
    exact bind_of_ok hn

theorem ended?_eq_some {ε : Type} {m : EStateM ε State Unit} {s t : State} :
    ended? m s = some t ↔ m s = .ok () t := by
  unfold ended?
  cases h : m s with
  | ok a u => simp
  | error e u => simp

theorem ended?_of_error {ε : Type} {m : EStateM ε State Unit} {s t : State} {e : ε}
    (h : m s = .error e t) : ended? m s = none := by
  unfold ended?
  rw [h]

/-- The cursor after bytes that others follow, in an image that stays small. -/
theorem cursor_of_stored {im : Image} {bytes more : List UInt8}
    (hsize : (im.store (bytes ++ more)).size < 2 ^ 32) (hcursor : im.cursor ≤ im.size) :
    (im.store bytes).cursor = im.cursor + bytes.length := by
  rw [Image.store_append] at hsize
  exact (Image.cursor_store_le im bytes (Nat.lt_of_le_of_lt (Image.size_le_store _ more) hsize)
    hcursor).1

/-- The walk that returns in the place of the branch, state by state. -/
structure Sampled (f : ForwardBranch) (cx : Context) (start : Nat) (sp : Spans)
    (s h u v w x t : State) : Prop where
  head : visit cx start f.head s = .ok () h
  before : visitAll cx (start + 1) f.before h = .ok () u
  branching : visit cx (start + 1 + f.before.length) f.returning u = .ok () v
  between : visitAll cx (start + 1 + f.before.length + 1) f.between v = .ok () w
  labelled : visit cx (start + 1 + f.before.length + 1 + f.between.length) f.labelled w = .ok () x
  after : visitAll cx (start + 1 + f.before.length + 1 + f.between.length + 1) f.after x = .ok () t
  errors : errorCount t.diagnostics.toList = errorCount s.diagnostics.toList
  size : t.image.size < 2 ^ 31
  spans : sp = ⟨s.padded.image.cursor, u.image.cursor, v.image.cursor - 1,
    w.image.cursor - v.image.cursor⟩

theorem spans?_eq_some_iff {f : ForwardBranch} {cx : Context} {sp : Spans} {s : State}
    {scope : RoutineScope} (hscope : s.scope = some scope) :
    f.spans? cx s = some sp ↔ ∃ h u v w x t, Sampled f cx scope.start sp s h u v w x t := by
  unfold ForwardBranch.spans?
  rw [hscope]
  simp only [Option.bind_eq_bind, Option.bind_some, Option.bind_eq_some_iff, ended?_eq_some]
  constructor
  · rintro ⟨u, hu, v, hv, w, hw, t, ht, hsp⟩
    obtain ⟨⟨⟩, h, hhead, hbefore⟩ := bind_ok hu
    obtain ⟨⟨⟩, x, hlabelled, hafter⟩ := bind_ok ht
    split at hsp
    · next hclean =>
      exact ⟨h, u, v, w, x, t, hhead, hbefore, hv, hw, hlabelled, hafter, hclean.1, hclean.2,
        (Option.some.inj hsp).symm⟩
    · cases hsp
  · rintro ⟨h, u, v, w, x, t, hsample⟩
    refine ⟨u, (bind_of_ok hsample.head).trans hsample.before, v, hsample.branching, w,
      hsample.between, t, (bind_of_ok hsample.labelled).trans hsample.after, ?_⟩
    rw [if_pos ⟨hsample.errors, hsample.size⟩, hsample.spans]

/-- A node that is given up leaves an error, if there may be another. -/
theorem visit_of_skip {cx : Context} {index : Nat} {n : Node} {s t : State} {problem : Problem}
    (h : node cx n (s.reach index n) = .error (.skip problem) t)
    (hlimit : errorCount t.diagnostics.toList + 1 < cx.errorLimit) :
    visit cx index n s = .ok () (t.report .error problem) := by
  show runStep cx (node cx n) (s.reach index n) = _
  unfold runStep
  rw [h]
  dsimp only
  unfold recover
  rw [modify_bind, get_bind]
  have hfew : (t.report .error problem).tooManyErrors? cx = none := by
    unfold State.tooManyErrors?
    dsimp only
    rw [errorCount_report, if_neg (by omega)]
  rw [hfew]
  rfl

/-- If there may not, the pass is given up. -/
theorem visit_of_last_skip {cx : Context} {index : Nat} {n : Node} {s t : State} {problem : Problem}
    (h : node cx n (s.reach index n) = .error (.skip problem) t)
    (hlimit : cx.errorLimit ≤ errorCount t.diagnostics.toList + 1) :
    ∃ stop u, visit cx index n s = .error stop u := by
  show ∃ stop u, runStep cx (node cx n) (s.reach index n) = .error stop u
  unfold runStep
  rw [h]
  dsimp only
  unfold recover
  rw [modify_bind, get_bind]
  have hmany : (t.report .error problem).tooManyErrors? cx =
      some (.tooManyErrors (errorCount t.diagnostics.toList + 1)) := by
    unfold State.tooManyErrors?
    dsimp only
    rw [errorCount_report, if_pos hlimit]
  rw [hmany]
  exact ⟨_, _, rfl⟩

theorem Headed.reported {cx : Context} {name label : String} {decls : List LocalDecl}
    {scope : RoutineScope} {bytes : List UInt8} {s t : State}
    (h : Headed cx name decls label scope bytes s t) (problem : Problem) :
    Headed cx name decls label scope bytes s (t.report .error problem) :=
  ⟨h.image, h.locals, h.encoder, h.scope, h.others, h.named⟩

/-- A branch at its guess: the instruction is written with a field that leads there, or there is no
    such field and it is given up. -/
theorem branch_visit {f : ForwardBranch} {cx : Context} {index : Nat} {scope : RoutineScope}
    {bytes : List UInt8} {u v y z : State} {target : Nat} (hagree : AgreeBut cx (some f.label) u y)
    (hy : Headed cx f.name f.decls f.label scope bytes z y)
    (hguess : scope.guess f.label (Int32.ofNat z.padded.image.cursor) = Int32.ofNat target)
    (htarget : target < 4294967296) (hv : visit cx index f.returning u = .ok () v)
    (herrors : errorCount v.diagnostics.toList ≤ errorCount u.diagnostics.toList) :
    ∃ front last, front.length ≤ 20 ∧ Wrote (front ++ [last]) u v ∧
      ∀ field, field = y.image.cursor + front.length → field < target + 2147483648 →
        target + 2 < field + 2147483648 →
        (∀ length, fieldLength field target = some length →
          ∃ more y', node cx f.branching (y.reach index f.branching) = .ok () y' ∧
            more.length = front.length + length ∧
            Headed cx f.name f.decls f.label scope (bytes ++ more) z y') ∧
        (fieldLength field target = none →
          ∃ problem y', node cx f.branching (y.reach index f.branching) =
          .error (.skip problem) y' ∧
            errorCount y'.diagnostics.toList = errorCount y.diagnostics.toList ∧
            Headed cx f.name f.decls f.label scope bytes z y') := by
  have hnode : ∀ r : State, node cx f.branching r = Assembly.instruction cx f.instruction r :=
    congrFun (node_instruction f.branching_kind)
  have hfirst :
      Assembly.instruction cx f.instruction.returning (u.reach index f.returning) = .ok () v :=
    node_of_visit hv herrors
  obtain ⟨deferred, hscope⟩ := hy.scope
  have hx : y.locals.lookup f.label = some ⟨f.label, .label, Int32.ofNat target, true, none⟩ := by
    rw [hy.locals, hguess, SymbolTable.predeclare, SymbolTable.lookup_put, if_pos rfl]
  have hvalue : (Int32.ofNat target).toUInt32.toNat = target := by
    rw [Int32.toUInt32_ofNat', UInt32.toNat_ofNat']
    omega
  have hreached := hagree.wrote (wrote_reach index f.returning u) (wrote_reach index f.branching y)
  obtain ⟨front, last, hfront, hwrote, hok, hfail⟩ :=
    branching_cases hreached f.plain f.branches f.target
    (by rw [show (y.reach index f.branching).scope = _ from hscope]; rfl) hx rfl hfirst
  dsimp only at hok hfail
  rw [hvalue, show (y.reach index f.branching).image.cursor = y.image.cursor from rfl] at hok hfail
  refine ⟨front, last, hfront, (wrote_reach index f.returning u).trans hwrote, ?_⟩
  rintro field rfl hback hahead
  obtain ⟨hlength, hnone⟩ :=
    branchBytes_length f.branch.onTrue (y.image.cursor + front.length) target hback hahead
  refine ⟨fun length hl => ?_, fun hn => ?_⟩
  · obtain ⟨bytes', long, hfield, hfieldLength⟩ := hlength length hl
    obtain ⟨y', hy', hwrote'⟩ := hok bytes' long hfield
    refine ⟨front ++ bytes', y', (hnode _).trans hy', ?_, ?_⟩
    · rw [List.length_append, hfieldLength]
    · exact hy.wrote ((wrote_reach index f.branching y).trans hwrote')
  · obtain ⟨error, herror⟩ := hnone hn
    obtain ⟨y', hy', hwrote'⟩ := hfail error herror
    refine ⟨_, y', (hnode _).trans hy', hwrote'.errors, ?_⟩
    have hheaded := hy.wrote ((wrote_reach index f.branching y).trans hwrote')
    rwa [List.append_nil, List.append_nil] at hheaded

/-- What holds of all spans. -/
structure Spans.Plausible (sp : Spans) : Prop where
  start : sp.start < sp.address
  field : sp.address ≤ sp.field
  short : sp.field ≤ sp.address + 20
  small : sp.field + 1 + sp.gap < 2147483648

/-- What is known of a walk that guesses the label at `target`: it begins as the sample does. -/
structure Round (f : ForwardBranch) (cx : Context) (start : Nat) (s : State) (scope : RoutineScope)
    (target : Nat) (z : State) : Prop where
  entered : z.scope = some scope
  begun : scope.start = start
  still : scope.moved = false
  labels : scope.labels = [f.label]
  alike : BeginAlike f.name s z
  free : ¬ Taken z.globals f.name ⟨cx.pass, start⟩
  errors : errorCount z.diagnostics.toList = errorCount s.diagnostics.toList
  guess : scope.guess f.label (Int32.ofNat s.padded.image.cursor) = Int32.ofNat target

/-- What a walk comes to that guesses the label at `target`. -/
structure Finds (f : ForwardBranch) (cx : Context) (start : Nat) (sp : Spans) (scope : RoutineScope)
    (target : Nat) (z y : State) : Prop where
  visits : visitAll cx start f.routine.nodes z = .ok () y
  scope : ∃ deferred, y.scope = some (if target = sp.found target then { scope with deferred }
    else RoutineScope.recordMove { scope with deferred } f.label (Int32.ofNat (sp.found target)))
  others : ∀ other, other ≠ f.name → y.globals.defined other = z.globals.defined other
  named : ∃ x, y.globals.defined f.name = some x ∧ x.site = some ⟨cx.pass, start⟩

/-- The end of a walk that has dealt with the branch in state `y`: the label is found in state
    `y₁`. -/
structure Finish (f : ForwardBranch) (cx : Context) (place : Nat) (scope : RoutineScope)
    (bytes tail : List UInt8) (z y y₁ y₂ y₃ : State) : Prop where
  between : visitAll cx place f.between y = .ok () y₁
  labelled : visit cx (place + f.between.length) f.labelled y₁ = .ok () y₂
  after : visitAll cx (place + f.between.length + 1) f.after y₂ = .ok () y₃
  headed : Headed cx f.name f.decls f.label scope bytes z y₁
  wrote : Wrote tail y₂ y₃
  image : y₂.image = y₁.image
  globals : y₂.globals = y₁.globals
  errors : errorCount y₂.diagnostics.toList = errorCount y.diagnostics.toList
  found : ∃ deferred, y₂.scope = some
    (if scope.guess f.label (Int32.ofNat z.padded.image.cursor) = Int32.ofNat y₁.image.cursor then
      { scope with deferred }
    else RoutineScope.recordMove { scope with deferred } f.label (Int32.ofNat y₁.image.cursor))

theorem fixed_before (f : ForwardBranch) : ∀ n ∈ f.before, fixedSize (some f.label) n = true :=
  fun n hn => f.fixed n (List.mem_append_left _ (List.mem_append_left _ hn))

section Walk

variable {f : ForwardBranch} {cx : Context} {start : Nat} {sp : Spans} {s h u v w x t : State}
  (hsample : Sampled f cx start sp s h u v w x t)

include hsample

/-- No part of the sample adds an error. -/
theorem Sampled.clean :
    errorCount h.diagnostics.toList = errorCount s.diagnostics.toList ∧
    errorCount u.diagnostics.toList = errorCount s.diagnostics.toList ∧
    errorCount v.diagnostics.toList = errorCount s.diagnostics.toList ∧
    errorCount w.diagnostics.toList = errorCount s.diagnostics.toList ∧
    errorCount x.diagnostics.toList = errorCount s.diagnostics.toList := by
  have hh := errorCount_mono ((visit_onward cx _ _ s).of_ok hsample.head).grows.diagnostics
  have hu := errorCount_mono ((visitAll_onward cx _ _ h).of_ok hsample.before).grows.diagnostics
  have hv := errorCount_mono ((visit_onward cx _ _ u).of_ok hsample.branching).grows.diagnostics
  have hw := errorCount_mono ((visitAll_onward cx _ _ v).of_ok hsample.between).grows.diagnostics
  have hx := errorCount_mono ((visit_onward cx _ _ w).of_ok hsample.labelled).grows.diagnostics
  have ht := errorCount_mono ((visitAll_onward cx _ _ x).of_ok hsample.after).grows.diagnostics
  have herrors := hsample.errors
  omega

/-- The image grows in the sample, and stays small. -/
theorem Sampled.sizes : s.image.size ≤ u.image.size ∧ u.image.size ≤ w.image.size ∧
    w.image.size < 2 ^ 31 := by
  have hh := ((visit_onward cx _ _ s).of_ok hsample.head).size
  have hu := ((visitAll_onward cx _ _ h).of_ok hsample.before).size
  have hv := ((visit_onward cx _ _ u).of_ok hsample.branching).size
  have hw := ((visitAll_onward cx _ _ v).of_ok hsample.between).size
  have hx := ((visit_onward cx _ _ w).of_ok hsample.labelled).size
  have ht := ((visitAll_onward cx _ _ x).of_ok hsample.after).size
  have hsize := hsample.size
  omega

variable {a b : RoutineScope} (ha : s.scope = some a) (hla : a.labels = [f.label])
    {target : Nat} {z : State}
  (hround : Round f cx start s b target z)

include ha hla hround

/-- Up to the branch, the walk writes what the sample writes. -/
theorem Sampled.reaches_branch : ∃ rest y,
    visitAll cx start (f.head :: f.before) z = .ok () y ∧
    errorCount y.diagnostics.toList = errorCount s.diagnostics.toList ∧
    Headed cx f.name f.decls f.label a (s.paddingBytes ++ (UInt8.ofNat f.decls.length :: rest))
      (s.reach start f.head) u ∧
    Headed cx f.name f.decls f.label b (s.paddingBytes ++ (UInt8.ofNat f.decls.length :: rest))
      (z.reach start f.head) y := by
  obtain ⟨hh, hu, -, -, -⟩ := hsample.clean
  have hnode : ∀ r : State, node cx f.head r = routineHead cx f.name f.decls r :=
    congrFun (node_directive f.head_kind)
  have halike : BeginAlike f.name (s.reach start f.head) (z.reach start f.head) :=
    ⟨hround.alike.cursor, hround.alike.packing, hround.alike.encoder, hround.alike.globals⟩
  have hhead := node_of_visit hsample.head (by omega)
  rw [hnode] at hhead
  obtain ⟨more, y₁, hy₁, herrors, hs₁, hz₁⟩ := routineHead_parallel (by exact ha) hla
    (by exact hround.entered) hround.labels halike hround.free hhead (by exact Nat.le_of_eq hh)
  obtain ⟨first, y, hy, hs₂, hz₂⟩ := visitAll_parallel (fixed_before f) (hs₁.agree hz₁ halike)
    hsample.before (by omega) (start + 1)
  refine ⟨more ++ first, y, ?_, ?_, ?_, ?_⟩
  · exact (bind_of_ok (visit_of_ok ((hnode _).trans hy₁))).trans hy
  · rw [hz₂.errors, herrors]
    exact hround.errors
  · have hheaded := hs₁.wrote hs₂
    rwa [List.append_assoc, List.cons_append] at hheaded
  · have hheaded := hz₁.wrote hz₂
    rwa [List.append_assoc, List.cons_append] at hheaded

omit ha hla hround in
/-- The label of the sample is where its walk has come. -/
theorem Sampled.label_image {bytes : List UInt8} {s₀ : State}
    (hw : Headed cx f.name f.decls f.label a bytes s₀ w) :
    x.image = w.image ∧ AgreeBut cx (some f.label) w x := by
  obtain ⟨deferred, hscope⟩ := hw.scope
  obtain ⟨locals, log, hx', hothers⟩ := visit_localLabel f.labelled_kind hscope hw.locals
  cases hx'.symm.trans hsample.labelled
  refine ⟨rfl, fun other hother => ?_, rfl⟩
  exact meaning_of_tables (hothers other fun heq => hother (congrArg some heq)) rfl

omit ha hla hround in
/-- The spans are the lengths of what the sample wrote. -/
theorem Sampled.lengths (hcursor : s.image.cursor ≤ s.image.size)
    {bytes rest front mid : List UInt8} {count last : UInt8}
    (hbytes : bytes = s.paddingBytes ++ (count :: rest))
    (hu : Headed cx f.name f.decls f.label a bytes (s.reach start f.head) u)
    (hv : Wrote (front ++ [last]) u v) (hw : Wrote mid v w) :
    sp.start < sp.address ∧ sp.address = s.image.cursor + bytes.length ∧
      sp.field = sp.address + front.length ∧ sp.gap = mid.length ∧
      sp.field + 1 + sp.gap < 2147483648 := by
  have hheaded := (hu.wrote hv).wrote hw
  have himage : w.image = s.image.store (bytes ++ (front ++ [last]) ++ mid) := hheaded.image
  obtain ⟨-, -, hsmall⟩ := hsample.sizes
  have hsize : (s.image.store (bytes ++ (front ++ [last]) ++ mid)).size < 2 ^ 32 :=
    himage ▸ Nat.lt_trans hsmall (by decide)
  obtain ⟨hwcursor, hwithin⟩ := Image.cursor_store_le s.image _ hsize hcursor
  rw [← himage] at hwcursor hwithin
  have hvcursor : v.image.cursor = s.image.cursor + (bytes ++ (front ++ [last])).length :=
    (congrArg Image.cursor (hu.wrote hv).image).trans (cursor_of_stored hsize hcursor)
  rw [List.append_assoc] at hsize
  have hucursor : u.image.cursor = s.image.cursor + bytes.length :=
    (congrArg Image.cursor hu.image).trans (cursor_of_stored hsize hcursor)
  rw [hbytes, List.append_assoc] at hsize
  have hstart : s.padded.image.cursor = s.image.cursor + s.paddingBytes.length :=
    cursor_of_stored hsize hcursor
  have hlength : bytes.length = s.paddingBytes.length + (rest.length + 1) := by
    rw [hbytes, List.length_append, List.length_cons]
  rw [hsample.spans]
  simp only [List.length_append, List.length_singleton] at hwcursor hvcursor
  dsimp only
  omega

omit ha hla hround in
/-- After the branch, the walk writes what the sample writes, and finds the label there. -/
theorem Sampled.finishes {bytes bytes' : List UInt8} {s₀ z₀ y : State}
    (hv : Headed cx f.name f.decls f.label a bytes s₀ v)
    (hy : Headed cx f.name f.decls f.label b bytes' z₀ y) (halike : BeginAlike f.name s₀ z₀)
    (place : Nat) :
    ∃ mid tail y₁ y₂ y₃, Wrote mid v w ∧ Wrote tail x t ∧
      Finish f cx place b (bytes' ++ mid) tail z₀ y y₁ y₂ y₃ := by
  obtain ⟨-, -, hcv, hcw, hcx⟩ := hsample.clean
  have hct := hsample.errors
  obtain ⟨mid, y₁, hy₁, hw, hwrote⟩ := visitAll_parallel
    (fun n hn => f.fixed n (List.mem_append_left _ (List.mem_append_right _ hn)))
    (hv.agree hy halike)
    hsample.between (by omega) place
  have hheaded := hy.wrote hwrote
  obtain ⟨deferred, hscope⟩ := hheaded.scope
  obtain ⟨locals, log, hy₂, hothers⟩ := visit_localLabel f.labelled_kind hscope hheaded.locals
  generalize hfound : ({ y₁.reach _ f.labelled with locals, log, scope := _ } : State) = y₂ at hy₂
  have hagree : AgreeBut cx (some f.label) x y₂ := by
    obtain ⟨-, hwx⟩ := hsample.label_image (hv.wrote hw)
    have hwy := (hv.wrote hw).agree hheaded halike
    subst hfound
    refine ⟨fun other hother => ?_, ?_⟩
    · rw [hwx.meaning other hother, ← hwy.meaning other hother]
      exact meaning_of_tables (hothers other fun heq => hother (congrArg some heq)) rfl
    · rw [hwx.encoder, ← hwy.encoder]
      rfl
  obtain ⟨tail, y₃, hy₃, htail, hlast⟩ := visitAll_parallel
    (fun n hn => f.fixed n (List.mem_append_right _ hn)) hagree hsample.after (by omega)
      (place + f.between.length + 1)
  refine ⟨mid, tail, y₁, y₂, y₃, hw, htail, ?_⟩
  exact {
    between := hy₁
    labelled := hy₂
    after := hy₃
    headed := hheaded
    wrote := hlast
    image := by rw [← hfound]; rfl
    globals := by rw [← hfound]; rfl
    errors := by rw [← hfound]; exact hwrote.errors
    found := ⟨deferred, by rw [← hfound]⟩ }

omit ha hla hround in
theorem Sampled.gap_wrote : ∃ mid, Wrote mid v w := by
  obtain ⟨-, -, hcv, hcw, -⟩ := hsample.clean
  obtain ⟨mid, -, -, hw, -⟩ := visitAll_parallel
    (fun n hn => f.fixed n (List.mem_append_left _ (List.mem_append_right _ hn)))
    (⟨fun _ _ => rfl, rfl⟩ : AgreeBut cx (some f.label) v v) hsample.between (by omega) 0
  exact ⟨mid, hw⟩

omit ha hla in
/-- Once the branch is dealt with, the label is found as far on as the bytes written for it. -/
theorem Sampled.goes_on (hcursor : s.image.cursor ≤ s.image.size) (htarget : target < 4294967296)
    {bytes rest front more : List UInt8} {count last : UInt8} {y y' : State}
    (hbytes : bytes = s.paddingBytes ++ (count :: rest))
    (hu : Headed cx f.name f.decls f.label a bytes (s.reach start f.head) u)
    (hv : Wrote (front ++ [last]) u v) (hy : visitAll cx start (f.head :: f.before) z = .ok () y)
    (hbranch : visit cx (start + 1 + f.before.length) f.branching y = .ok () y')
    (hz : Headed cx f.name f.decls f.label b (bytes ++ more) (z.reach start f.head) y')
    (hmore : sp.found target = sp.address + sp.gap + more.length)
    (hfew : more.length ≤ front.length + 2) : ∃ y₁, Finds f cx start sp b target z y₁ := by
  have halike : BeginAlike f.name (s.reach start f.head) (z.reach start f.head) :=
    ⟨hround.alike.cursor, hround.alike.packing, hround.alike.encoder, hround.alike.globals⟩
  obtain ⟨mid, tail, y₁, y₂, y₃, hmid, -, hend⟩ :=
    hsample.finishes (hu.wrote hv) hz halike (start + 1 + f.before.length + 1)
  obtain ⟨deferred, hscope⟩ := hend.found
  obtain ⟨-, haddress, hfield, hgap, hsmall⟩ := hsample.lengths hcursor hbytes hu hv hmid
  have hfound : y₁.image.cursor = sp.found target := by
    have hz₀ : (z.reach start f.head).image.cursor = s.image.cursor := hround.alike.cursor
    have hlength : (bytes ++ more ++ mid).length = bytes.length + more.length + mid.length := by
      rw [List.length_append, List.length_append]
    rw [hend.headed.image, Image.cursor_store _ _ (by omega), hz₀, hlength]
    omega
  have hglobals : ∀ name, y₃.globals.defined name = y₁.globals.defined name := by
    intro name
    rw [hend.wrote.globals, hend.globals]
  obtain ⟨x', hx', -, -, hsite⟩ := hend.headed.named
  refine ⟨y₃, ?_, ⟨deferred, ?_⟩, fun other hother => ?_, x', (hglobals _).trans hx', hsite⟩
  · have hnodes : f.routine.nodes =
        (f.head :: f.before) ++ (f.branching :: (f.between ++ f.labelled :: f.after)) := rfl
    have hindex : start + (f.head :: f.before).length = start + 1 + f.before.length := by
      rw [List.length_cons]
      omega
    rw [hnodes, visitAll_append _ hy, hindex]
    refine (bind_of_ok hbranch).trans ?_
    rw [visitAll_append _ hend.between]
    exact (bind_of_ok hend.labelled).trans hend.after
  · rw [hend.wrote.scope, hscope, halike.padded, hfound]
    rw [show (s.reach start f.head).padded.image.cursor = s.padded.image.cursor from rfl,
      hround.guess]
    have hiff := ofNat_eq_iff htarget (show sp.found target < 4294967296 by omega)
    by_cases heq : target = sp.found target
    · rw [if_pos heq, if_pos (hiff.mpr heq)]
    · rw [if_neg heq, if_neg fun h => heq (hiff.mp h)]
  · rw [hglobals, hend.headed.others other hother]
    rfl

/-- The walk has come to the branch, where the sample has its return. -/
theorem Sampled.at_branch (hcursor : s.image.cursor ≤ s.image.size)
    (htarget : target < 4294967296) : ∃ rest y front last,
      Headed cx f.name f.decls f.label a (s.paddingBytes ++ (UInt8.ofNat f.decls.length :: rest))
        (s.reach start f.head) u ∧
      Wrote (front ++ [last]) u v ∧ sp.Plausible ∧ sp.field = sp.address + front.length ∧
      visitAll cx start (f.head :: f.before) z = .ok () y ∧
      errorCount y.diagnostics.toList = errorCount s.diagnostics.toList ∧
      (sp.field < target + 2147483648 → target + 2 < sp.field + 2147483648 →
        (∀ length, fieldLength sp.field target = some length →
          ∃ more y', node cx f.branching (y.reach (start + 1 + f.before.length) f.branching) =
          .ok () y' ∧
            more.length = front.length + length ∧
            Headed cx f.name f.decls f.label b
              (s.paddingBytes ++ (UInt8.ofNat f.decls.length :: rest) ++ more)
              (z.reach start f.head) y') ∧
        (fieldLength sp.field target = none →
          ∃ problem y', node cx f.branching (y.reach (start + 1 + f.before.length) f.branching) =
              .error (.skip problem) y' ∧
            errorCount y'.diagnostics.toList = errorCount y.diagnostics.toList ∧
            Headed cx f.name f.decls f.label b
              (s.paddingBytes ++ (UInt8.ofNat f.decls.length :: rest))
              (z.reach start f.head) y')) := by
  obtain ⟨-, hcu, hcv, -, -⟩ := hsample.clean
  have halike : BeginAlike f.name (s.reach start f.head) (z.reach start f.head) :=
    ⟨hround.alike.cursor, hround.alike.packing, hround.alike.encoder, hround.alike.globals⟩
  obtain ⟨rest, y, hy, herrors, hu, hz⟩ := hsample.reaches_branch ha hla hround
  have hguess : b.guess f.label (Int32.ofNat (z.reach start f.head).padded.image.cursor) =
      Int32.ofNat target := by
    rw [halike.padded]
    exact hround.guess
  obtain ⟨front, last, hfront, hv, hfield⟩ := branch_visit (hu.agree hz halike) hz hguess htarget
    hsample.branching (by omega)
  obtain ⟨mid, hmid⟩ := hsample.gap_wrote
  obtain ⟨hstart, haddress, hfieldAt, -, hsmall⟩ := hsample.lengths hcursor rfl hu hv hmid
  have hz₀ : (z.reach start f.head).image.cursor = s.image.cursor := hround.alike.cursor
  have hycursor : y.image.cursor = sp.address := by
    rw [hz.image, haddress, Image.cursor_store _ _ (by omega), hz₀]
  exact ⟨rest, y, front, last, hu, hv, ⟨hstart, by omega, by omega, hsmall⟩, hfieldAt, hy, herrors,
    hfield sp.field (by omega)⟩

/-- A walk that guesses the label at `target` encodes the branch if a field leads there, and finds
    the label where that puts it. -/
theorem Sampled.walk (hcursor : s.image.cursor ≤ s.image.size) (htarget : target < 4294967296)
    (hback : sp.field < target + 2147483648) (hahead : target + 2 < sp.field + 2147483648)
    (hlimit : fieldLength sp.field target = none →
      errorCount s.diagnostics.toList + 1 < cx.errorLimit) :
    f.encodes cx z = (fieldLength sp.field target).isSome ∧ ∃ y,
    Finds f cx start sp b target z y := by
  obtain ⟨rest, y, front, last, hu, hv, -, hfieldAt, hy, herrors, hcases⟩ :=
    hsample.at_branch ha hla hround hcursor htarget
  obtain ⟨hsome, hnone⟩ := hcases hback hahead
  have hencodes : f.encodes cx z =
      (ended? (node cx f.branching)
        (y.reach (start + 1 + f.before.length) f.branching)).isSome := by
    unfold ForwardBranch.encodes
    rw [hround.entered, Option.bind_eq_bind, Option.bind_some, hround.begun, ended?_eq_some.mpr hy]
    rfl
  cases hlength : fieldLength sp.field target with
  | some length =>
    obtain ⟨more, y', hy', hmore, hz'⟩ := hsome length hlength
    refine ⟨?_, hsample.goes_on hround hcursor htarget rfl hu hv hy (visit_of_ok hy') hz' ?_ ?_⟩
    · rw [hencodes, ended?_eq_some.mpr hy']
      rfl
    · unfold Spans.found
      rw [hlength, Option.map_some, Option.getD_some]
      omega
    · have hle := fieldLength_le hlength
      omega
  | none =>
    obtain ⟨problem, y', hy', hcount, hz'⟩ := hnone hlength
    have hroom := hlimit hlength
    have hz'' := hz'.reported problem
    rw [← List.append_nil (_ ++ _)] at hz''
    refine ⟨?_, hsample.goes_on hround hcursor htarget rfl hu hv hy
      (visit_of_skip hy' (by omega)) hz'' ?_ (Nat.zero_le _)⟩
    · rw [hencodes, ended?_of_error hy']
      rfl
    · unfold Spans.found
      rw [hlength]
      rfl

/-- Where no field leads to the guess and there is no room for an error, the pass is given up. -/
theorem Sampled.breaks_off (hcursor : s.image.cursor ≤ s.image.size) (htarget : target < 4294967296)
    (hback : sp.field < target + 2147483648) (hahead : target + 2 < sp.field + 2147483648)
    (hnone : fieldLength sp.field target = none)
    (hlimit : cx.errorLimit ≤ errorCount s.diagnostics.toList + 1) :
    ∃ stop y, visitAll cx start f.routine.nodes z = .error stop y := by
  obtain ⟨rest, y, front, last, -, -, -, -, hy, herrors, hcases⟩ :=
    hsample.at_branch ha hla hround hcursor htarget
  obtain ⟨problem, y', hy', hcount, -⟩ := (hcases hback hahead).2 hnone
  obtain ⟨stop, u', hstop⟩ := visit_of_last_skip hy' (by omega)
  have hnodes : f.routine.nodes =
      (f.head :: f.before) ++ (f.branching :: (f.between ++ f.labelled :: f.after)) := rfl
  have hindex : start + (f.head :: f.before).length = start + 1 + f.before.length := by
    rw [List.length_cons]
    omega
  rw [hnodes, visitAll_append _ hy, hindex]
  exact ⟨stop, u', bind_of_error hstop⟩

end Walk

/-! ## From walk to walk -/

theorem Spans.Plausible.found {sp : Spans} (h : sp.Plausible) (target : Nat) :
    sp.address + sp.gap ≤ sp.found target ∧ sp.found target ≤ sp.field + sp.gap + 2 := by
  have hfield := h.field
  unfold Spans.found
  cases hlength : fieldLength sp.field target with
  | none => exact ⟨Nat.le_refl _, by simp only [Option.map_none, Option.getD_none]; omega⟩
  | some length =>
    have hle := fieldLength_le hlength
    simp only [Option.map_some, Option.getD_some]
    omega

/-- From the guess `target` on the walks find the label elsewhere, until the last of them, which
    guesses `last`, finds it there. Where there may be no field, there is room for an error. -/
inductive Spans.Settles (sp : Spans) (room : Prop) : Nat → Nat → Nat → Prop
  | still (target : Nat) (hroom : fieldLength sp.field target = none → room)
    (hfound : sp.found target = target) : Settles sp room 1 target target
  | again {count target next last : Nat} (hroom : fieldLength sp.field target = none → room)
    (hfound : sp.found target = next) (hmoved : next ≠ target)
    (hrest : Settles sp room count next last) :
    Settles sp room (count + 1) target last

theorem Spans.Settles.pos {sp : Spans} {room : Prop} {count target last : Nat}
    (h : sp.Settles room count target last) : 0 < count := by
  cases h <;> exact Nat.succ_pos _

section Rounds

variable {f : ForwardBranch} {cx : Context} {start : Nat} {sp : Spans}
    {opened s h u v w x t : State}
  {a b : RoutineScope} {target : Nat} {y z : State}

theorem not_taken_here {g : SymbolTable} {name : String} {symbol : Symbol} {site : Site}
    (h : g.defined name = some symbol) (hsite : symbol.site = some site) : ¬ Taken g name site := by
  rw [taken_iff]
  rintro ⟨other, hother, node, hnode, hne⟩
  cases h.symm.trans hother
  exact hne (congrArg Site.node (Option.some.inj (hsite.symm.trans hnode))).symm

/-- A walk that finds the label elsewhere is followed by one that guesses it there. -/
theorem Round.next (hs : s = opened.enter start f.routine) (hround : Round f cx start s b target z)
    (hgrows : Grows s z) (hfinds : Finds f cx start sp b target z y)
    (hmoved : sp.found target ≠ target) (hwalks : b.walks < maxWalks) :
    ∃ next, y.nextWalk? = some next ∧ Round f cx start s next (sp.found target) (y.walkAgain next) ∧
      Grows s (y.walkAgain next) ∧ next.walks = b.walks + 1 := by
  obtain ⟨deferred, hscope⟩ := hfinds.scope
  rw [if_neg fun heq => hmoved heq.symm] at hscope
  let next : RoutineScope :=
    { b with
      guesses := (f.label, Int32.ofNat (sp.found target)) :: b.guesses
      moved := false
      deferred
      walks := b.walks + 1 }
  have hnext :
      (RoutineScope.recordMove { b with deferred } f.label
        (Int32.ofNat (sp.found target))).nextWalk? =
      some next := by
    unfold RoutineScope.nextWalk?
    exact if_neg (Nat.not_le.mpr hwalks)
  have hgrows' : Grows (opened.enter start f.routine) y :=
    hs ▸ hgrows.trans ((visitAll_onward cx start f.routine.nodes z).of_ok hfinds.visits).grows
  have hmark : (y.walkAgain next).mark = s.mark := by
    rw [walkAgain_mark hgrows' hscope hnext, hs]
    rfl
  refine ⟨next, ?_, ⟨rfl, hround.begun, rfl, hround.labels, ⟨?_, ?_, ?_, fun other hother => ?_⟩,
    ?_, ?_, ?_⟩, ?_, rfl⟩
  · unfold State.nextWalk?
    rw [hscope]
    exact hnext
  · exact congrArg Mark.position hmark
  · exact congrArg Mark.packing hmark
  · exact congrArg Mark.encoder hmark
  · rw [← hround.alike.globals other hother, ← hfinds.others other hother]
    rfl
  · obtain ⟨symbol, hsymbol, hsite⟩ := hfinds.named
    exact not_taken_here hsymbol hsite
  · rw [show (y.walkAgain next).diagnostics = s.diagnostics from congrArg Mark.diagnostics hmark]
  · unfold RoutineScope.guess
    rw [show next.guesses = _ from rfl, List.lookup_cons_self]
    rfl
  · exact hs ▸ walkAgain_grows hgrows' hscope hnext

theorem Sampled.settles (hsample : Sampled f cx start sp s h u v w x t)
    (hs : s = opened.enter start f.routine) (ha : s.scope = some a) (hla : a.labels = [f.label])
    (hcursor : s.image.cursor ≤ s.image.size) (hsane : sp.Plausible) (hgap : sp.gap ≤ 8000)
    {count last : Nat}
    (hsettles : sp.Settles (errorCount s.diagnostics.toList + 1 < cx.errorLimit) count target last)
    (hround : Round f cx start s b target z) (hgrows : Grows s z)
    (hback : sp.field < target + 2147483648) (hahead : target + 2 < sp.field + 2147483648)
    {left : Nat} (hleft : count ≤ left + 1) (hwalks : b.walks + count ≤ maxWalks + 1) :
    (stayFrom cx start f.routine left z).completed = true ∧
      (stayFrom cx start f.routine left z).walks.length = count ∧
      ∃ y, (stayFrom cx start f.routine left z).walks.getLast? = some y ∧
        f.encodes cx y = (fieldLength sp.field last).isSome := by
  have hsmall := hsane.small
  have hfield := hsane.field
  have hshort := hsane.short
  induction hsettles generalizing b z left with
  | still target hroom hfound =>
    obtain ⟨hencodes, y, hfinds⟩ := hsample.walk ha hla hround hcursor (by omega) hback hahead hroom
    obtain ⟨deferred, hscope⟩ := hfinds.scope
    rw [if_pos hfound.symm] at hscope
    have hstays : y.nextWalk? = none := by
      unfold State.nextWalk?
      rw [hscope, Option.filter_some]
      rw [if_neg (by simp [hround.still])]
      rfl
    have hstands : y.standsStill = true := by
      unfold State.standsStill
      rw [hscope]
      show (!b.moved) = true
      rw [hround.still]
      rfl
    rw [stayFrom_last hfinds.visits (.inl hstays)]
    exact ⟨hstands, rfl, z, rfl, hencodes⟩
  | @again count target next last hroom hfound hmoved hrest ih =>
    subst hfound
    obtain ⟨-, y, hfinds⟩ := hsample.walk ha hla hround hcursor (by omega) hback hahead hroom
    have hpositive := hrest.pos
    obtain ⟨next, hnext, hround', hgrows', hwalks'⟩ :=
      hround.next hs hgrows hfinds hmoved (by omega)
    obtain ⟨left, rfl⟩ : ∃ less, left = less + 1 := ⟨left - 1, by omega⟩
    have hnear := hsane.found target
    obtain ⟨hcompleted, hlength, final, hlast, hencodes⟩ :=
      ih hround' hgrows' (by omega) (by omega) (show count ≤ left + 1 by omega) (by omega)
    rw [stayFrom_again hfinds.visits hnext]
    refine ⟨hcompleted, by rw [List.length_cons, hlength], final, ?_, hencodes⟩
    rw [List.getLast?_cons, hlast]
    rfl

end Rounds

/-! ## How many walks it takes -/

/-- The walks of a routine whose branch does not reach back to its start. -/
def Spans.farWalks (sp : Spans) : Nat :=
  if sp.address + sp.gap < sp.field then 4
  else if sp.address + sp.gap = sp.field then 2
  else if sp.gap ≤ 61 then 3
  else if sp.address + sp.gap ≤ sp.field + 62 then 4
  else 3

theorem Spans.farWalks_le (sp : Spans) : sp.farWalks ≤ 4 := by
  unfold farWalks
  repeat' split
  all_goals decide

section Arithmetic

variable {sp : Spans} {room : Prop} {target : Nat}

theorem Spans.found_short (h : sp.field < target ∧ target ≤ sp.field + 62) (hp : sp.Plausible) :
    sp.found target = sp.field + 1 + sp.gap := by
  have hfield := hp.field
  unfold Spans.found fieldLength
  rw [if_pos h, Option.map_some, Option.getD_some]
  omega

theorem Spans.found_long (hshort : ¬ (sp.field < target ∧ target ≤ sp.field + 62))
    (hreach : ¬ (target + 8192 < sp.field ∨ sp.field + 8191 < target ∨ target = sp.field))
    (hp : sp.Plausible) : sp.found target = sp.field + 2 + sp.gap := by
  have hfield := hp.field
  unfold Spans.found fieldLength
  rw [if_neg hshort, if_neg hreach, Option.map_some, Option.getD_some]
  omega

theorem Spans.found_none (hshort : ¬ (sp.field < target ∧ target ≤ sp.field + 62))
    (hreach : target + 8192 < sp.field ∨ sp.field + 8191 < target ∨ target = sp.field) :
    sp.found target = sp.address + sp.gap := by
  unfold Spans.found fieldLength
  rw [if_neg hshort, if_pos hreach]
  rfl

theorem fieldLength_ne_none {field : Nat} (h : target ≤ field + 8191)
    (hback : field ≤ target + 8192) (hne : target ≠ field) : fieldLength field target ≠ none := by
  unfold fieldLength
  split
  · simp
  · rw [if_neg (by omega)]
    simp

theorem fieldLength_far {field : Nat} (h : target + 8192 < field) :
    fieldLength field target = none := by
  unfold fieldLength
  rw [if_neg (by omega), if_pos (.inl h)]

/-- Behind its field, a guess that is right is the last one. -/
theorem Spans.settles_still (hfound : sp.found target = target)
    (hreach : fieldLength sp.field target ≠ none) :
    sp.Settles room 1 target target :=
  .still target (fun h => absurd h hreach) hfound

theorem Spans.settles_again {count next last : Nat} (hreach : fieldLength sp.field target ≠ none)
    (hfound : sp.found target = next) (hmoved : next ≠ target)
    (hrest : sp.Settles room count next last) :
    sp.Settles room (count + 1) target last :=
  .again (fun h => absurd h hreach) hfound hmoved hrest

variable (hp : sp.Plausible) (hlimit : sp.gap ≤ 8000)

include hp hlimit

/-- From the guess that follows a field of one byte. -/
theorem Spans.settles_from_short :
    ∃ last, sp.Settles room (if sp.gap ≤ 61 then 1 else 2) (sp.field + 1 + sp.gap) last ∧
      fieldLength sp.field last ≠ none := by
  have hreach : fieldLength sp.field (sp.field + 1 + sp.gap) ≠ none :=
    fieldLength_ne_none (by omega) (by omega) (by omega)
  by_cases hgap : sp.gap ≤ 61
  · rw [if_pos hgap]
    exact ⟨_, settles_still (found_short (by omega) hp) hreach, hreach⟩
  · have hreach' : fieldLength sp.field (sp.field + 2 + sp.gap) ≠ none :=
      fieldLength_ne_none (by omega) (by omega) (by omega)
    rw [if_neg hgap]
    refine ⟨_, settles_again hreach (found_long (by omega) (by omega) hp) (by omega) ?_, hreach'⟩
    exact settles_still (found_long (by omega) (by omega) hp) hreach'

/-- From the guess that follows a field of two bytes. -/
theorem Spans.settles_from_long :
    ∃ last, sp.Settles room (if sp.gap ≤ 60 then 2 else 1) (sp.field + 2 + sp.gap) last ∧
      fieldLength sp.field last ≠ none := by
  have hreach : fieldLength sp.field (sp.field + 2 + sp.gap) ≠ none :=
    fieldLength_ne_none (by omega) (by omega) (by omega)
  by_cases hgap : sp.gap ≤ 60
  · have hreach' : fieldLength sp.field (sp.field + 1 + sp.gap) ≠ none :=
      fieldLength_ne_none (by omega) (by omega) (by omega)
    rw [if_pos hgap]
    refine ⟨_, settles_again hreach (found_short (by omega) hp) (by omega) ?_, hreach'⟩
    exact settles_still (found_short (by omega) hp) hreach'
  · rw [if_neg hgap]
    exact ⟨_, settles_still (found_long (by omega) (by omega) hp) hreach, hreach⟩

/-- A branch that reaches back to its routine's start is encoded from the first walk on. -/
theorem Spans.settles_near (hnear : sp.field ≤ sp.start + 8192) :
    ∃ last, sp.Settles room (if sp.gap ≤ 60 then 3 else 2) sp.start last ∧
      fieldLength sp.field last ≠ none := by
  have hstart := hp.start
  have hfield := hp.field
  have hfound : sp.found sp.start = sp.field + 2 + sp.gap := found_long (by omega) (by omega) hp
  have hreach : fieldLength sp.field sp.start ≠ none :=
    fieldLength_ne_none (by omega) (by omega) (by omega)
  obtain ⟨last, hsettles, hlast⟩ : ∃ last, sp.Settles room _ _ last ∧ _ :=
    sp.settles_from_long hp hlimit
  refine ⟨last, ?_, hlast⟩
  have hall := settles_again hreach hfound (by omega) hsettles
  by_cases hgap : sp.gap ≤ 60
  · rwa [if_pos hgap] at hall ⊢
  · rwa [if_neg hgap] at hall ⊢

/-- A branch that does not is given up by the first walk, and the second guesses the label too far
    ahead by all of the instruction. -/
theorem Spans.settles_far (hfar : sp.start + 8192 < sp.field) (hroom : room) :
    ∃ last, sp.Settles room sp.farWalks sp.start last ∧
      (fieldLength sp.field last = none ↔ sp.address + sp.gap = sp.field) := by
  have hstart := hp.start
  have hfield := hp.field
  have hshort := hp.short
  suffices hsecond : ∃ count last, sp.farWalks = count + 1 ∧
      sp.Settles room count (sp.address + sp.gap) last ∧
      (fieldLength sp.field last = none ↔ sp.address + sp.gap = sp.field) by
    obtain ⟨count, last, hcount, hsettles, hlast⟩ := hsecond
    rw [hcount]
    exact ⟨last, .again (fun _ => hroom) (found_none (by omega) (by omega)) (by omega) hsettles,
      hlast⟩
  unfold farWalks
  by_cases hbehind : sp.address + sp.gap < sp.field
  · -- the guess lies inside the instruction, and a field of two bytes leads back there
    have hreach : fieldLength sp.field (sp.address + sp.gap) ≠ none :=
      fieldLength_ne_none (by omega) (by omega) (by omega)
    have hfound : sp.found (sp.address + sp.gap) = sp.field + 2 + sp.gap :=
      found_long (by omega) (by omega) hp
    obtain ⟨last, hsettles, hlast⟩ : ∃ last, sp.Settles room _ _ last ∧ _ :=
      sp.settles_from_long hp hlimit
    rw [if_pos (show sp.gap ≤ 60 by omega)] at hsettles
    exact ⟨3, last, if_pos hbehind, settles_again hreach hfound (by omega) hsettles,
      iff_of_false hlast (by omega)⟩
  rw [if_neg hbehind]
  by_cases hinside : sp.address + sp.gap = sp.field
  · -- no field leads to itself: the instruction is left out again, and the guess is right
    have hnone : fieldLength sp.field (sp.address + sp.gap) = none := by
      unfold fieldLength
      rw [if_neg (by omega), if_pos (by omega)]
    exact ⟨1, sp.address + sp.gap, if_pos hinside,
      .still _ (fun _ => hroom) (found_none (by omega) (by omega)), iff_of_true hnone hinside⟩
  rw [if_neg hinside]
  have hreach : fieldLength sp.field (sp.address + sp.gap) ≠ none :=
    fieldLength_ne_none (by omega) (by omega) hinside
  by_cases hclose : sp.address + sp.gap ≤ sp.field + 62
  · have hfound : sp.found (sp.address + sp.gap) = sp.field + 1 + sp.gap :=
      found_short (by omega) hp
    obtain ⟨last, hsettles, hlast⟩ : ∃ last, sp.Settles room _ _ last ∧ _ :=
      sp.settles_from_short hp hlimit
    refine ⟨_, last, ?_, settles_again hreach hfound (by omega) hsettles,
      iff_of_false hlast hinside⟩
    by_cases hgap : sp.gap ≤ 61
    · rw [if_pos hgap, if_pos hgap]
    · rw [if_neg hgap, if_neg hgap, if_pos hclose]
  · have hfound : sp.found (sp.address + sp.gap) = sp.field + 2 + sp.gap :=
      found_long (by omega) (by omega) hp
    obtain ⟨last, hsettles, hlast⟩ : ∃ last, sp.Settles room _ _ last ∧ _ :=
      sp.settles_from_long hp hlimit
    rw [if_neg (show ¬ sp.gap ≤ 60 by omega)] at hsettles
    refine ⟨_, last, ?_, settles_again hreach hfound (by omega) hsettles,
      iff_of_false hlast hinside⟩
    rw [if_neg (show ¬ sp.gap ≤ 61 by omega), if_neg hclose]

end Arithmetic

/-! ## Stays in routines -/

section Stays

variable {o : Options} {nodes : List Node} {p : BegunPass} {cx : Context} {x : Stay}

theorem exists_nextPass_of_measuring {program : Program} {v : Version} {left : Nat} {s : State}
    (h : p ∈ begunMeasuring o program v left s) :
    ∃ t : State, p = t.nextPass o program v .measuring := by
  induction left generalizing s with
  | zero => exact absurd h List.not_mem_nil
  | succ left ih =>
    unfold begunMeasuring at h
    rcases List.mem_cons.mp h with rfl | h
    · exact ⟨s, rfl⟩
    · obtain ⟨_, t, -, h⟩ := mem_following h
      split at h
      · exact ih h
      · exact absurd h List.not_mem_nil

theorem exists_nextPass (h : p ∈ begunPasses o nodes) :
    ∃ (t : State) (v : Version) (mode : Mode), p = t.nextPass o (.ofNodes nodes) v mode := by
  obtain ⟨⟨v, s⟩, -, h⟩ := List.mem_flatMap.mp h
  rcases List.mem_append.mp h with h | h
  · obtain ⟨t, ht⟩ := exists_nextPass_of_measuring h
    exact ⟨t, v, .measuring, ht⟩
  · obtain ⟨_, t, -, h⟩ := mem_following h
    exact ⟨t, v, .assembling, List.mem_singleton.mp h⟩

theorem routine_stayFrom (cx : Context) (start : Nat) (r : Routine) (left : Nat) (s : State) :
    (stayFrom cx start r left s).routine = r := by
  induction left generalizing s with
  | zero =>
    unfold stayFrom
    split <;> rfl
  | succ left ih =>
    unfold stayFrom
    split
    · split
      · exact ih _
      · rfl
    · rfl

theorem head_stayFrom (cx : Context) (start : Nat) (r : Routine) (left : Nat) (s : State) :
    (stayFrom cx start r left s).walks.head? = some s := by
  cases left with
  | zero =>
    unfold stayFrom
    split <;> rfl
  | succ left =>
    unfold stayFrom
    split
    · split <;> rfl
    · rfl

theorem mem_routinesStays {start : Nat} {rs : List Routine} {s : State} (hs : s.Room)
    (h : x ∈ routinesStays cx start rs s) :
    ∃ (k : Nat) (opened : State), opened.Room ∧
      x = stayFrom cx k x.routine maxWalks (opened.enter k x.routine) := by
  induction rs generalizing start s with
  | nil => exact absurd h List.not_mem_nil
  | cons r rest ih =>
    unfold routinesStays at h
    rcases List.mem_cons.mp h with rfl | h
    · refine ⟨start, s, hs, ?_⟩
      rw [routine_stayFrom]
    · obtain ⟨⟨⟩, t, ht, h⟩ := mem_following h
      have hwalks : walkRoutine cx start r maxWalks (s.enter start r) = .ok () t := ht
      exact ih ((walking_enter hs).walkRoutine hwalks) h

/-- A routine is entered in a state whose cursor is inside the image. -/
theorem mem_stays (hp : p ∈ begunPasses o nodes) (h : x ∈ p.stays) :
    ∃ (k : Nat) (opened : State), opened.Room ∧
      x = stayFrom p.context k x.routine maxWalks (opened.enter k x.routine) := by
  obtain ⟨t, v, mode, rfl⟩ := exists_nextPass hp
  obtain ⟨⟨⟩, u, hu, h⟩ := mem_following h
  exact mem_routinesStays (((calm_visitAll _ 0 _ _).of_ok hu).room (room_beginPass o v mode t)) h

end Stays

/-! ## Forward branches -/

section Forward

variable {f : ForwardBranch} {cx : Context} {start : Nat} {opened : State} {sp : Spans}

theorem localLabel_of_fixed {hidden : Option String} {n : Node} (h : fixedSize hidden n = true) :
    n.localLabel? = none := by
  unfold fixedSize at h
  unfold Node.localLabel?
  split at h <;> simp_all

theorem labels_routine (f : ForwardBranch) :
    f.routine.body.filterMap Node.localLabel? = [f.label] := by
  have hnone : ∀ nodes : List Node, (∀ n ∈ nodes, fixedSize (some f.label) n = true) →
      nodes.filterMap Node.localLabel? = [] := fun nodes h =>
    List.filterMap_eq_nil_iff.mpr fun n hn => localLabel_of_fixed (h n hn)
  have hbranching : f.branching.localLabel? = none := by
    unfold Node.localLabel?
    rw [f.branching_kind]
  have hlabelled : f.labelled.localLabel? = some f.label := by
    unfold Node.localLabel?
    rw [f.labelled_kind]
  show (f.before ++ f.branching :: (f.between ++ f.labelled :: f.after)).filterMap _ = _
  rw [List.filterMap_append, List.filterMap_cons_none hbranching, List.filterMap_append,
    List.filterMap_cons_some hlabelled, hnone _ fun n hn => f.fixed n (by simp [hn]),
    hnone _ fun n hn => f.fixed n (by simp [hn]), hnone _ fun n hn => f.fixed n (by simp [hn])]
  rfl

/-- The first walk guesses the label at the start of the routine. -/
theorem Sampled.first {s h u v w x t : State} (hsample : Sampled f cx start sp s h u v w x t)
    {name : String} {body : List Node} {mark : Snapshot}
    (hscope : s.scope = some (.begin name start body mark))
    (hlabels : body.filterMap Node.localLabel? = [f.label]) :
    Round f cx start s (.begin name start body mark) sp.start s := by
  refine ⟨hscope, rfl, rfl, hlabels, ⟨rfl, rfl, rfl, fun _ _ => rfl⟩, ?_, rfl, ?_⟩
  · obtain ⟨hclean, -⟩ := hsample.clean
    have hhead := node_of_visit hsample.head (Nat.le_of_eq hclean)
    rw [node_directive f.head_kind] at hhead
    exact (routineHead_clean (by exact hscope) hhead (Nat.le_of_eq hclean)).1
  · rw [hsample.spans]
    rfl

/-- In a sample that fits, the walk begins with its cursor inside the image. -/
theorem Sampled.cursor_le {h u v w x t : State}
    (hsample : Sampled f cx start sp (opened.enter start f.routine) h u v w x t)
    (hopened : opened.Room) :
    (opened.enter start f.routine).image.cursor ≤ (opened.enter start f.routine).image.size := by
  have hsizes := hsample.sizes
  have hroom : min (opened.enter start f.routine).image.cursor (2 ^ 32) ≤
    (opened.enter start f.routine).image.size := hopened
  omega

theorem exists_sampled_enter (h : f.spans? cx (opened.enter start f.routine) = some sp) :
    ∃ h u v w x t, Sampled f cx start sp (opened.enter start f.routine) h u v w x t :=
  (spans?_eq_some_iff rfl).mp h

theorem plausible_of_spans (hopened : opened.Room)
    (hspans : f.spans? cx (opened.enter start f.routine) = some sp) : sp.Plausible := by
  obtain ⟨h, u, v, w, x, t, hsample⟩ := exists_sampled_enter hspans
  have hcursor := hsample.cursor_le hopened
  obtain ⟨rest, -, -, -, hu, -⟩ := hsample.reaches_branch rfl (labels_routine f)
    (hsample.first rfl (labels_routine f))
  obtain ⟨-, hsize, hsmall⟩ := hsample.sizes
  have hfits :
      (opened.image.store (opened.paddingBytes ++ (UInt8.ofNat f.decls.length :: rest))).size <
      2 ^ 32 := by
    have himage := congrArg Image.size hu.image
    exact Nat.lt_of_le_of_lt (Nat.le_of_eq himage.symm) (by omega)
  obtain ⟨hend, hwithin⟩ := Image.cursor_store_le _ _ hfits hcursor
  have hstart : sp.start = opened.image.cursor + opened.paddingBytes.length := by
    rw [hsample.spans]
    exact cursor_of_stored hfits hcursor
  rw [List.length_append] at hend
  obtain ⟨_, _, _, _, _, _, hsane, _⟩ :=
    hsample.at_branch rfl (labels_routine f) (hsample.first rfl (labels_routine f))
      hcursor (by omega)
  exact hsane

/-- The walks of a routine whose branch settles are those that the arithmetic asks for. -/
theorem stay_of_settles (hopened : opened.Room)
    (hspans : f.spans? cx (opened.enter start f.routine) = some sp) (hgap : sp.gap ≤ 8000)
    {count last : Nat} (hcount : count ≤ maxWalks)
    (hsettles : sp.Settles (errorCount opened.diagnostics.toList + 1 < cx.errorLimit) count
      sp.start last) :
    (stayFrom cx start f.routine maxWalks (opened.enter start f.routine)).completed = true ∧
      (stayFrom cx start f.routine maxWalks (opened.enter start f.routine)).walks.length = count ∧
      ∃ y, (stayFrom cx start f.routine maxWalks (opened.enter start f.routine)).walks.getLast? =
      some y ∧
        f.encodes cx y = (fieldLength sp.field last).isSome := by
  have hsane := plausible_of_spans hopened hspans
  have hstart := hsane.start
  have hfield := hsane.field
  have hsmall := hsane.small
  obtain ⟨h, u, v, w, x, t, hsample⟩ := exists_sampled_enter hspans
  have hwalks :
      (RoutineScope.begin f.routine.name start f.routine.body opened.snapshot).walks = 1 := rfl
  exact hsample.settles rfl rfl (labels_routine f) (hsample.cursor_le hopened) hsane hgap hsettles
    (hsample.first rfl (labels_routine f)) (grows_of_mark rfl fun a ha => ⟨a, ha, rfl⟩) (by omega)
    (by omega) (by omega) (by omega)

/-- Nor is the stay completed then. -/
theorem stay_of_breaking_off (hopened : opened.Room)
    (hspans : f.spans? cx (opened.enter start f.routine) = some sp)
    (hnone : fieldLength sp.field sp.start = none)
    (hlimit : cx.errorLimit ≤ errorCount opened.diagnostics.toList + 1) (left : Nat) :
    (stayFrom cx start f.routine left (opened.enter start f.routine)).completed = false := by
  have hsane := plausible_of_spans hopened hspans
  have hstart := hsane.start
  have hfield := hsane.field
  have hsmall := hsane.small
  obtain ⟨h, u, v, w, x, t, hsample⟩ := exists_sampled_enter hspans
  obtain ⟨stop, y, hstop⟩ := hsample.breaks_off rfl (labels_routine f)
    (hsample.first rfl (labels_routine f)) (hsample.cursor_le hopened) (by omega)
    (by omega) (by omega)
    hnone hlimit
  rw [stayFrom_of_error hstop]

end Forward

/-! ## Longer routines -/

/-- The routine with more nodes before its branch. -/
def ForwardBranch.preceded (f : ForwardBranch) (nodes : List Node)
    (h : ∀ n ∈ nodes, fixedSize (some f.label) n = true) : ForwardBranch :=
  { f with
    before := f.before ++ nodes
    fixed := by
      intro n hn
      simp only [List.mem_append] at hn
      rcases hn with ((hn | hn) | hn) | hn
      · exact f.fixed n (by simp [hn])
      · exact h n hn
      · exact f.fixed n (by simp [hn])
      · exact f.fixed n (by simp [hn]) }

/-- The spans with the branch `count` bytes further on. -/
def Spans.shifted (sp : Spans) (count : Nat) : Spans :=
  { sp with address := sp.address + count, field := sp.field + count }

/-- More bytes before the branch shift what stands behind them. -/
theorem Spans.shifted_of_stored {im : Image} {start : Nat} {front bytes field mid : List UInt8}
    {u v w u' v' w' : State} (hu : u.image = im.store front)
    (hv : v.image = im.store (front ++ field)) (hw : w.image = im.store (front ++ field ++ mid))
    (hu' : u'.image = im.store (front ++ bytes))
    (hv' : v'.image = im.store (front ++ bytes ++ field))
    (hw' : w'.image = im.store (front ++ bytes ++ field ++ mid)) (hcount : 0 < front.length)
    (hfew : im.cursor + (front ++ bytes ++ field ++ mid).length < 4294967296) :
    Spans.shifted ⟨start, u.image.cursor, v.image.cursor - 1, w.image.cursor - v.image.cursor⟩
      bytes.length =
      ⟨start, u'.image.cursor, v'.image.cursor - 1, w'.image.cursor - v'.image.cursor⟩ := by
  simp only [List.length_append] at hfew
  rw [hu, hv, hw, hu', hv', hw']
  rw [Image.cursor_store _ _ (by omega),
    Image.cursor_store _ _ (by simp only [List.length_append]; omega),
    Image.cursor_store _ _ (by simp only [List.length_append]; omega),
    Image.cursor_store _ _ (by simp only [List.length_append]; omega),
    Image.cursor_store _ _ (by simp only [List.length_append]; omega),
    Image.cursor_store _ _ (by simp only [List.length_append]; omega)]
  unfold Spans.shifted
  simp only [List.length_append, Spans.mk.injEq, true_and]
  omega

theorem fixed_returning (f : ForwardBranch) : fixedSize (some f.label) f.returning = true := by
  have hoperands : plainOperands (some f.label) f.instruction.returning = true := f.plain
  show (plainOperands (some f.label) f.instruction.returning &&
    f.instruction.returning.branch.all Branch.returns) = true
  rw [hoperands, Instruction.returning, f.branches]
  rfl

theorem exists_wrote_str (cx : Context) (index : Nat) {n : Node} {text : String}
    (hn : n.kind = .directive (.str text)) (s : State) :
    ∃ t, visit cx index n s = .ok () t ∧ Wrote (s.encoder.encode text) s t :=
  ⟨_, visit_str index hn s, rfl, rfl, fun _ => rfl, rfl, rfl, rfl⟩

section Longer

variable {f : ForwardBranch} {cx : Context} {start : Nat} {sp : Spans} {s h u v w x t : State}

theorem Sampled.whole (hsample : Sampled f cx start sp s h u v w x t) :
    visitAll cx start (f.head :: (f.before ++ f.returning :: (f.between ++ f.labelled :: f.after)))
      s = .ok () t := by
  refine (bind_of_ok hsample.head).trans ?_
  rw [visitAll_append _ hsample.before]
  refine (bind_of_ok hsample.branching).trans ?_
  rw [visitAll_append _ hsample.between]
  exact (bind_of_ok hsample.labelled).trans hsample.after

/-- Nodes of a fixed size before the branch shift it, and the label with it. -/
theorem Sampled.preceded (hsample : Sampled f cx start sp s h u v w x t) {name : String}
    {body : List Node} {mark : Snapshot} (hscope : s.scope = some (.begin name start body mark))
    (hlabels : body.filterMap Node.localLabel? = [f.label])
    (hcursor : s.image.cursor ≤ s.image.size) {nodes : List Node}
    (hnodes : ∀ n ∈ nodes, fixedSize (some f.label) n = true) {bytes : List UInt8} {u' : State}
    (hvisits : visitAll cx (start + 1 + f.before.length) nodes u = .ok () u')
    (hwrote : Wrote bytes u u') (hsize : t.image.size + bytes.length < 2 ^ 31) :
    ∃ v' w' x' t',
      Sampled (f.preceded nodes hnodes) cx start (sp.shifted bytes.length) s h u' v' w' x' t' := by
  obtain ⟨-, hcu, hcv, -, -⟩ := hsample.clean
  obtain ⟨rest, -, -, -, hu, -⟩ :=
    hsample.reaches_branch hscope hlabels (hsample.first hscope hlabels)
  have hcount : 0 < (s.paddingBytes ++ (UInt8.ofNat f.decls.length :: rest)).length := by
    rw [List.length_append, List.length_cons]
    omega
  generalize s.paddingBytes ++ (UInt8.ofNat f.decls.length :: rest) = front at hu hcount
  have hagree : AgreeBut cx (some f.label) u u' :=
    AgreeBut.wrote ⟨fun _ _ => rfl, rfl⟩ (.refl u) hwrote
  obtain ⟨field, v', hv', hv, hwv⟩ := visit_parallel (fixed_returning f) hagree hsample.branching
    (by omega) (start + 1 + (f.before ++ nodes).length)
  obtain ⟨mid, tail, w', x', t', hmid, htail, hend⟩ := hsample.finishes (hu.wrote hv)
    ((hu.wrote hwrote).wrote hwv) ⟨rfl, rfl, rfl, fun _ _ => rfl⟩
    (start + 1 + (f.before ++ nodes).length + 1)
  obtain ⟨hximage, -⟩ := hsample.label_image ((hu.wrote hv).wrote hmid)
  -- the images of both samples, as what they stored from the beginning on
  have ht : t.image = s.image.store (front ++ field ++ mid ++ tail) := by
    rw [htail.image, hximage, ((hu.wrote hv).wrote hmid).image, ← Image.store_append]
    rfl
  have ht' : t'.image = s.image.store (front ++ bytes ++ field ++ mid ++ tail) := by
    rw [hend.wrote.image, hend.image, hend.headed.image, ← Image.store_append]
    rfl
  have hlast : s.image.cursor + (front ++ field ++ mid ++ tail).length ≤ t.image.size := by
    have hfits : (s.image.store (front ++ field ++ mid ++ tail)).size < 2 ^ 32 :=
      ht ▸ Nat.lt_trans hsample.size (by decide)
    obtain ⟨hend, hwithin⟩ := Image.cursor_store_le _ _ hfits hcursor
    rw [ht]
    omega
  simp only [List.length_append] at hlast
  refine ⟨v', w', x', t', ?_⟩
  exact {
    head := hsample.head
    before := (visitAll_append _ hsample.before).trans hvisits
    branching := hv'
    between := hend.between
    labelled := hend.labelled
    after := hend.after
    errors := by
      rw [hend.wrote.errors, hend.errors, hwv.errors, hwrote.errors, hcu]
    size := by
      have hle := Image.size_store_le s.image (front ++ bytes ++ field ++ mid ++ tail)
        (by simp only [List.length_append]; omega)
      have hgrown := Image.size_le_store s.image (front ++ field ++ mid ++ tail)
      rw [← ht', List.length_append, List.length_append, List.length_append, List.length_append]
        at hle
      rw [← ht] at hgrown
      omega
    spans := by
      have hfew : s.image.cursor + (front ++ bytes ++ field ++ mid).length < 4294967296 := by
        simp only [List.length_append]
        omega
      rw [hsample.spans]
      exact Spans.shifted_of_stored hu.image (hu.wrote hv).image ((hu.wrote hv).wrote hmid).image
        (hu.wrote hwrote).image ((hu.wrote hwrote).wrote hwv).image hend.headed.image hcount hfew }

end Longer

/-! ## Settling -/

/-- **A forward branch settles quickly where it reaches back to the start of its routine**: the stay
    in the routine is completed after two walks or three, and the last of them encodes the branch.
    Where the start is out of reach, the first walk gives the branch up, and it takes two to four;
    the branch is encoded in the end, unless the bytes up to the label are as many as the
    instruction has before its branch field. Giving the branch up takes room for one more error;
    without it the pass ends there. -/
theorem forward_branch_settles {o : Options} {nodes : List Node} {p : BegunPass}
    (hp : p ∈ begunPasses o nodes) {x : Stay} (hx : x ∈ p.stays) (f : ForwardBranch)
    (hf : x.routine = f.routine) {s : State} (hs : x.walks.head? = some s) {sp : Spans}
    (hspans : f.spans? p.context s = some sp) (hgap : sp.gap ≤ 8000) :
    (sp.field ≤ sp.start + 8192 →
      x.completed = true ∧ x.walks.length = (if sp.gap ≤ 60 then 3 else 2) ∧
        ∃ last, x.walks.getLast? = some last ∧ f.encodes p.context last = true) ∧
    (sp.start + 8192 < sp.field →
      errorCount s.diagnostics.toList + 1 < p.context.errorLimit →
      x.completed = true ∧ x.walks.length = sp.farWalks ∧
        ∃ last, x.walks.getLast? = some last ∧
          (f.encodes p.context last = true ↔ sp.address + sp.gap ≠ sp.field)) ∧
    (sp.start + 8192 < sp.field →
      p.context.errorLimit ≤ errorCount s.diagnostics.toList + 1 → x.completed = false) := by
  obtain ⟨start, opened, hopened, heq⟩ := mem_stays hp hx
  rw [hf] at heq
  rw [heq, head_stayFrom] at hs
  cases hs
  rw [heq]
  have hsane := plausible_of_spans hopened hspans
  refine ⟨fun hnear => ?_, fun hfar hlimit => ?_, fun hfar hlimit => ?_⟩
  · obtain ⟨last, hsettles, hlast⟩ := sp.settles_near hsane hgap hnear
    obtain ⟨hcompleted, hlength, y, hy, hencodes⟩ :=
      stay_of_settles hopened hspans hgap (by split <;> decide) hsettles
    exact ⟨hcompleted, hlength, y, hy, hencodes.trans (Option.isSome_iff_ne_none.mpr hlast)⟩
  · obtain ⟨last, hsettles, hlast⟩ := sp.settles_far hsane hgap hfar hlimit
    obtain ⟨hcompleted, hlength, y, hy, hencodes⟩ :=
      stay_of_settles hopened hspans hgap (Nat.le_trans sp.farWalks_le (by decide)) hsettles
    refine ⟨hcompleted, hlength, y, hy, ?_⟩
    rw [hencodes, Option.isSome_iff_ne_none, ne_eq, hlast]
  · exact stay_of_breaking_off hopened hspans (fieldLength_far hfar) hlimit maxWalks

/-- A routine that skips two bytes of data. -/
def skipTwo : ForwardBranch where
  head := ⟨.directive (.funct "MAIN" []), {}⟩
  name := "MAIN"
  decls := []
  before := []
  branching := ⟨.instruction skipData, {}⟩
  instruction := skipData
  branch := ⟨true, .label "DONE"⟩
  between := [⟨.directive (.byte [.number 1, .number 2]), {}⟩]
  labelled := ⟨.localLabel "DONE", {}⟩
  label := "DONE"
  after := [⟨.instruction { opcode := "RTRUE" }, {}⟩]
  head_kind := rfl
  branching_kind := rfl
  branches := rfl
  target := rfl
  plain := by decide +kernel
  labelled_kind := rfl
  fixed := by decide +kernel

/-- The first walk takes two bytes for the branch, the second takes one, and the third finds the
    label where the second left it. -/
theorem skipTwo_settles :
    ∃ p ∈ begunPasses skippingOptions skipTwo.routine.nodes, ∃ x ∈ p.stays, ∃ s last,
      x.routine = skipTwo.routine ∧ x.walks.head? = some s ∧
      skipTwo.spans? p.context s = some ⟨64, 65, 67, 2⟩ ∧
      x.completed = true ∧ x.walks.length = 3 ∧ x.walks.getLast? = some last ∧
      skipTwo.encodes p.context last = true := by
  have hrun : ((begunPasses skippingOptions skipTwo.routine.nodes).any fun p => p.stays.any fun x =>
      decide (x.routine = skipTwo.routine) && x.walks.head?.any fun s =>
        decide (skipTwo.spans? p.context s = some ⟨64, 65, 67, 2⟩)) = true := by decide +kernel
  simp only [List.any_eq_true, Bool.and_eq_true, decide_eq_true_eq, Option.any_eq_true] at hrun
  obtain ⟨p, hp, x, hx, hroutine, s, hs, hspans⟩ := hrun
  obtain ⟨hcompleted, hlength, last, hlast, hencodes⟩ :=
    (forward_branch_settles hp hx skipTwo hroutine hs hspans (by decide)).1 (by decide)
  exact ⟨p, hp, x, hx, s, last, hroutine, hs, hspans, hcompleted, hlength, hlast, hencodes⟩

/-- A text of 8190 bytes. -/
def longText : Node := ⟨.directive (.str (String.ofList (List.replicate 12285 'a'))), {}⟩

theorem fixed_longText : ∀ n ∈ [longText], fixedSize (some skipTwo.label) n = true := by
  intro n hn
  rw [List.mem_singleton.mp hn]
  rfl

/-- The routine that skips two bytes, too far from its start for a branch to reach back there. -/
def farSkip : ForwardBranch := skipTwo.preceded [longText] fixed_longText

/-- The first measuring pass over the routine. -/
def farPass : BegunPass :=
  (State.initial .v3).nextPass skippingOptions (.ofNodes farSkip.routine.nodes) .v3 .measuring

theorem farPass_begun : farPass ∈ begunPasses skippingOptions farSkip.routine.nodes :=
  List.mem_flatMap.mpr ⟨_, mem_attempts_self skippingOptions farSkip.routine.nodes,
    List.mem_append_left _ List.mem_cons_self⟩

theorem farSkip_spans : farSkip.spans? farPass.context (farPass.start.enter 0 farSkip.routine) =
    some ⟨64, 8255, 8257, 2⟩ := by
  have hshort : skipTwo.spans? farPass.context (farPass.start.enter 0 farSkip.routine) =
      some ⟨64, 65, 67, 2⟩ := by decide +kernel
  obtain ⟨h, u, v, w, x, t, hsample⟩ : ∃ h u v w x t, Sampled skipTwo farPass.context 0 _
      (farPass.start.enter 0 farSkip.routine) h u v w x t := (spans?_eq_some_iff rfl).mp hshort
  have hsize : t.image.size = 71 := by
    have hrun : (ended?
        (visitAll farPass.context 0 (skipTwo.head :: (skipTwo.before ++ skipTwo.returning ::
        (skipTwo.between ++ skipTwo.labelled :: skipTwo.after))))
        (farPass.start.enter 0 farSkip.routine)).map (·.image.size) = some 71 := by decide +kernel
    rw [ended?_eq_some.mpr hsample.whole] at hrun
    exact Option.some.inj hrun
  obtain ⟨_, _, -, -, hu, -⟩ := hsample.reaches_branch rfl (labels_routine farSkip)
    (hsample.first rfl (labels_routine farSkip))
  obtain ⟨u', hvisit, hwrote⟩ := exists_wrote_str farPass.context 1 (n := longText) rfl u
  have hlength : (u.encoder.encode (String.ofList (List.replicate 12285 'a'))).length = 8190 := by
    rw [hu.encoder]
    exact ZText.Encoder.length_encode_letters rfl 12285
  obtain ⟨v', w', x', t', hfar⟩ := hsample.preceded rfl (labels_routine farSkip) (by decide +kernel)
    fixed_longText (bind_of_ok hvisit) hwrote (by omega)
  rw [hlength] at hfar
  have hscope : (farPass.start.enter 0 farSkip.routine).scope =
    some (.begin "MAIN" 0 farSkip.routine.body farPass.start.snapshot) := rfl
  exact (spans?_eq_some_iff hscope).mpr ⟨h, u', v', w', x', t', hfar⟩

/-- After a long text the branch is given up by the first walk. The second guesses the label where
    the branch field should stand, gives the branch up again, and finds the label there. -/
theorem farSkip_given_up :
    ∃ p ∈ begunPasses skippingOptions farSkip.routine.nodes, ∃ x ∈ p.stays, ∃ s last,
      x.routine = farSkip.routine ∧ x.walks.head? = some s ∧ s.diagnostics = #[] ∧
      p.context.errorLimit = 100 ∧ farSkip.spans? p.context s = some ⟨64, 8255, 8257, 2⟩ ∧
      x.completed = true ∧ x.walks.getLast? = some last ∧
      farSkip.encodes p.context last = false := by
  have hopened : farPass.start.Room := room_beginPass _ _ _ _
  have hroom : errorCount farPass.start.diagnostics.toList + 1 < farPass.context.errorLimit := by
    decide
  obtain ⟨last, hsettles, hlast⟩ :=
    Spans.settles_far (plausible_of_spans hopened farSkip_spans) (by decide) (by decide) hroom
  obtain ⟨hcompleted, -, y, hy, hencodes⟩ :=
    stay_of_settles hopened farSkip_spans (by decide) (by decide) hsettles
  refine ⟨farPass, farPass_begun, _, List.mem_cons_self, _, y, routine_stayFrom _ _ _ _ _,
    head_stayFrom _ _ _ _ _, rfl, rfl, farSkip_spans, hcompleted, hy, ?_⟩
  rw [hencodes, hlast.mpr rfl]
  rfl

end ZAssembler.Assembly
