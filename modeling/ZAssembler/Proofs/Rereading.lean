import ZAssembler.Proofs.Branching
import ZAssembler.Proofs.DataPrograms
import ZAssembler.Proofs.TextCoding

/-
  Nodes that are read again. Data, texts and instructions that name no label of their routine write
  the same bytes wherever they are read, as long as the names that they do mention mean the same:
  from one walk of a routine to the next they only move (`visitAll_parallel`). So does the head of
  the routine (`routineHead_parallel`). An instruction that branches to a label writes as much as if
  it returned instead, but for its branch field, or it is given up with nothing written
  (`branching_cases`).
-/

namespace ZAssembler

/-! ## Which nodes have a fixed size -/

/-- The expression does not name what is hidden. -/
def Expr.avoids (hidden : Option String) (e : Expr) : Bool := e.names.all (some · != hidden)

theorem Expr.avoids_none (e : Expr) : e.avoids none = true := List.all_eq_true.mpr fun _ _ => rfl

def Branch.returns (b : Branch) : Bool :=
  match b.target with
  | .label _ => false
  | _ => true

/-- The instruction with a return in the place of its branch. -/
def Instruction.returning (i : Instruction) : Instruction :=
  { i with branch := i.branch.map fun b => { b with target := .returnTrue } }

/-- The letters of the first alphabet take a word for each three. -/
theorem ZText.Encoder.length_encode_letters {e : Encoder} (hnone : e.abbreviations = [])
    (count : Nat) :
    (e.encode (String.ofList (List.replicate count 'a'))).length = 2 * ((max count 1 + 2) / 3) := by
  have hletter : ∀ v, (charZchars v 'a').length = 1 := by
    intro v
    cases v <;> decide +kernel
  rw [encode_of_none hnone, length_encodePlain, String.toList_ofList, List.map_replicate, hletter,
    List.sum_replicate_nat, Nat.mul_one]

namespace Assembly

open Bytecode Machine

/-- The mnemonic of a jump, in any case. -/
def isJump (i : Instruction) : Bool := i.opcode.map Char.toUpper == "JUMP"

theorem lookup_name {name : String} {v : Version} {op : Opcode}
    (h : Opcode.lookup name v = .found op) : op.name = name.map Char.toUpper := by
  unfold Opcode.lookup at h
  dsimp only at h
  split at h
  · next o ho =>
    cases h
    have hmem := List.mem_of_find?_eq_some ho
    exact beq_iff_eq.mp (List.mem_filter.mp hmem).2
  · split at h <;> cases h

theorem select_name {name : String} {count : Nat} (hcount : count ≤ 4) {v : Version} {op : Opcode}
    (h : Opcode.select name count v = .found op) : op.name = name.map Char.toUpper := by
  unfold Opcode.select at h
  split at h
  · next o ho =>
    rw [if_neg (by omega)] at h
    cases h
    exact lookup_name ho
  · exact lookup_name h

/-- The operands and the store target do not name what is hidden, and none of them is a distance. -/
def plainOperands (hidden : Option String) (i : Instruction) : Bool :=
  !isJump i && (i.operands ++ i.store.toList).all (·.avoids hidden)

/-- The bytes of the node hang neither on where it stands nor on what is hidden. -/
def fixedSize (hidden : Option String) (n : Node) : Bool :=
  match n.kind with
  | .directive (.byte values) | .directive (.word values) => values.all (·.avoids hidden)
  | .directive (.str _) => true
  | .instruction i => plainOperands hidden i && i.branch.all Branch.returns
  | _ => false

/-! ## What such a node does to a state -/

/-- From `s` to `t` bytes were written. Names may have been remembered that have no value, and
    fixups, texts and warnings been noted, but no other symbol and no error is new. -/
structure Wrote (bytes : List UInt8) (s t : State) : Prop where
  image : t.image = s.image.store bytes
  locals : t.locals = s.locals
  globals : ∀ name, t.globals.defined name = s.globals.defined name
  encoder : t.encoder = s.encoder
  scope : t.scope = s.scope
  errors : errorCount t.diagnostics.toList = errorCount s.diagnostics.toList

theorem Wrote.refl (s : State) : Wrote [] s s := ⟨rfl, rfl, fun _ => rfl, rfl, rfl, rfl⟩

theorem Wrote.trans {a b : List UInt8} {s t u : State} (hst : Wrote a s t) (htu : Wrote b t u) :
    Wrote (a ++ b) s u where
  image := by rw [htu.image, hst.image, Image.store_append]
  locals := htu.locals.trans hst.locals
  globals name := (htu.globals name).trans (hst.globals name)
  encoder := htu.encoder.trans hst.encoder
  scope := htu.scope.trans hst.scope
  errors := htu.errors.trans hst.errors

theorem wrote_store (bytes : List UInt8) (s : State) :
    Wrote bytes s { s with image := s.image.store bytes } :=
  ⟨rfl, rfl, fun _ => rfl, rfl, rfl, rfl⟩

theorem wrote_mention (name : String) (s : State) :
    Wrote [] s { s with globals := s.globals.mention name } :=
  ⟨rfl, rfl, fun other => defined_mention s.globals name other, rfl, rfl, rfl⟩

theorem wrote_reach (index : Nat) (n : Node) (s : State) : Wrote [] s (s.reach index n) :=
  ⟨rfl, rfl, fun _ => rfl, rfl, rfl, rfl⟩

/-- Names mean the same in both states, but for a hidden one, and texts are encoded alike. -/
structure AgreeBut (cx : Context) (hidden : Option String) (s t : State) : Prop where
  meaning : ∀ name, some name ≠ hidden → (t.scoping cx).meaning name = (s.scoping cx).meaning name
  encoder : t.encoder = s.encoder

theorem meaning_of_tables {cx : Context} {s t : State} {name : String}
    (hlocals : t.locals.lookup name = s.locals.lookup name)
    (hglobals : (t.globals.defined name).map (fun x => (x.kind, x.value)) =
      (s.globals.defined name).map fun x => (x.kind, x.value)) :
    (t.scoping cx).meaning name = (s.scoping cx).meaning name := by
  unfold Scoping.meaning State.scoping
  dsimp only
  rw [hlocals]
  cases s.locals.lookup name with
  | none => exact hglobals
  | some x => rfl

theorem Wrote.meaning {cx : Context} {bytes : List UInt8} {s t : State} (h : Wrote bytes s t)
    (name : String) : (t.scoping cx).meaning name = (s.scoping cx).meaning name :=
  meaning_of_tables (by rw [h.locals]) (by rw [h.globals])

theorem AgreeBut.wrote {cx : Context} {hidden : Option String} {a b : List UInt8}
    {s s' t t' : State} (h : AgreeBut cx hidden s t) (hs : Wrote a s s') (ht : Wrote b t t') :
    AgreeBut cx hidden s' t' where
  meaning name hname := by rw [ht.meaning, hs.meaning, h.meaning name hname]
  encoder := by rw [ht.encoder, hs.encoder, h.encoder]

section Parallel

variable {cx : Context} {hidden : Option String} {α β : Type}

/-- Where `m` succeeds, `m'` succeeds with the same result in a state that agrees, and both write
    the same bytes. -/
def Parallel (cx : Context) (hidden : Option String) (m m' : Step α) : Prop :=
  ∀ s t, AgreeBut cx hidden s t → ∀ a s', m s = .ok a s' →
    ∃ bytes t', m' t = .ok a t' ∧ Wrote bytes s s' ∧ Wrote bytes t t'

/-- The step notes something and does nothing else. -/
def Silent (m : Step Unit) : Prop := ∀ s, ∃ t, m s = .ok () t ∧ Wrote [] s t

theorem Parallel.bind {m m' : Step α} {f f' : α → Step β} (hm : Parallel cx hidden m m')
    (hf : ∀ a, Parallel cx hidden (f a) (f' a)) : Parallel cx hidden (m >>= f) (m' >>= f') := by
  intro s t hst b s₂ h
  obtain ⟨a, s₁, ha, hb⟩ := bind_ok h
  obtain ⟨first, t₁, ha', hs₁, ht₁⟩ := hm s t hst a s₁ ha
  obtain ⟨second, t₂, hb', hs₂, ht₂⟩ := hf a s₁ t₁ (hst.wrote hs₁ ht₁) b s₂ hb
  exact ⟨first ++ second, t₂, (bind_of_ok ha').trans hb', hs₁.trans hs₂, ht₁.trans ht₂⟩

theorem parallel_pure (a : α) : Parallel cx hidden (pure a) (pure a) := by
  intro s t _ b s' h
  cases h
  exact ⟨[], t, rfl, .refl s, .refl t⟩

theorem parallel_error (e : Interrupt) (m : Step α) : Parallel cx hidden (throw e) m := by
  intro s t _ b s' h
  cases h

theorem parallel_get {f f' : State → Step α}
    (hf : ∀ s t, AgreeBut cx hidden s t → Parallel cx hidden (f s) (f' t)) :
    Parallel cx hidden (get >>= f) (get >>= f') := fun s t hst a s' h => hf s t hst s t hst a s' h

theorem parallel_store (bytes : List UInt8) : Parallel cx hidden (store bytes) (store bytes) := by
  intro s t _ a s' h
  cases h
  exact ⟨bytes, _, rfl, wrote_store bytes s, wrote_store bytes t⟩

theorem Silent.parallel {m m' : Step Unit} (hm : Silent m) (hm' : Silent m') :
    Parallel cx hidden m m' := by
  intro s t _ a s' h
  obtain ⟨s₁, hs, hws⟩ := hm s
  obtain ⟨t₁, ht, hwt⟩ := hm' t
  rw [hs] at h
  cases h
  exact ⟨[], t₁, ht, hws, hwt⟩

theorem Silent.bind {m : Step Unit} {f : Unit → Step Unit} (hm : Silent m) (hf : Silent (f ())) :
    Silent (m >>= f) := by
  intro s
  obtain ⟨t, ht, hst⟩ := hm s
  obtain ⟨u, hu, htu⟩ := hf t
  exact ⟨u, (bind_of_ok ht).trans hu, hst.trans htu⟩

theorem silent_pure : Silent (pure ()) := fun s => ⟨s, rfl, .refl s⟩

theorem silent_addFixup (fixup : Fixup) : Silent (addFixup fixup) :=
  fun _ => ⟨_, rfl, rfl, rfl, fun _ => rfl, rfl, rfl, rfl⟩

theorem silent_collectText (text : String) : Silent (collectText text) :=
  fun _ => ⟨_, rfl, rfl, rfl, fun _ => rfl, rfl, rfl, rfl⟩

theorem silent_forM {γ : Type} {f : γ → Step Unit} (hf : ∀ x, Silent (f x)) (xs : List γ) :
    Silent (xs.forM f) := by
  induction xs with
  | nil => exact silent_pure
  | cons x rest ih => exact (hf x).bind ih

theorem parallel_forM {γ : Type} {f : γ → Step Unit} {xs : List γ}
    (hf : ∀ x ∈ xs, Parallel cx hidden (f x) (f x)) :
    Parallel cx hidden (xs.forM f) (xs.forM f) := by
  induction xs with
  | nil => exact parallel_pure ()
  | cons x rest ih =>
    exact (hf x (List.mem_cons_self ..)).bind fun _ => ih fun y hy =>
      hf y (List.mem_cons_of_mem _ hy)

theorem parallel_mapM {γ : Type} {f : γ → Step α} {xs : List γ}
    (hf : ∀ x ∈ xs, Parallel cx hidden (f x) (f x)) :
    Parallel cx hidden (xs.mapM f) (xs.mapM f) := by
  induction xs with
  | nil => exact parallel_pure []
  | cons x rest ih =>
    rw [List.mapM_cons]
    refine (hf x (List.mem_cons_self ..)).bind fun a => ?_
    exact (ih fun y hy => hf y (List.mem_cons_of_mem _ hy)).bind fun _ => parallel_pure _

/-! ## Values -/

theorem AgreeBut.eval {s t : State} (h : AgreeBut cx hidden s t) {e : Expr}
    (he : e.avoids hidden = true) : e.eval (t.scoping cx) = e.eval (s.scoping cx) :=
  Expr.eval_of_meaning (show (t.scoping cx).final = (s.scoping cx).final from rfl) e
    fun name hname => h.meaning name (bne_iff_ne.mp (List.all_eq_true.mp he name hname))

theorem AgreeBut.needsLong {s t : State} (h : AgreeBut cx hidden s t) {e : Expr}
    (he : e.avoids hidden = true) : e.needsLong (t.scoping cx) = e.needsLong (s.scoping cx) :=
  Expr.needsLong_of_meaning e
    fun name hname => h.meaning name (bne_iff_ne.mp (List.all_eq_true.mp he name hname))

theorem parallel_evaluate {e : Expr} (he : e.avoids hidden = true) :
    Parallel cx hidden (evaluate cx e) (evaluate cx e) := by
  refine parallel_get fun s t hst => ?_
  rw [hst.eval he]
  cases e.eval (s.scoping cx) with
  | error error => cases error <;> exact parallel_error _ _
  | ok result =>
    cases result with
    | known kind value => exact parallel_pure _
    | unknown name =>
      intro s t _ a s' h
      cases h
      exact ⟨[], _, rfl, wrote_mention name s, wrote_mention name t⟩

/-- The writing of a known value, which is remembered if `seen` tells of a block and a label in
    it. -/
def writeKnown (width : Width) (e : Expr) (addr : Nat) (value : Int32)
    (seen : Bool × Option String) : Step Unit := do
  if seen.1 then
    match seen.2 with
    | some symbol => addFixup { symbol, expr := e, target := .image addr width }
    | none => pure ()
  store (width.bytes value)

theorem writeKnown_eq (width : Width) (e : Expr) (addr : Nat) (value : Int32)
    (seen : Bool × Option String) :
    ∃ note, Silent note ∧ writeKnown width e addr value seen =
    (do note; store (width.bytes value)) := by
  obtain ⟨inBlock, label⟩ := seen
  cases inBlock with
  | false => exact ⟨pure (), silent_pure, rfl⟩
  | true =>
    cases label with
    | none => exact ⟨pure (), silent_pure, rfl⟩
    | some symbol => exact ⟨_, silent_addFixup _, rfl⟩

theorem parallel_writeKnown (width : Width) (e : Expr) (addr addr' : Nat) (value : Int32)
    (seen seen' : Bool × Option String) :
    Parallel cx hidden (writeKnown width e addr value seen)
      (writeKnown width e addr' value seen') := by
  obtain ⟨note, hnote, heq⟩ := writeKnown_eq width e addr value seen
  obtain ⟨note', hnote', heq'⟩ := writeKnown_eq width e addr' value seen'
  rw [heq, heq']
  exact (hnote.parallel hnote').bind fun _ => parallel_store _

theorem parallel_writeValue (width : Width) {e : Expr} (he : e.avoids hidden = true) :
    Parallel cx hidden (writeValue cx width e) (writeValue cx width e) := by
  refine parallel_get fun s t _ => (parallel_evaluate he).bind fun result => ?_
  cases result with
  | unknown symbol =>
    exact ((silent_addFixup _).parallel (silent_addFixup _)).bind fun _ => parallel_store _
  | known kind value =>
    refine parallel_get fun s₁ t₁ _ => ?_
    exact parallel_writeKnown width e s.image.cursor t.image.cursor value
      (s₁.vocabulary.isSome, s₁.globalLabelIn e) (t₁.vocabulary.isSome, t₁.globalLabelIn e)

theorem parallel_values (width : Width) {es : List Expr} (hes : es.all (·.avoids hidden) = true) :
    Parallel cx hidden (values cx width es) (values cx width es) :=
  parallel_forM fun e he => parallel_writeValue width (List.all_eq_true.mp hes e he)

theorem parallel_stringData (text : String) :
    Parallel cx hidden (stringData text) (stringData text) := by
  refine parallel_get fun s t hst => ?_
  rw [hst.encoder]
  exact (parallel_store _).bind fun _ =>
    (silent_collectText text).parallel (silent_collectText text)

/-! ## Instructions -/

theorem parallel_argument {e : Expr} (he : e.avoids hidden = true) :
    Parallel cx hidden (argument cx e) (argument cx e) := by
  refine (parallel_evaluate he).bind fun result => ?_
  cases result with
  | unknown symbol => exact parallel_pure _
  | known kind value =>
    have hplain : Parallel cx hidden
        (do
          if fitsByte value && !e.needsLong ((← get).scoping cx) then
            return { operand := .byte (UInt8.ofInt value.toInt), expr := e : Argument }
          else return { operand := .word (lowWord value), expr := e })
        (do
          if fitsByte value && !e.needsLong ((← get).scoping cx) then
            return { operand := .byte (UInt8.ofInt value.toInt), expr := e }
          else return { operand := .word (lowWord value), expr := e }) := by
      refine parallel_get fun s t hst => ?_
      rw [hst.needsLong he]
      split <;> exact parallel_pure _
    cases kind with
    | var => exact parallel_pure _
    | _ => exact hplain

theorem parallel_arguments {op : Opcode} {operands : List Expr}
    (hop : operands.length ≤ 4 → op.name ≠ "JUMP")
    (havoids : ∀ e ∈ operands, e.avoids hidden = true) (address address' : Nat) :
    Parallel cx hidden (arguments cx op address operands) (arguments cx op address' operands) := by
  unfold arguments
  split
  · next e =>
    rw [if_neg (hop (by simp)), if_neg (hop (by simp))]
    exact (parallel_argument (havoids e (List.mem_singleton.mpr rfl))).bind fun _ => parallel_pure _
  · exact parallel_mapM fun e he => parallel_argument (havoids e he)

theorem parallel_storeTarget {target : Option Expr}
    (havoids : ∀ e ∈ target, e.avoids hidden = true) :
    Parallel cx hidden (target.mapM (storeVariable cx)) (target.mapM (storeVariable cx)) := by
  cases target with
  | none => exact parallel_pure _
  | some e =>
    refine Parallel.bind (m := storeVariable cx e) ?_ fun _ => parallel_pure _
    refine (parallel_evaluate (havoids e rfl)).bind fun result => ?_
    cases result with
    | unknown symbol => exact parallel_pure _
    | known kind value =>
      cases kind with
      | var => exact parallel_pure _
      | _ => exact parallel_error _ _

/-- The branch of an instruction with its destination found. -/
def branchField (branch : Option Branch) : Step (Option BranchField) :=
  branch.mapM fun b => do return { onTrue := b.onTrue, destination := ← destination b.target }

/-- The request for an instruction whose names are read. -/
def requestOf (i : Instruction) (op : Opcode) (args : List Argument)
    (target : Option (UInt8 × Option String)) (branch : Option BranchField) (s : State) :
    Request where
  opcode := op
  operands := args.map (·.operand)
  store := target.map (·.1)
  branch := branch
  text := i.text.map s.encoder.encode
  address := s.image.cursor

/-- The end of an instruction: its bytes are stored, and what waits for a value is noted. -/
def emit (i : Instruction) (op : Opcode) (args : List Argument)
    (target : Option (UInt8 × Option String)) (branch : Option BranchField) : Step Unit := do
  let s ← get
  match encode (requestOf i op args target branch s) with
  | .error error => skip (.encoding error)
  | .ok encoded =>
    store encoded.bytes
    finishInstruction i s.image.cursor args target encoded

theorem silent_finishInstruction (i : Instruction) (address : Nat) (args : List Argument)
    (target : Option (UInt8 × Option String)) (encoded : Encoded) :
    Silent (finishInstruction i address args target encoded) := by
  have htext : Silent (match i.text with
      | some text => collectText text
      | none => pure ()) := by
    split
    · exact silent_collectText _
    · exact silent_pure
  unfold finishInstruction
  refine Silent.bind (silent_forM (fun pair => ?_) _) ?_
  · dsimp only
    split
    · exact silent_addFixup _
    · exact silent_pure
  · dsimp only
    split
    · exact (silent_addFixup _).bind htext
    · exact htext

theorem emit_of_ok {i : Instruction} {op : Opcode} {args : List Argument}
    {target : Option (UInt8 × Option String)} {branch : Option BranchField} {s : State}
    {encoded : Encoded} (h : encode (requestOf i op args target branch s) = .ok encoded) :
    ∃ t, emit i op args target branch s = .ok () t ∧ Wrote encoded.bytes s t := by
  obtain ⟨t, ht, hwrote⟩ := silent_finishInstruction i s.image.cursor args target encoded
    { s with image := s.image.store encoded.bytes }
  refine ⟨t, ?_, ?_⟩
  · unfold emit
    rw [get_bind, h]
    exact ht
  · have hboth := (wrote_store encoded.bytes s).trans hwrote
    rwa [List.append_nil] at hboth

theorem emit_of_error {i : Instruction} {op : Opcode} {args : List Argument}
    {target : Option (UInt8 × Option String)} {branch : Option BranchField} {s : State}
    {error : EncodeError}
    (h : encode (requestOf i op args target branch s) = .error error) :
    emit i op args target branch s = .error (.skip (.encoding error)) s := by
  unfold emit
  rw [get_bind, h]
  rfl

/-- The names of the instruction have been read, from `s` to `s₁`, and its end is left. -/
structure Readied (cx : Context) (i : Instruction) (op : Opcode) (args : List Argument)
    (target : Option (UInt8 × Option String)) (s s₁ : State) : Prop where
  select : Opcode.select i.opcode i.operands.length cx.version = .found op
  shape : shapeProblem? i op = none
  wrote : Wrote [] s s₁
  rest : instruction cx i s = (branchField i.branch >>= emit i op args target) s₁

theorem plainOperands_iff {i : Instruction} : plainOperands hidden i = true ↔
    isJump i = false ∧ (∀ e ∈ i.operands, e.avoids hidden = true) ∧ ∀ e ∈ i.store,
    e.avoids hidden = true := by
  unfold plainOperands
  simp only [Bool.and_eq_true, Bool.not_eq_true', List.all_append, List.all_eq_true,
    Option.mem_toList, Option.mem_def]

theorem bind_congr_at {m : Step α} {f g : α → Step β} {s : State}
    (h : ∀ a t, m s = .ok a t → f a t = g a t) : (m >>= f) s = (m >>= g) s := by
  cases hm : m s with
  | ok a t => rw [bind_of_ok hm, bind_of_ok hm, h a t hm]
  | error e t => rw [bind_of_error hm, bind_of_error hm]

theorem readied_of_ok {i : Instruction} {op : Opcode} {args : List Argument}
    {target : Option (UInt8 × Option String)} {s s₁ s₂ : State} {bytes : List UInt8}
    (hselect : Opcode.select i.opcode i.operands.length cx.version = .found op)
    (hshape : shapeProblem? i op = none)
    (hargs : arguments cx op s.image.cursor i.operands s = .ok args s₁)
    (htarget : i.store.mapM (storeVariable cx) s₁ = .ok target s₂) (hwrote : Wrote bytes s s₂) :
    Readied cx i op args target s s₂ := by
  have himage : s₂.image = s.image :=
    ((work_storeTarget (.refl cx) i.store s₁).quiet.of_ok htarget).image.trans
      ((work_arguments (.refl cx) op _ _ s).quiet.of_ok hargs).image
  refine ⟨hselect, hshape, { hwrote with image := himage }, ?_⟩
  have hop : selectOpcode cx i.opcode i.operands.length s = .ok op s := by
    unfold selectOpcode
    rw [hselect]
    rfl
  unfold instruction
  rw [bind_of_ok hop]
  dsimp only
  rw [hshape]
  refine (bind_of_ok (m := position) (a := s.image.cursor) (t := s) rfl).trans ?_
  refine (bind_of_ok hargs).trans
    ((bind_of_ok htarget).trans (bind_congr_at fun branch u hbranch => ?_))
  have hlooks : Work .idle 0 cx cx .looking s₂ _ _ := work_branchField i.branch s₂
  have hcursor : s.image.cursor = u.image.cursor := by
    rw [(hlooks.quiet.of_ok hbranch).image, himage]
  rw [get_bind, hcursor]
  rfl

/-- Of the branch, the shape of an instruction asks only whether there is one. -/
theorem shapeProblem_branch {i : Instruction} {branch : Option Branch}
    (h : branch.isSome = i.branch.isSome) (op : Opcode) :
    shapeProblem? { i with branch } op = shapeProblem? i op := by
  have hnone : branch.isNone = i.branch.isNone := by rw [← Option.not_isSome, h, Option.not_isSome]
  unfold shapeProblem?
  dsimp only
  rw [h, hnone]

theorem readied_parallel {i : Instruction} (hplain : plainOperands hidden i = true) {s s' t : State}
    (hst : AgreeBut cx hidden s t) (h : instruction cx i s = .ok () s') :
    ∃ op args target s₁ t₁, AgreeBut cx hidden s₁ t₁ ∧ Readied cx i op args target s s₁ ∧
      ∀ branch : Option Branch, branch.isSome = i.branch.isSome →
        Readied cx { i with branch } op args target t t₁ := by
  obtain ⟨hjump, hoperands, hstore⟩ := plainOperands_iff.mp hplain
  unfold instruction at h
  obtain ⟨op, s₀, hselect, h₁⟩ := bind_ok h
  obtain ⟨hfound, hs₀⟩ := selectOpcode_ok hselect
  subst s₀
  cases hshape : shapeProblem? i op with
  | some problem =>
    rw [hshape] at h₁
    cases h₁
  | none =>
    rw [hshape] at h₁
    obtain ⟨address, s₁, hposition, h₂⟩ := bind_ok h₁
    cases hposition
    obtain ⟨args, s₁, hargs, h₃⟩ := bind_ok h₂
    obtain ⟨target, s₂, htarget, -⟩ := bind_ok h₃
    have hname : i.operands.length ≤ 4 → op.name ≠ "JUMP" := by
      intro hcount heq
      rw [select_name hcount hfound] at heq
      rw [isJump, heq] at hjump
      cases hjump
    obtain ⟨first, t₁, hargs', hs₁, ht₁⟩ :=
      parallel_arguments hname hoperands s.image.cursor t.image.cursor s t hst args s₁ hargs
    obtain ⟨second, t₂, htarget', hs₂, ht₂⟩ :=
      parallel_storeTarget hstore s₁ t₁ (hst.wrote hs₁ ht₁) target s₂ htarget
    refine ⟨op, args, target, s₂, t₂, hst.wrote (hs₁.trans hs₂) (ht₁.trans ht₂),
      readied_of_ok hfound hshape hargs htarget (hs₁.trans hs₂), fun branch hbranch => ?_⟩
    exact readied_of_ok hfound ((shapeProblem_branch hbranch op).trans hshape) hargs' htarget'
      (ht₁.trans ht₂)

/-- A return is encoded alike everywhere. -/
theorem encode_of_returns {req : Request}
    (h : ∀ field ∈ req.branch, ∃ value, field.destination = .ret value) (address : Nat) :
    encode { req with address } = encode req := by
  unfold encode
  dsimp only
  cases hbranch : req.branch with
  | none => rfl
  | some field =>
    obtain ⟨value, hvalue⟩ := h field hbranch
    dsimp only
    unfold branchBytes
    rw [hvalue]

theorem branchField_returns {branch : Option Branch} (h : branch.all Branch.returns = true) :
    ∃ field, branchField branch = pure field ∧
      ∀ f ∈ field, ∃ value, f.destination = .ret value := by
  cases branch with
  | none => exact ⟨none, rfl, fun f hf => by cases hf⟩
  | some b =>
    obtain ⟨onTrue, target⟩ := b
    cases target with
    | label name => cases h
    | returnTrue =>
      refine ⟨some ⟨onTrue, .ret true⟩, rfl, fun f hf => ?_⟩
      cases hf
      exact ⟨true, rfl⟩
    | returnFalse =>
      refine ⟨some ⟨onTrue, .ret false⟩, rfl, fun f hf => ?_⟩
      cases hf
      exact ⟨false, rfl⟩

theorem AgreeBut.requestOf {s t : State} (h : AgreeBut cx hidden s t) (i : Instruction)
    (op : Opcode) (args : List Argument) (target : Option (UInt8 × Option String))
    (branch : Option BranchField) :
    requestOf i op args target branch t =
      { Assembly.requestOf i op args target branch s with address := t.image.cursor } := by
  unfold Assembly.requestOf
  rw [h.encoder]

/-- What an instruction that succeeds has stored. -/
theorem emit_ok {i : Instruction} {op : Opcode} {args : List Argument}
    {target : Option (UInt8 × Option String)} {branch : Option BranchField} {s t : State}
    (h : emit i op args target branch s = .ok () t) : ∃ encoded,
      encode (requestOf i op args target branch s) = .ok encoded ∧ Wrote encoded.bytes s t := by
  cases hencode : encode (Assembly.requestOf i op args target branch s) with
  | error error =>
    rw [emit_of_error hencode] at h
    cases h
  | ok encoded =>
    obtain ⟨u, hu, hwrote⟩ := emit_of_ok hencode
    rw [hu] at h
    cases h
    exact ⟨encoded, rfl, hwrote⟩

theorem parallel_instruction {i : Instruction} (hplain : plainOperands hidden i = true)
    (hreturns : i.branch.all Branch.returns = true) :
    Parallel cx hidden (instruction cx i) (instruction cx i) := by
  rintro s t hst ⟨⟩ s' h
  obtain ⟨op, args, target, s₁, t₁, hst₁, hs, ht⟩ := readied_parallel hplain hst h
  have ht : Readied cx i op args target t t₁ := ht i.branch rfl
  obtain ⟨field, hfield, hret⟩ := branchField_returns hreturns
  rw [hs.rest, hfield] at h
  obtain ⟨encoded, hencoded, hwrote⟩ := emit_ok (h : emit i op args target field s₁ = .ok () s')
  have hencoded' : encode (requestOf i op args target field t₁) = .ok encoded := by
    rw [hst₁.requestOf, encode_of_returns hret, hencoded]
  obtain ⟨t', ht', hwrote'⟩ := emit_of_ok hencoded'
  refine ⟨encoded.bytes, t', ?_, hs.wrote.trans hwrote, ht.wrote.trans hwrote'⟩
  rw [ht.rest, hfield]
  exact ht'

theorem parallel_node {n : Node} (hfixed : fixedSize hidden n = true) :
    Parallel cx hidden (node cx n) (node cx n) := by
  unfold fixedSize at hfixed
  split at hfixed
  · next values hk =>
    rw [node_directive hk]
    exact parallel_values .byte hfixed
  · next values hk =>
    rw [node_directive hk]
    exact parallel_values .word hfixed
  · next text hk =>
    rw [node_directive hk]
    exact parallel_stringData text
  · next i hk =>
    rw [node_instruction hk]
    rw [Bool.and_eq_true] at hfixed
    exact parallel_instruction hfixed.1 hfixed.2
  · cases hfixed

/-! ## Visits -/

/-- A visit that adds no error is one in which the node did its work. -/
theorem node_of_visit {index : Nat} {n : Node} {s t : State} (h : visit cx index n s = .ok () t)
    (herrors : errorCount t.diagnostics.toList ≤ errorCount s.diagnostics.toList) :
    node cx n (s.reach index n) = .ok () t := by
  rcases visit_cases h with hok | ⟨problem, u, herror, rfl⟩
  · exact hok
  · have honward : Onward (s.reach index n) u :=
      ((node_acts cx (s.reach index n) rfl).of_error herror).onward
    have hle : errorCount s.diagnostics.toList ≤ errorCount u.diagnostics.toList :=
      errorCount_mono honward.grows.diagnostics
    rw [errorCount_report] at herrors
    omega

theorem visit_str (index : Nat) {n : Node} {text : String} (hn : n.kind = .directive (.str text))
    (s : State) : visit cx index n s = .ok () { s.reach index n with
      image := s.image.store (s.encoder.encode text), text := s.text.map (·.add text) } := by
  refine visit_of_ok ?_
  rw [node_directive hn]
  rfl

theorem ofNat_eq_iff {m n : Nat} (hm : m < 4294967296) (hn : n < 4294967296) :
    Int32.ofNat m = Int32.ofNat n ↔ m = n := by
  constructor
  · intro h
    have hvalue := congrArg (fun k : Int32 => k.toUInt32.toNat) h
    simp only [Int32.toUInt32_ofNat', UInt32.toNat_ofNat'] at hvalue
    omega
  · rintro rfl
    rfl

/-- A local label where the walk has it predeclared: it is where it was guessed, or the walk has to
    be repeated. -/
theorem visit_localLabel {index : Nat} {n : Node} {label : String} (hn : n.kind = .localLabel label)
    {s : State} {scope : RoutineScope} (hscope : s.scope = some scope) {table : SymbolTable}
    {guess : Int32} (hlocals : s.locals = table.predeclare label guess) :
    ∃ locals log, visit cx index n s = .ok () { s.reach index n with
        locals, log, scope := some (if guess = Int32.ofNat s.image.cursor then scope
          else scope.recordMove label (Int32.ofNat s.image.cursor)) } ∧
      ∀ other, other ≠ label → locals.lookup other = s.locals.lookup other := by
  have hlookup : s.locals.lookup label = some ⟨label, .label, guess, true, none⟩ := by
    rw [hlocals, SymbolTable.predeclare, SymbolTable.lookup_put, if_pos rfl]
  have hconfirm : s.locals.confirm label (Int32.ofNat s.image.cursor) =
      (if guess = Int32.ofNat s.image.cursor then .confirmed else .moved guess
        (Int32.ofNat s.image.cursor),
        s.locals.put ⟨label, .label, Int32.ofNat s.image.cursor, false, none⟩) := by
    unfold SymbolTable.confirm
    rw [hlookup]
    rfl
  have hnode : node cx n (s.reach index n) = localLabel label (s.reach index n) := by
    rw [node_localLabel hn]
  have hothers : ∀ other, other ≠ label →
      (s.locals.put ⟨label, .label, Int32.ofNat s.image.cursor, false, none⟩).lookup other =
        s.locals.lookup other := by
    intro other hother
    rw [SymbolTable.lookup_put, if_neg fun heq => hother heq.symm]
  have heq := localLabel_eq label (s.reach index n)
  rw [show (s.reach index n).scope = some scope from hscope] at heq
  dsimp only at heq
  rw [show (s.reach index n).locals.confirm label (Int32.ofNat (s.reach index n).image.cursor) = _
    from hconfirm] at heq
  by_cases hstands : guess = Int32.ofNat s.image.cursor
  · rw [if_pos hstands] at heq ⊢
    refine ⟨_, s.log, visit_of_ok (hnode.trans (heq.trans ?_)), hothers⟩
    rw [← hscope]
    rfl
  · rw [if_neg hstands] at heq ⊢
    exact ⟨_, _, visit_of_ok (hnode.trans heq), hothers⟩

theorem visit_parallel {n : Node} (hfixed : fixedSize hidden n = true) {index : Nat}
    {s s' t : State} (hst : AgreeBut cx hidden s t) (h : visit cx index n s = .ok () s')
    (herrors : errorCount s'.diagnostics.toList ≤ errorCount s.diagnostics.toList) (place : Nat) :
    ∃ bytes t', visit cx place n t = .ok () t' ∧ Wrote bytes s s' ∧ Wrote bytes t t' := by
  have hreached := hst.wrote (wrote_reach index n s) (wrote_reach place n t)
  obtain ⟨bytes, t', ht', hs, ht⟩ :=
    parallel_node hfixed _ _ hreached () s' (node_of_visit h herrors)
  exact ⟨bytes, t', visit_of_ok ht', (wrote_reach index n s).trans hs,
    (wrote_reach place n t).trans ht⟩

/-- Nodes of a fixed size that one walk reads without an error write the same bytes in another. -/
theorem visitAll_parallel {nodes : List Node} (hfixed : ∀ n ∈ nodes, fixedSize hidden n = true)
    {index : Nat} {s s' t : State} (hst : AgreeBut cx hidden s t)
    (h : visitAll cx index nodes s = .ok () s')
    (herrors : errorCount s'.diagnostics.toList ≤ errorCount s.diagnostics.toList) (place : Nat) :
    ∃ bytes t', visitAll cx place nodes t = .ok () t' ∧ Wrote bytes s s' ∧ Wrote bytes t t' := by
  induction nodes generalizing index place s t with
  | nil =>
    cases h
    exact ⟨[], t, rfl, .refl _, .refl t⟩
  | cons n rest ih =>
    obtain ⟨⟨⟩, s₁, hn, hrest⟩ := bind_ok h
    have hfirst : errorCount s.diagnostics.toList ≤ errorCount s₁.diagnostics.toList :=
      errorCount_mono ((visit_onward cx index n s).of_ok hn).grows.diagnostics
    have hlast : errorCount s₁.diagnostics.toList ≤ errorCount s'.diagnostics.toList :=
      errorCount_mono ((visitAll_onward cx (index + 1) rest s₁).of_ok hrest).grows.diagnostics
    obtain ⟨first, t₁, ht₁, hs, ht⟩ :=
      visit_parallel (hfixed n (List.mem_cons_self ..)) hst hn (by omega) place
    obtain ⟨second, t', ht', hs', ht'₁⟩ :=
      ih (fun m hm => hfixed m (List.mem_cons_of_mem _ hm)) (hst.wrote hs ht) hrest
        (by omega) (place + 1)
    exact ⟨first ++ second, t', (bind_of_ok ht₁).trans ht', hs.trans hs', ht.trans ht'₁⟩

/-! ## A branch to a label -/

theorem table_branches : ∀ op ∈ Opcode.table, op.branches = true → op.printsText = false := by
  decide +kernel

/-- An instruction that branches has no text. -/
theorem text_of_branch {i : Instruction} {op : Opcode} (hop : op ∈ Opcode.table)
    (hshape : shapeProblem? i op = none) (hbranch : i.branch.isSome = true) : i.text = none := by
  have hprints := table_branches op hop ((branches_of_shape hshape).symm.trans hbranch)
  cases htext : i.text with
  | none => rfl
  | some text =>
    unfold shapeProblem? at hshape
    split at hshape
    · cases hshape
    · split at hshape
      · cases hshape
      · split at hshape
        · cases hshape
        · rw [if_pos (by simp [htext, hprints])] at hshape
          cases hshape

theorem destination_label {name : String} {x : Symbol} {s : State} (hscope : s.scope.isSome = true)
    (hx : s.locals.lookup name = some x) (hkind : x.kind = .label) :
    destination (.label name) s = .ok (.address x.value.toUInt32.toNat) s := by
  unfold destination
  dsimp only
  rw [get_bind, if_neg (by simp [Option.isSome_iff_ne_none.mp hscope]), hx]
  dsimp only
  rw [if_pos hkind]
  rfl

/-- The encoding of a request for a branch, by its branch field. -/
theorem encode_branch (req : Request) {field : BranchField} (htext : req.text = none)
    (hcount : countFits req.opcode req.operands) (hfield : req.branch = some field) :
    (∀ bytes long, branchBytes field (req.address + (stored req).length) =
        .ok (bytes, long) →
      ∃ encoded, encode req = .ok encoded ∧ encoded.bytes = stored req ++ bytes) ∧
    ∀ error, branchBytes field (req.address + (stored req).length) = .error error →
      encode req = .error error := by
  have hpart : branchPart req =
      branchBytes field (req.address + (stored req).length) := by
    unfold branchPart
    rw [hfield]
    rfl
  rw [encode_of_countFits req hcount, hpart]
  refine ⟨fun bytes long h => ?_, fun error h => by rw [h]; rfl⟩
  rw [h]
  refine ⟨_, rfl, ?_⟩
  show stored req ++ bytes ++ req.text.getD [] = _
  rw [htext, Option.getD_none, List.append_nil]

/-- An instruction that branches to a label, where it could be encoded as a return: before its
    branch field it writes the same bytes, and it is given up, with nothing written, if there is no
    field that reaches the label. -/
theorem branching_cases {i : Instruction} {b : Branch} {name : String} {x : Symbol} {s s' t : State}
    (hst : AgreeBut cx hidden s t) (hplain : plainOperands hidden i = true)
    (hbranch : i.branch = some b) (hlabel : b.target = .label name) (hscope : t.scope.isSome = true)
    (hx : t.locals.lookup name = some x) (hkind : x.kind = .label)
    (h : instruction cx i.returning s = .ok () s') :
    ∃ front last, front.length ≤ 20 ∧ Wrote (front ++ [last]) s s' ∧
      (∀ bytes long, branchBytes ⟨b.onTrue, .address x.value.toUInt32.toNat⟩
          (t.image.cursor + front.length) = .ok (bytes, long) →
        ∃ t', instruction cx i t = .ok () t' ∧ Wrote (front ++ bytes) t t') ∧
      ∀ error, branchBytes ⟨b.onTrue, .address x.value.toUInt32.toNat⟩
          (t.image.cursor + front.length) = .error error →
        ∃ t', instruction cx i t = .error (.skip (.encoding error)) t' ∧ Wrote [] t t' := by
  have hreturning : i.returning = { i with branch := some { b with target := .returnTrue } } := by
    unfold Instruction.returning
    rw [hbranch]
    rfl
  obtain ⟨op, args, target, s₁, t₁, hst₁, hs, ht⟩ :=
    readied_parallel (i := i.returning) (by rw [hreturning]; exact hplain) hst h
  have ht : Readied cx i op args target t t₁ := ht i.branch (by rw [hreturning, hbranch]; rfl)
  have hfield₀ : branchField i.returning.branch = pure (some ⟨b.onTrue, .ret true⟩) := by
    rw [hreturning]
    rfl
  have hfield : branchField i.branch t₁ =
      .ok (some ⟨b.onTrue, .address x.value.toUInt32.toNat⟩) t₁ := by
    have hd : destination b.target t₁ = .ok (.address x.value.toUInt32.toNat) t₁ := by
      rw [hlabel]
      exact destination_label (ht.wrote.scope ▸ hscope) (ht.wrote.locals ▸ hx) hkind
    rw [hbranch]
    exact bind_of_ok (bind_of_ok hd)
  rw [hs.rest, hfield₀] at h
  obtain ⟨encoded, hencoded, hwrote⟩ :=
    emit_ok (h : emit i.returning op args target (some ⟨b.onTrue, .ret true⟩) s₁ = .ok () s')
  have hcount := countFits_of_encode hencoded
  have htext : i.text = none :=
    text_of_branch (select_found ht.select).1 ht.shape (by rw [hbranch]; rfl)
  let req := requestOf i op args target (some ⟨b.onTrue, .address x.value.toUInt32.toNat⟩) t₁
  have hnone : req.text = none := by
    show i.text.map _ = none
    rw [htext]
    rfl
  have hcursor : req.address = t.image.cursor := congrArg Image.cursor ht.wrote.image
  obtain ⟨hok, herror⟩ := encode_branch req hnone hcount rfl
  rw [hcursor] at hok herror
  -- the return takes one byte where the branch has its field
  obtain ⟨encoded', hencoded', hbytes⟩ := (encode_branch
    (requestOf i.returning op args target (some ⟨b.onTrue, .ret true⟩) s₁) (by
      show i.text.map _ = none
      rw [htext]
      rfl) hcount rfl).1 _ _ rfl
  rw [hencoded] at hencoded'
  cases hencoded'
  rw [hbytes] at hwrote
  have hlength : (stored req).length ≤ 20 :=
    length_stored_le req (table_formFits op (select_found ht.select).1) hcount
  refine ⟨stored req, _, hlength, hs.wrote.trans hwrote, fun bytes long hreach => ?_,
    fun error hfail => ?_⟩
  · obtain ⟨encoded', hencoded', hbytes'⟩ := hok bytes long hreach
    obtain ⟨t', ht', hwrote'⟩ := emit_of_ok hencoded'
    rw [hbytes'] at hwrote'
    refine ⟨t', ?_, ht.wrote.trans hwrote'⟩
    rw [ht.rest, bind_of_ok hfield]
    exact ht'
  · refine ⟨t₁, ?_, ht.wrote⟩
    rw [ht.rest, bind_of_ok hfield]
    exact emit_of_error (herror error hfail)

end Parallel

/-! ## The head of a routine -/

/-- The state with the padding before a routine. -/
def State.padded (s : State) : State :=
  { s with
    packing := (s.packing.padding .routine s.image.cursor).2
    image := s.image.store (List.replicate (s.packing.padding .routine s.image.cursor).1 0) }

/-- The packed address of a routine that begins here. -/
def State.packedHere (s : State) : Nat := s.packing.pack .routine s.image.cursor

/-- The table of a routine's locals. -/
def declaredLocals (decls : List LocalDecl) : SymbolTable :=
  decls.zipIdx.foldl
    (fun table decl => (table.set decl.1.name .var (Int32.ofNat (decl.2 + 1))).2) .empty

/-- The head of a routine has been read, up to the defaults of its locals. -/
structure Opened (cx : Context) (name : String) (decls : List LocalDecl) (s t : State) : Prop where
  image : t.image = s.padded.image.store [UInt8.ofNat decls.length]
  locals : t.locals = declaredLocals decls
  encoder : t.encoder = s.encoder
  scope : ∀ scope, s.scope = some scope → ∃ deferred, t.scope = some { scope with deferred }
  errors : errorCount t.diagnostics.toList = errorCount s.diagnostics.toList
  others : ∀ other, other ≠ name → t.globals.defined other = s.globals.defined other
  named : ∃ x, t.globals.defined name = some x ∧ x.kind = .routine ∧
    x.value = Int32.ofNat (s.padded.packedHere % 65536) ∧ x.site = some (s.site cx)

section Head

variable {cx : Context} {name : String} {decls : List LocalDecl} {s t : State}

theorem errorCount_warning (s : State) (p : Problem) :
    errorCount (s.report .warning p).diagnostics.toList = errorCount s.diagnostics.toList := by
  unfold errorCount State.report
  rw [Array.toList_push, List.countP_append]
  rfl

/-- The states differ at most in warnings and what was logged. -/
structure Warned (s t : State) : Prop where
  image : t.image = s.image
  globals : t.globals = s.globals
  locals : t.locals = s.locals
  encoder : t.encoder = s.encoder
  scope : t.scope = s.scope
  index : t.index = s.index
  errors : errorCount t.diagnostics.toList = errorCount s.diagnostics.toList

theorem Warned.refl (s : State) : Warned s s := ⟨rfl, rfl, rfl, rfl, rfl, rfl, rfl⟩

theorem warn_warned (cx : Context) (problem : Problem) (s : State) :
    ∃ t, warn cx problem s = .ok () t ∧ Warned s t := by
  obtain ⟨log, h⟩ := warn_eq cx problem s
  exact ⟨_, h, rfl, rfl, rfl, rfl, rfl, rfl, errorCount_warning s problem⟩

theorem placePacked_padded (cx : Context) (name : String) (s : State) :
    placePacked cx .routine name s = (do
      if 0xFFFF < s.padded.packedHere then warn cx (.packedOverflow s.padded.packedHere name)
      return s.padded.packedHere : Step Nat) s.padded :=
  rfl

theorem placePacked_warned (cx : Context) (name : String) (s : State) :
    ∃ t, placePacked cx .routine name s = .ok s.padded.packedHere t ∧ Warned s.padded t := by
  rw [placePacked_padded]
  split
  · obtain ⟨t, hwarn, hwarned⟩ :=
      warn_warned cx (.packedOverflow s.padded.packedHere name) s.padded
    exact ⟨t, (bind_of_ok hwarn).trans rfl, hwarned⟩
  · exact ⟨_, rfl, .refl _⟩

/-- A definition in a routine succeeds unless another node of the pass has made one. -/
theorem defineGlobal_in_routine (kind : SymbolKind) (value : Int32) {scope : RoutineScope}
    (hscope : s.scope = some scope)
    (hfree : ¬ Taken s.globals name (s.site cx)) :
    ∃ t x, defineGlobal cx name kind value s = .ok () t ∧ t.globals = s.globals.put x ∧
      Entered x name kind value (s.site cx) ∧ t.image = s.image ∧ t.locals = s.locals ∧
      t.encoder = s.encoder ∧ t.diagnostics = s.diagnostics ∧
      ∃ deferred, t.scope = some { scope with deferred } := by
  obtain ⟨htaken, -⟩ | ⟨-, x, hx, heq⟩ := defineGlobal_cases cx name kind value s
  · exact absurd htaken hfree
  rw [heq]
  cases s.globals.valueOf name with
  | none => exact ⟨_, x, rfl, rfl, hx, rfl, rfl, rfl, rfl, scope.deferred, hscope⟩
  | some old =>
    dsimp only
    split
    · exact ⟨_, x, rfl, rfl, hx, rfl, rfl, rfl, rfl, scope.deferred, hscope⟩
    · rw [noteChange_eq]
      dsimp only
      rw [hscope]
      cases s.vocabulary with
      | some v => exact ⟨_, x, rfl, rfl, hx, rfl, rfl, rfl, rfl, scope.deferred, rfl⟩
      | none =>
        refine ⟨_, x, rfl, rfl, hx, rfl, rfl, rfl, rfl, (scope.defer name old).deferred, ?_⟩
        unfold RoutineScope.defer
        dsimp only
        split <;> rfl

theorem headOpening_of_free {scope : RoutineScope} (hscope : s.scope = some scope)
    (hfree : ¬ Taken s.globals name (s.site cx)) (hfew : decls.length ≤ maxLocals) :
    ∃ t, headOpening cx name decls s = .ok s.padded.image.cursor t ∧ Opened cx name decls s t := by
  obtain ⟨t₁, hplace, hwarned⟩ := placePacked_warned cx name { s with locals := .empty }
  have hsite : t₁.site cx = s.site cx := by
    unfold State.site
    rw [hwarned.index]
    rfl
  have hfree₁ : ¬ Taken t₁.globals name (t₁.site cx) := by
    rw [hsite, hwarned.globals]
    exact hfree
  obtain ⟨t₂, x, hdefine, hglobals, hx, himage, hlocals, hencoder, hdiagnostics,
    deferred, hdeferred⟩ :=
    defineGlobal_in_routine .routine (Int32.ofNat (s.padded.packedHere % 65536))
      (hwarned.scope.trans hscope) hfree₁
  have hcursor : t₁.image.cursor = s.padded.image.cursor := congrArg Image.cursor hwarned.image
  have hempty : t₂.locals = .empty := hlocals.trans hwarned.locals
  have htake : decls.take maxLocals = decls := List.take_of_length_le hfew
  refine ⟨{ t₂ with
    image := t₂.image.store [UInt8.ofNat decls.length], locals := declaredLocals decls }, ?_, ?_⟩
  · unfold headOpening
    rw [modify_bind]
    refine (bind_of_ok hplace).trans ?_
    refine (bind_of_ok (m := position) (a := t₁.image.cursor) (t := t₁) rfl).trans ?_
    refine (bind_of_ok hdefine).trans ?_
    dsimp only
    rw [if_neg (Nat.not_lt.mpr hfew), htake, hcursor]
    unfold declaredLocals
    rw [← hempty]
    rfl
  · refine ⟨?_, rfl, hencoder.trans hwarned.encoder, fun scope' hscope' => ⟨deferred, ?_⟩,
      ?_, ?_, x, ?_, hx.kind, hx.value, hx.site.trans (congrArg some hsite)⟩
    · show t₂.image.store _ = _
      rw [himage, hwarned.image]
      rfl
    · obtain rfl := Option.some.inj (hscope.symm.trans hscope')
      exact hdeferred
    · show errorCount t₂.diagnostics.toList = _
      rw [hdiagnostics]
      exact hwarned.errors
    · intro other hother
      show t₂.globals.defined other = _
      rw [hglobals, defined_put, if_neg fun heq => hother (heq.symm.trans hx.name), hwarned.globals]
      rfl
    · show t₂.globals.defined name = _
      rw [hglobals, defined_put, if_pos hx.name, Option.filter_some, Symbol.isDefined, hx.kind]
      rfl

/-- A head that adds no error finds its name free and has few enough locals. -/
theorem headOpening_free {scope : RoutineScope} (hscope : s.scope = some scope) {start : Nat}
    (h : headOpening cx name decls s = .ok start t)
    (herrors : errorCount t.diagnostics.toList ≤ errorCount s.diagnostics.toList) :
    ¬ Taken s.globals name (s.site cx) ∧ decls.length ≤ maxLocals := by
  obtain ⟨t₁, hplace, hwarned⟩ := placePacked_warned cx name { s with locals := .empty }
  unfold headOpening at h
  rw [modify_bind, bind_of_ok hplace] at h
  obtain ⟨addr, u, hposition, h₁⟩ := bind_ok h
  cases hposition
  obtain ⟨⟨⟩, t₂, hdefine, h₂⟩ := bind_ok h₁
  have hsite : t₁.site cx = s.site cx := by
    unfold State.site
    rw [hwarned.index]
    rfl
  have hfree : ¬ Taken s.globals name (s.site cx) := by
    obtain ⟨-, old, hskip⟩ | ⟨hfree, -⟩ := defineGlobal_cases cx name .routine
      (Int32.ofNat (s.padded.packedHere % 65536)) t₁
    · cases hskip.symm.trans hdefine
    · rw [hsite, hwarned.globals] at hfree
      exact hfree
  refine ⟨hfree, Nat.le_of_not_lt fun hmany => ?_⟩
  obtain ⟨t₃, -, hdefine', -, -, -, -, -, hdiagnostics, -⟩ :=
    defineGlobal_in_routine .routine (Int32.ofNat (s.padded.packedHere % 65536))
      (hwarned.scope.trans hscope) (by rw [hsite, hwarned.globals]; exact hfree)
  obtain rfl : t₃ = t₂ := by
    cases hdefine'.symm.trans hdefine
    rfl
  rw [if_pos hmany] at h₂
  obtain ⟨⟨⟩, t₄, hreport, h₃⟩ := bind_ok h₂
  cases reportError_ok hreport
  cases h₃
  have hmore : errorCount (t₃.report .error (.tooManyLocals decls.length)).diagnostics.toList ≤
      errorCount s.diagnostics.toList := herrors
  have hsame : errorCount t₁.diagnostics.toList = errorCount s.diagnostics.toList := hwarned.errors
  rw [errorCount_report, hdiagnostics, hsame] at hmore
  omega

theorem silent_warn (cx : Context) (problem : Problem) : Silent (warn cx problem) := by
  intro s
  obtain ⟨t, ht, h⟩ := warn_warned cx problem s
  exact ⟨t, ht, h.image, h.locals, fun _ => by rw [h.globals], h.encoder, h.scope, h.errors⟩

theorem parallel_localDefaults {hidden : Option String} (name : String)
    (havoids : ∀ decl ∈ decls, ∀ e ∈ decl.default, e.avoids hidden = true) :
    Parallel cx hidden (localDefaults cx name decls) (localDefaults cx name decls) := by
  unfold localDefaults
  split
  · refine parallel_forM fun decl hdecl => ?_
    cases hdefault : decl.default with
    | none => exact parallel_store _
    | some e => exact parallel_writeValue .word (havoids decl hdecl e hdefault)
  · split
    · exact (silent_warn cx _).parallel (silent_warn cx _)
    · exact (silent_pure).parallel silent_pure

/-- Two walks of the routine `name` begin alike. -/
structure BeginAlike (name : String) (s t : State) : Prop where
  cursor : t.image.cursor = s.image.cursor
  packing : t.packing = s.packing
  encoder : t.encoder = s.encoder
  globals : ∀ other, other ≠ name → (t.globals.defined other).map (fun x => (x.kind, x.value)) =
    (s.globals.defined other).map fun x => (x.kind, x.value)

theorem cursor_store_congr {im im' : Image} (h : im'.cursor = im.cursor) (bytes : List UInt8) :
    (im'.store bytes).cursor = (im.store bytes).cursor := by
  induction bytes generalizing im im' with
  | nil => exact h
  | cons b rest ih =>
    refine ih ?_
    show wrapAddress (im'.cursor + 1) = wrapAddress (im.cursor + 1)
    rw [h]

theorem BeginAlike.padded (h : BeginAlike name s t) :
    t.padded.image.cursor = s.padded.image.cursor := by
  show (t.image.store _).cursor = (s.image.store _).cursor
  rw [h.packing, h.cursor]
  exact cursor_store_congr h.cursor _

theorem BeginAlike.packedHere (h : BeginAlike name s t) :
    t.padded.packedHere = s.padded.packedHere := by
  show t.padded.packing.pack .routine t.padded.image.cursor =
    s.padded.packing.pack .routine s.padded.image.cursor
  rw [h.padded]
  show (t.packing.padding .routine t.image.cursor).2.pack .routine _ = _
  rw [h.packing, h.cursor]
  rfl

/-- Where two walks begin alike, names mean the same once the heads are opened. -/
theorem Opened.agree {s' t' : State} (hs : Opened cx name decls s s')
    (ht : Opened cx name decls t t') (h : BeginAlike name s t) : AgreeBut cx none s' t' where
  meaning other _ := by
    refine meaning_of_tables (by rw [ht.locals, hs.locals]) ?_
    by_cases hother : other = name
    · subst hother
      obtain ⟨x, hx, hkind, hvalue, -⟩ := hs.named
      obtain ⟨y, hy, hkind', hvalue', -⟩ := ht.named
      rw [hx, hy, Option.map_some, Option.map_some, hkind, hkind', hvalue, hvalue', h.packedHere]
    · rw [ht.others other hother, hs.others other hother, h.globals other hother]
  encoder := by rw [ht.encoder, hs.encoder, h.encoder]

/-- A walk of a routine with one label has read the head, and then nodes that leave symbols
    alone. -/
structure Headed (cx : Context) (name : String) (decls : List LocalDecl) (label : String)
    (scope : RoutineScope) (bytes : List UInt8) (s t : State) : Prop where
  image : t.image = s.image.store bytes
  locals : t.locals = (declaredLocals decls).predeclare label
    (scope.guess label (Int32.ofNat s.padded.image.cursor))
  encoder : t.encoder = s.encoder
  scope : ∃ deferred, t.scope = some { scope with deferred }
  others : ∀ other, other ≠ name → t.globals.defined other = s.globals.defined other
  named : ∃ x, t.globals.defined name = some x ∧ x.kind = .routine ∧
    x.value = Int32.ofNat (s.padded.packedHere % 65536) ∧ x.site = some (s.site cx)

theorem Headed.wrote {label : String} {scope : RoutineScope} {bytes more : List UInt8} {u : State}
    (h : Headed cx name decls label scope bytes s t) (hwrote : Wrote more t u) :
    Headed cx name decls label scope (bytes ++ more) s u where
  image := by rw [hwrote.image, h.image, Image.store_append]
  locals := hwrote.locals.trans h.locals
  encoder := hwrote.encoder.trans h.encoder
  scope := by rw [hwrote.scope]; exact h.scope
  others other hother := (hwrote.globals other).trans (h.others other hother)
  named := by rw [hwrote.globals]; exact h.named

/-- Where two walks begin alike, the names other than the label keep meaning the same. -/
theorem Headed.agree {label : String} {a b : RoutineScope} {bytes bytes' : List UInt8}
    {s' t' : State} (hs : Headed cx name decls label a bytes s s')
    (ht : Headed cx name decls label b bytes' t t') (h : BeginAlike name s t) :
    AgreeBut cx (some label) s' t' where
  meaning other hother := by
    refine meaning_of_tables ?_ ?_
    · have hne : ¬ label = other := fun heq => hother (congrArg some heq.symm)
      rw [ht.locals, hs.locals, SymbolTable.predeclare, SymbolTable.predeclare,
        SymbolTable.lookup_put, SymbolTable.lookup_put, if_neg hne, if_neg hne]
    by_cases hname : other = name
    · subst hname
      obtain ⟨x, hx, hkind, hvalue, -⟩ := hs.named
      obtain ⟨y, hy, hkind', hvalue', -⟩ := ht.named
      rw [hx, hy, Option.map_some, Option.map_some, hkind, hkind', hvalue, hvalue', h.packedHere]
    · rw [ht.others other hname, hs.others other hname, h.globals other hname]
  encoder := by rw [ht.encoder, hs.encoder, h.encoder]

/-- The padding before a routine in state `s`. -/
def State.paddingBytes (s : State) : List UInt8 :=
  List.replicate (s.packing.padding .routine s.image.cursor).1 0

theorem Opened.headed {label : String} {scope : RoutineScope} {u : State} {bytes : List UInt8}
    (h : Opened cx name decls s u) (hscope : s.scope = some scope)
    (hlabels : scope.labels = [label]) (hwrote : Wrote bytes u t) :
    Headed cx name decls label scope (s.paddingBytes ++ (UInt8.ofNat decls.length :: bytes))
      s { t with locals := t.withLabels s.padded.image.cursor } := by
  obtain ⟨deferred, hdeferred⟩ := h.scope scope hscope
  have hscope' : t.scope = some { scope with deferred } := hwrote.scope.trans hdeferred
  obtain ⟨x, hx, hkind, hvalue, hsite⟩ := h.named
  refine ⟨?_, ?_, hwrote.encoder.trans h.encoder, ⟨deferred, hscope'⟩,
    fun other hother => (hwrote.globals other).trans (h.others other hother),
    x, (hwrote.globals name).trans hx, hkind, hvalue, hsite⟩
  · show t.image = _
    rw [hwrote.image, h.image, Image.store_append]
    rfl
  · show t.withLabels _ = _
    unfold State.withLabels
    rw [hscope']
    dsimp only
    rw [hlabels, List.foldl_cons, List.foldl_nil, hwrote.locals, h.locals]
    rfl

/-- What a head has done that adds no error. -/
theorem routineHead_clean {scope : RoutineScope} (hscope : s.scope = some scope)
    (h : routineHead cx name decls s = .ok () t)
    (herrors : errorCount t.diagnostics.toList ≤ errorCount s.diagnostics.toList) :
    ¬ Taken s.globals name (s.site cx) ∧ decls.length ≤ maxLocals ∧ ∃ s₁ s₂,
      Opened cx name decls s s₁ ∧ localDefaults cx name (decls.take maxLocals) s₁ = .ok () s₂ ∧
      t = { s₂ with locals := s₂.withLabels s.padded.image.cursor } := by
  rw [routineHead_eq] at h
  obtain ⟨start, s₁, hopening, h₁⟩ := bind_ok h
  obtain ⟨⟨⟩, s₂, hdefaults, hlabels⟩ := bind_ok h₁
  cases (predeclareLabels_eq start s₂).symm.trans hlabels
  -- the defaults add no error, so the opening adds none either
  obtain ⟨_, -, -, hquiet, -⟩ := parallel_localDefaults name (fun _ _ e _ => e.avoids_none) s₁ s₁
    ⟨fun _ _ => rfl, rfl⟩ () s₂ hdefaults
  obtain ⟨hfree, hfew⟩ := headOpening_free hscope hopening (hquiet.errors ▸ herrors)
  obtain ⟨u, hu, hopened⟩ := headOpening_of_free hscope hfree hfew
  cases hu.symm.trans hopening
  exact ⟨hfree, hfew, s₁, s₂, hopened, hdefaults, rfl⟩

/-- The head of a routine that one walk reads without an error is read alike in another. -/
theorem routineHead_parallel {label : String} {a b : RoutineScope} (ha : s.scope = some a)
    (hla : a.labels = [label]) (hb : t.scope = some b) (hlb : b.labels = [label])
    (hbegin : BeginAlike name s t) (hfree : ¬ Taken t.globals name (t.site cx)) {s' : State}
    (h : routineHead cx name decls s = .ok () s')
    (herrors : errorCount s'.diagnostics.toList ≤ errorCount s.diagnostics.toList) :
    ∃ more t', routineHead cx name decls t = .ok () t' ∧
      errorCount t'.diagnostics.toList = errorCount t.diagnostics.toList ∧
      Headed cx name decls label a (s.paddingBytes ++ (UInt8.ofNat decls.length :: more)) s s' ∧
      Headed cx name decls label b (s.paddingBytes ++ (UInt8.ofNat decls.length :: more)) t t' := by
  obtain ⟨-, hfew, s₁, s₂, hopened, hdefaults, rfl⟩ := routineHead_clean ha h herrors
  obtain ⟨t₁, ht₁, hopened'⟩ := headOpening_of_free hb hfree hfew
  obtain ⟨bytes, t₂, hdefaults', hw, hw'⟩ := parallel_localDefaults name
    (fun _ _ e _ => e.avoids_none) s₁ t₁ (hopened.agree hopened' hbegin) () s₂ hdefaults
  refine ⟨bytes, { t₂ with locals := t₂.withLabels t.padded.image.cursor }, ?_,
    hw'.errors.trans hopened'.errors, hopened.headed ha hla hw, ?_⟩
  · rw [routineHead_eq]
    refine (bind_of_ok ht₁).trans ((bind_of_ok hdefaults').trans ?_)
    exact predeclareLabels_eq _ _
  · have hpadding : s.paddingBytes = t.paddingBytes := by
      unfold State.paddingBytes
      rw [hbegin.packing, hbegin.cursor]
    rw [hpadding]
    exact hopened'.headed hb hlb hw'

end Head

end Assembly

end ZAssembler
