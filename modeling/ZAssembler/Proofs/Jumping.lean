import ZAssembler.Proofs.Abreast
import ZAssembler.Proofs.Rereading

/-
  Jumps and their labels. A jump takes the distance to its label as an operand word. In a settled
  walk the distance is the one to where the label was found (`settled_jump`), but nothing asks
  whether it fits a word: what the machine reads is right modulo 2^16, and leads to the label only
  within the reach of a signed word.

  A jump over a text (`leaping`) shows both. Its run is followed step by step, so that the text may
  be of any length up to the room of a story: a pass takes two walks (`exists_walks`), and the
  program assembles after one measuring pass (`leaping_assembles`).
-/

namespace ZAssembler.Assembly

open Bytecode Machine

/-! ## Operand words -/

/-- The number that a word stands for as a signed one. -/
def signedWord (word : UInt16) : Int :=
  if word.toNat < 32768 then word.toNat else word.toNat - 65536

/-- Where the jump at `address` goes that has this operand. -/
def jumpDestination (address : Nat) (word : UInt16) : Int := address + 3 + signedWord word - 2

theorem toNat_jumpOffset (target address : Nat) :
    (jumpOffset target address).toNat = (((target : Int) - (address + 1)) % 65536).toNat := by
  unfold jumpOffset UInt16.ofInt
  rw [UInt16.toNat_ofNat']
  omega

/-- A jump goes to its target modulo 2^16. -/
theorem jumpDestination_mod (target address : Nat) :
    (jumpDestination address (jumpOffset target address) - target) % 65536 = 0 := by
  unfold jumpDestination signedWord
  rw [toNat_jumpOffset]
  split <;> omega

/-- A jump goes to its target where that is within the reach of a signed word. -/
theorem jumpDestination_eq_iff (target address : Nat) :
    jumpDestination address (jumpOffset target address) = target ↔
      -32768 ≤ (target : Int) - (address + 1) ∧ (target : Int) - (address + 1) ≤ 32767 := by
  unfold jumpDestination signedWord
  rw [toNat_jumpOffset]
  split <;> omega

/-! ## Jumps that have settled -/

/-- What is known of the opcode of a jump. -/
theorem table_jump : ∀ op ∈ Opcode.table, op.name = "JUMP" →
    op.number = 140 ∧ op.stores = false ∧ op.branches = false := by
  decide +kernel

/-- A jump to a local label takes the distance to its value. -/
theorem jumpArgument_label {cx : Context} {name : String} {s : State} {symbol : Symbol}
    (hsymbol : s.locals.lookup name = some symbol) (hkind : symbol.kind = .label) (address : Nat) :
    jumpArgument cx address (.symbol name) s =
      .ok { operand := .word (jumpOffset symbol.value.toUInt32.toNat address)
            expr := .symbol name } s := by
  have heval : (Expr.symbol name).eval (s.scoping cx) = .ok (.known .label symbol.value) := by
    refine Expr.resolve_known_iff.mpr ?_
    simp [Scoping.meaning, State.scoping, hsymbol, Symbol.isDefined, hkind]
  have hevaluate : evaluate cx (.symbol name) s = .ok (.known .label symbol.value) s := by
    unfold evaluate
    rw [get_bind, heval]
    rfl
  unfold jumpArgument
  dsimp only
  rw [bind_of_ok hevaluate]
  rfl

section Settled

variable {p : FinalPass} {o : Options} {nodes : List Node} {story : AssembledStory}
  (h : p.Makes o nodes story) {w : Walk} (hw : w ∈ p.walks) (hset : w.settled = true)
  (hfit : p.Fits)

include h hw hset hfit

/-- The machine reads a settled jump with the distance to where its label was found. -/
theorem settled_jump {v : Visit} (hv : v ∈ w.visits) {i : Instruction} {name : String}
    (hi : v.node.kind = .instruction i) (hjump : isJump i = true)
    (hoperands : i.operands = [.symbol name]) (hblock : v.before.vocabulary = none) {l : Visit}
    (hl : l ∈ w.visits) (hk : l.node.kind = .localLabel name) :
    ∃ rest, decode p.context.version v.before.image.cursor
      (story.bytes.drop v.before.image.cursor) =
      some (⟨140, [.word (jumpOffset l.before.image.cursor v.before.image.cursor)], none, none⟩,
        rest) := by
  have hok : instruction p.context i v.before = .ok () v.after :=
    node_instruction hi ▸ settled_ok h hw hset hv
  have hlabel : localLabel name l.before = .ok () l.after :=
    node_localLabel hk ▸ settled_ok h hw hset hl
  obtain ⟨scope, -, hscope, -⟩ := localLabel_ok hlabel
  obtain ⟨t, hcourse⟩ := h.course
  obtain ⟨place, hplace⟩ := hcourse.settled w hw hset
  obtain ⟨labels, value, hlabelled⟩ := settled_routine h hw hset hplace hl (by rw [hscope]; rfl)
  obtain ⟨hmem, hfound⟩ := hlabelled.found l hl name hk
  obtain ⟨symbol, hsymbol, hkind, hvalue⟩ := (hlabelled.seen v hv i hi).declared name hmem
  have hhere := settled_cursor_lt h hfit hw hset hv
  have hthere := settled_cursor_lt h hfit hw hset hl
  have hposition : symbol.value.toUInt32.toNat = l.before.image.cursor := by
    rw [hvalue, hfound, Int32.toUInt32_ofNat', UInt32.toNat_ofNat']
    omega
  obtain ⟨req, enc, args, hselect, hshape, haddress, hargs, hoperand, hbranch, henc, hrest⟩ :=
    instruction_request h.mode hi hok
  rw [hoperands] at hselect hargs
  obtain ⟨hop, havailable⟩ := select_found hselect
  have hname : req.opcode.name = "JUMP" := by
    rw [select_name (Nat.le_add_left 1 3) hselect]
    exact beq_iff_eq.mp hjump
  obtain ⟨hnumber, hstores, hbranches⟩ := table_jump _ hop hname
  have hnone : req.branch = none := by
    have hsome := (branchField_ok hbranch).1.trans (branches_of_shape hshape)
    rw [hbranches] at hsome
    exact Option.isNone_iff_eq_none.mp (Option.isSome_eq_false_iff.mp hsome)
  have hword : req.operands = [.word (jumpOffset l.before.image.cursor v.before.image.cursor)] := by
    have harguments : arguments p.context req.opcode v.before.image.cursor [.symbol name] v.before =
        .ok [{ operand := .word (jumpOffset l.before.image.cursor v.before.image.cursor),
               expr := .symbol name }] v.before := by
      unfold arguments
      dsimp only
      rw [if_pos hname, bind_of_ok (jumpArgument_label hsymbol hkind _), hposition]
      rfl
    cases hargs.symm.trans harguments
    exact hoperand
  obtain ⟨rest, hbytes⟩ := settled_bytes h hfit hw hset hv .refl hblock hrest
  refine ⟨req.text.getD [] ++ rest, ?_⟩
  have hdecode := decode_encode_append p.context.version req hop havailable
    (by rw [hnone, hbranches]; rfl) (by omega)
    (fun field target hfield => by rw [hnone] at hfield; cases hfield) enc henc rest
  rw [haddress, hbytes] at hdecode
  rw [hdecode, expected, hnumber, hword, hstores, hnone]
  rfl

end Settled

/-! ## Single steps -/

theorem visits_of_ok {cx : Context} {index : Nat} {n : Node} {s t : State}
    (h : visit cx index n s = .ok () t) (rest : List Node) : visits cx index (n :: rest) s =
      ⟨index, n, s.reach index n, t⟩ :: visits cx (index + 1) rest t := by
  rw [visits, h]

/-- A node behind nodes that were read is visited. -/
theorem mem_visits_of_ok {cx : Context} {index : Nat} {xs : List Node} {n : Node} (rest : List Node)
    {s t u : State} (hxs : visitAll cx index xs s = .ok () t)
    (hn : visit cx (index + xs.length) n t = .ok () u) :
    ⟨index + xs.length, n, t.reach (index + xs.length) n, u⟩ ∈
      visits cx index (xs ++ n :: rest) s := by
  induction xs generalizing index s with
  | nil =>
    cases hxs
    exact visits_of_ok hn rest ▸ List.mem_cons_self
  | cons first xs ih =>
    obtain ⟨⟨⟩, v, hfirst, hxs⟩ := bind_ok hxs
    have hlength : index + (first :: xs).length = index + 1 + xs.length := by
      rw [List.length_cons]
      omega
    rw [List.cons_append, visits_of_ok hfirst, hlength]
    rw [hlength] at hn
    exact List.mem_cons_of_mem _ (ih hxs hn)

section Steps

variable {cx : Context} {s : State} {scope : RoutineScope}

theorem placePacked_here {name : String} (hpacking : s.packing = { version := .v3 })
    (hcursor : s.image.cursor = 64) : placePacked cx .routine name s = .ok 32 s := by
  have hpadded : s.padded = s := by
    have hpadding : s.packing.padding .routine s.image.cursor = (0, s.packing) := by
      rw [hpacking, hcursor]
      rfl
    unfold State.padded
    rw [hpadding]
    rfl
  have hpacked : s.packedHere = 32 := by
    unfold State.packedHere
    rw [hpacking, hcursor]
    rfl
  rw [placePacked_padded, hpadded, hpacked]
  rfl

theorem defineGlobal_again {name : String} {kind : SymbolKind} {value : Int32}
    (hfree : ¬ Taken s.globals name (s.site cx))
    (hsame : ∀ old, s.globals.valueOf name = some old → old = value) :
    ∃ x, Entered x name kind value (s.site cx) ∧
      defineGlobal cx name kind value s = .ok () { s with globals := s.globals.put x } := by
  obtain ⟨htaken, -⟩ | ⟨-, x, hx, heq⟩ := defineGlobal_cases cx name kind value s
  · exact absurd htaken hfree
  refine ⟨x, hx, ?_⟩
  rw [heq]
  cases hvalue : s.globals.valueOf name with
  | none => rfl
  | some old => exact if_pos (hsame old hvalue)

theorem addOperandFixups_of_known {address : Nat} {args : List Argument}
    (h : ∀ arg ∈ args, arg.waitsFor = none) (offsets : List Nat) :
    addOperandFixups address args offsets = pure () := by
  unfold addOperandFixups
  induction args generalizing offsets with
  | nil => rfl
  | cons arg rest ih =>
    cases offsets with
    | nil => rfl
    | cons offset more =>
      simp only [List.zip_cons_cons, List.forM_eq_forM, List.forM_cons,
        h arg List.mem_cons_self, pure_bind]
      exact ih (fun arg harg => h arg (List.mem_cons_of_mem _ harg)) more

/-- An instruction without a store target, a branch and a text whose operands are known. -/
theorem instruction_of_known {i : Instruction} (hstore : i.store = none) (hbranch : i.branch = none)
    (htext : i.text = none) {op : Opcode} {args : List Argument} {encoded : Encoded}
    (hselect : Opcode.select i.opcode i.operands.length cx.version = .found op)
    (hshape : shapeProblem? i op = none)
    (hargs : arguments cx op s.image.cursor i.operands s = .ok args s)
    (hknown : ∀ arg ∈ args, arg.waitsFor = none)
    (hencode : encode (requestOf i op args none none s) = .ok encoded) :
    instruction cx i s = .ok () { s with image := s.image.store encoded.bytes } := by
  have hready := readied_of_ok hselect hshape hargs (by rw [hstore]; rfl) (.refl s)
  rw [hready.rest, hbranch]
  show emit i op args none none s = _
  unfold emit
  rw [get_bind, hencode]
  show finishInstruction i s.image.cursor args none encoded
    { s with image := s.image.store encoded.bytes } = _
  unfold finishInstruction
  rw [addOperandFixups_of_known hknown, pure_bind, hstore, htext]
  rfl

theorem closeRoutine_of_none (cx : Context) (hnone : scope.deferred = []) (s : State) :
    ∃ t, closeRoutine cx scope s = .ok () t ∧
      ∃ log counts, t = { s with scope := none, locals := .empty, log, counts } := by
  unfold closeRoutine
  rw [modify_bind, hnone]
  split
  · exact ⟨_, rfl, _, _, rfl⟩
  · exact ⟨_, rfl, _, _, rfl⟩

/-- Where nothing is open and nothing waits, the end of a pass does nothing. -/
theorem endPass_of_none (cx : Context) (htable : s.table = none) (hblock : s.vocabulary = none)
    (hfixups : s.fixups = #[]) : endPass cx s = .ok () s := by
  rw [endPass_eq cx htable hblock]
  cases cx.mode with
  | measuring =>
    have hnone : s.fixups.any (·.resolves cx s) = false := by
      rw [hfixups]
      exact Array.any_empty
    show EStateM.Result.ok () { s with changed := s.changed || s.fixups.any (·.resolves cx s) } = _
    rw [hnone, Bool.or_false]
  | assembling =>
    dsimp only
    rw [get_bind, hfixups]
    rfl

theorem size_of_visits {index : Nat} {nodes : List Node} {s t : State}
    (h : visitAll cx index nodes s = .ok () t) {v : Visit} (hv : v ∈ visits cx index nodes s) :
    v.after.image.size ≤ t.image.size := by
  induction nodes generalizing index s with
  | nil => cases hv
  | cons n rest ih =>
    obtain ⟨⟨⟩, u, hfirst, hrest⟩ := bind_ok h
    rw [visits_of_ok hfirst] at hv
    rcases List.mem_cons.mp hv with rfl | hv
    · exact ((visitAll_onward cx _ _ u).of_ok hrest).size
    · exact ih hrest hv

theorem routineWalks_again {start : Nat} {r : Routine} {t : State} {next : RoutineScope}
    (h : visitAll cx start r.nodes s = .ok () t) (hscope : t.scope = some scope)
    (hmoved : scope.moved = true) (hnext : scope.nextWalk? = some next) (left : Nat) :
    routineWalks cx start r (left + 1) s =
      ⟨visits cx start r.nodes s, t, none⟩ :: routineWalks cx start r left (t.walkAgain next) := by
  unfold Routine.nodes at h ⊢
  rw [routineWalks, h]
  dsimp only
  unfold endedWalks
  rw [hscope]
  dsimp only
  rw [hmoved, hnext]
  rfl

theorem routineWalks_last {start : Nat} {r : Routine} {t u : State}
    (h : visitAll cx start r.nodes s = .ok () t) (hscope : t.scope = some scope)
    (hmoved : scope.moved = false) (hclose : closeRoutine cx scope t = .ok () u) (left : Nat) :
    routineWalks cx start r (left + 1) s = [⟨visits cx start r.nodes s, t, some u⟩] := by
  unfold Routine.nodes at h ⊢
  rw [routineWalks, h]
  dsimp only
  unfold endedWalks
  rw [hscope]
  dsimp only
  rw [hmoved, hclose]
  rfl

theorem not_taken_put {g : SymbolTable} {x : Symbol} {name : String} {kind : SymbolKind}
    {value : Int32} {site : Site} (hx : Entered x name kind value site) :
    ¬ Taken (g.put x) name site := by
  rintro ⟨y, other, hlookup, -, hsite, -, hne⟩
  rw [SymbolTable.lookup_put, if_pos hx.name] at hlookup
  cases hlookup
  rw [hx.site] at hsite
  cases hsite
  exact hne rfl

theorem valueOf_put_entered {g : SymbolTable} {x : Symbol} {name : String} {kind : SymbolKind}
    {value : Int32} {site : Site} (hx : Entered x name kind value site) {old : Int32}
    (h : (g.put x).valueOf name = some old) : old = value := by
  unfold SymbolTable.valueOf at h
  rw [SymbolTable.lookup_put, if_pos hx.name] at h
  obtain ⟨y, hy, rfl⟩ := Option.map_eq_some_iff.mp h
  obtain ⟨hy, -⟩ := Option.filter_eq_some_iff.mp hy
  cases hy
  exact hx.value

end Steps

/-! ## A jump over a text -/

def leap : Instruction := { opcode := "JUMP", operands := [.symbol "DONE"] }

/-- A routine that jumps over a text. -/
def leaping (text : String) : Routine where
  head := ⟨.directive (.funct "MAIN" []), {}⟩
  name := "MAIN"
  body := [⟨.instruction leap, {}⟩, ⟨.directive (.str text), {}⟩, ⟨.localLabel "DONE", {}⟩,
    ⟨.instruction { opcode := "RTRUE" }, {}⟩]

def jumpOpcode : Opcode := { name := "JUMP", number := 140, minOperands := 1, maxOperands := 1 }

def returnOpcode : Opcode := { name := "RTRUE", number := 176, minOperands := 0, maxOperands := 0 }

theorem encode_jump (word : UInt16) (address : Nat) :
    encode { opcode := jumpOpcode, operands := [.word word], address } =
      .ok ⟨140 :: wordBytes word, [1], none, false⟩ := by
  unfold encode
  dsimp only
  rw [if_neg (by simp [jumpOpcode])]
  rfl

theorem encode_return (address : Nat) :
    encode { opcode := returnOpcode, operands := [], address } = .ok ⟨[176], [], none, false⟩ := by
  unfold encode
  dsimp only
  rw [if_neg (by decide)]
  rfl

/-- From `s` to `t` bytes were stored, and nothing else happened but to the collected text and the
    place. -/
def Stored (bytes : List UInt8) (s t : State) : Prop :=
  ∃ index location text, t = { s with image := s.image.store bytes, index, location, text }

/-- The bytes of a text. -/
def textLength (text : String) : Nat := (ZText.Encoder.encode { version := .v3 } text).length

theorem cursor_of_leap {im : Image} (hcursor : im.cursor = 64) (word : UInt16) {text : String}
    (hfit : textLength text < 100000) :
    (((im.store [0]).store (140 :: wordBytes word)).store
      (ZText.Encoder.encode { version := .v3 } text)).cursor = textLength text + 68 := by
  unfold textLength at hfit ⊢
  rw [← Image.store_append, ← Image.store_append, Image.cursor_store, hcursor]
  · simp only [List.length_append, List.length_cons, List.length_nil, length_wordBytes]
    omega
  · simp only [List.length_append, List.length_cons, List.length_nil, length_wordBytes, hcursor]
    omega

/-- A walk of the routine may begin here. -/
structure Fresh (cx : Context) (s : State) : Prop where
  cursor : s.image.cursor = 64
  size : s.image.size ≤ 64
  packing : s.packing = { version := .v3 }
  encoder : s.encoder = { version := .v3 }
  fixups : s.fixups = #[]
  table : s.table = none
  vocabulary : s.vocabulary = none
  diagnostics : s.diagnostics = #[]
  free : ¬ Taken s.globals "MAIN" ⟨cx.pass, 0⟩
  value : ∀ old, s.globals.valueOf "MAIN" = some old → old = 32

section Leaping

variable {cx : Context} {s : State} {scope : RoutineScope} {text : String}

theorem Fresh.enter (h : Fresh cx s) (start : Nat) (r : Routine) : Fresh cx (s.enter start r) :=
  { h with }

/-- A walk of the routine that begins in state `s` and ends in state `t`. The jump is at its second
    byte and the label behind the text. -/
structure Leaped (cx : Context) (text : String) (scope : RoutineScope) (s t : State) : Prop where
  visits : visitAll cx 0 (leaping text).nodes s = .ok () t
  ends : ∃ x stored locals log collected index location, Entered x "MAIN" .routine 32 ⟨cx.pass, 0⟩ ∧
    stored.length = textLength text + 5 ∧
    t = { s with
      image := s.image.store stored, globals := s.globals.put x, locals, log
      text := collected, index, location
      scope := some (if scope.guess "DONE" 64 = Int32.ofNat (textLength text + 68) then scope
        else scope.recordMove "DONE" (Int32.ofNat (textLength text + 68))) }
  jump : ∃ v ∈ Assembly.visits cx 0 (leaping text).nodes s, v.node.kind = .instruction leap ∧
    v.before.vocabulary = none ∧ v.before.image.cursor = 65
  label : ∃ l ∈ Assembly.visits cx 0 (leaping text).nodes s, l.node.kind = .localLabel "DONE" ∧
    l.before.vocabulary = none ∧ l.before.image.cursor = textLength text + 68

/-- The routine may be walked again. -/
theorem Leaped.fresh {opened t : State} {next : RoutineScope} (hopened : Fresh cx opened)
    (h : Leaped cx text scope (opened.enter 0 (leaping text)) t)
    (hmark : next.snapshot = opened.snapshot) :
    Fresh cx (t.walkAgain next) := by
  obtain ⟨x, stored, locals, log, collected, index, location, hx, -, rfl⟩ := h.ends
  have hsize : ∀ im : Image, (im.truncate 64).size ≤ 64 := by
    intro im
    show (im.bytes.extract 0 64).size ≤ 64
    rw [Array.size_extract]
    omega
  unfold State.walkAgain State.rewind
  rw [hmark]
  unfold State.snapshot
  dsimp only [State.enter]
  rw [hopened.cursor, hopened.fixups, hopened.table, hopened.vocabulary, hopened.encoder,
    hopened.diagnostics, hopened.packing]
  exact {
    cursor := rfl
    size := hsize _
    packing := rfl
    encoder := rfl
    fixups := rfl
    table := rfl
    vocabulary := rfl
    diagnostics := rfl
    free := not_taken_put hx
    value := fun old hold => valueOf_put_entered hx hold }

theorem Leaped.size {t : State} (h : Leaped cx text scope s t) (hs : Fresh cx s)
    (hfit : textLength text < 100000) : t.image.size ≤ textLength text + 69 := by
  obtain ⟨x, stored, locals, log, collected, index, location, -, hlength, rfl⟩ := h.ends
  have hle := Image.size_store_le s.image stored (by rw [hs.cursor]; omega)
  have hsize := hs.size
  rw [hs.cursor, hlength] at hle
  show (s.image.store stored).size ≤ _
  omega

/-- A pass over the routine: it takes two walks. -/
structure LeapedPass (cx : Context) (text : String) (opened t : State) : Prop where
  ends : pass cx ⟨[], [leaping text], none⟩ opened = .ok () t
  diagnostics : t.diagnostics = #[]
  changed : t.changed = opened.changed
  size : t.image.size ≤ textLength text + 69
  named : ∃ x, Entered x "MAIN" .routine 32 ⟨cx.pass, 0⟩ ∧ ∃ g : SymbolTable, t.globals = g.put x
  fits : ∀ w ∈ passWalks cx ⟨[], [leaping text], none⟩ opened, ∀ v ∈ w.visits,
    v.after.image.size ≤ textLength text + 69
  walk : ∃ w ∈ passWalks cx ⟨[], [leaping text], none⟩ opened, w.settled = true ∧
    ∃ v ∈ w.visits, v.node.kind = .instruction leap ∧ v.before.vocabulary = none ∧
      v.before.image.cursor = 65 ∧
      ∃ l ∈ w.visits, l.node.kind = .localLabel "DONE" ∧ l.before.vocabulary = none ∧
        l.before.image.cursor = textLength text + 68

variable (hversion : cx.version = .v3)

include hversion

theorem visit_leapHead (h : Fresh cx s) (hscope : s.scope = some scope)
    (hlabels : scope.labels = ["DONE"]) :
    ∃ x, Entered x "MAIN" .routine 32 ⟨cx.pass, 0⟩ ∧ visit cx 0 (leaping text).head s =
      .ok () { s.reach 0 (leaping text).head with
        image := s.image.store [0], globals := s.globals.put x,
        locals := SymbolTable.empty.predeclare "DONE" (scope.guess "DONE" 64) } := by
  let r : State := { s.reach 0 (leaping text).head with locals := .empty }
  have hplace : placePacked cx .routine "MAIN" r = .ok 32 r := placePacked_here h.packing h.cursor
  obtain ⟨x, hx, hdefine⟩ : ∃ x, Entered x "MAIN" .routine 32 (r.site cx) ∧
      defineGlobal cx "MAIN" .routine 32 r = .ok () { r with globals := r.globals.put x } :=
    defineGlobal_again h.free h.value
  refine ⟨x, hx, visit_of_ok ?_⟩
  show routineHead cx "MAIN" [] (s.reach 0 (leaping text).head) = _
  rw [routineHead_eq]
  have hopening : headOpening cx "MAIN" [] (s.reach 0 (leaping text).head) =
      .ok 64 { r with globals := r.globals.put x, image := s.image.store [0] } := by
    unfold headOpening
    rw [modify_bind, bind_of_ok hplace]
    refine (bind_of_ok (m := position) (a := 64) (t := r) ?_).trans ((bind_of_ok hdefine).trans rfl)
    show EStateM.Result.ok s.image.cursor r = _
    rw [h.cursor]
  rw [bind_of_ok hopening]
  have hdefaults : localDefaults cx "MAIN" ([].take maxLocals) = pure () := by
    unfold localDefaults
    rw [hversion]
    rfl
  rw [hdefaults, pure_bind, predeclareLabels_eq]
  have hlocals :
      State.withLabels { r with globals := r.globals.put x, image := s.image.store [0] } 64 =
      SymbolTable.empty.predeclare "DONE" (scope.guess "DONE" 64) := by
    unfold State.withLabels
    rw [show State.scope { r with globals := r.globals.put x, image := s.image.store [0] } =
      some scope from hscope]
    dsimp only
    rw [hlabels]
    rfl
  rw [hlocals]
  rfl

theorem visit_leap (index : Nat) {guess : Int32}
    (hlocals : s.locals = SymbolTable.empty.predeclare "DONE" guess) :
    ∃ word t, visit cx index ⟨.instruction leap, {}⟩ s = .ok () t ∧
    Stored (140 :: wordBytes word) s t := by
  have hselect : Opcode.select "JUMP" 1 cx.version = .found jumpOpcode := by
    rw [hversion]
    decide +kernel
  have hlookup : s.locals.lookup "DONE" = some ⟨"DONE", .label, guess, true, none⟩ := by
    rw [hlocals]
    rfl
  let word := jumpOffset guess.toUInt32.toNat s.image.cursor
  let arg : Argument := { operand := .word word, expr := .symbol "DONE" }
  have hargs :
      arguments cx jumpOpcode s.image.cursor leap.operands (s.reach index ⟨.instruction leap, {}⟩) =
      .ok [arg] (s.reach index ⟨.instruction leap, {}⟩) := by
    unfold arguments leap
    dsimp only
    rw [if_pos (show jumpOpcode.name = "JUMP" from rfl),
      bind_of_ok (jumpArgument_label (by exact hlookup) rfl _)]
    rfl
  have hencode :
      encode (requestOf leap jumpOpcode [arg] none none (s.reach index ⟨.instruction leap, {}⟩)) =
    _ := encode_jump word s.image.cursor
  have hknown : ∀ known ∈ [arg], known.waitsFor = none := by
    intro known hmem
    rw [List.mem_singleton.mp hmem]
  have hnode := instruction_of_known rfl rfl rfl hselect (by decide +kernel) hargs hknown hencode
  exact ⟨word, _, visit_of_ok hnode, _, _, _, rfl⟩

theorem visit_rtrue (index : Nat) :
    ∃ t, visit cx index ⟨.instruction { opcode := "RTRUE" }, {}⟩ s = .ok () t ∧
    Stored [176] s t := by
  have hselect : Opcode.select "RTRUE" 0 cx.version = .found returnOpcode := by
    rw [hversion]
    decide +kernel
  have hencode : encode (requestOf { opcode := "RTRUE" } returnOpcode [] none none
    (s.reach index ⟨.instruction { opcode := "RTRUE" }, {}⟩)) = _ := encode_return s.image.cursor
  have hnode : instruction cx { opcode := "RTRUE" }
    (s.reach index ⟨.instruction { opcode := "RTRUE" }, {}⟩) =
      _ :=
    instruction_of_known rfl rfl rfl hselect (by decide +kernel) rfl
      (fun arg harg => absurd harg List.not_mem_nil) hencode
  exact ⟨_, visit_of_ok hnode, _, _, _, rfl⟩

theorem exists_leaped (h : Fresh cx s) (hscope : s.scope = some scope)
    (hlabels : scope.labels = ["DONE"]) (hfit : textLength text < 100000) :
    ∃ t, Leaped cx text scope s t := by
  obtain ⟨x, hx, hhead⟩ : ∃ x, Entered x "MAIN" .routine 32 ⟨cx.pass, 0⟩ ∧
    visit cx 0 (leaping text).head s = _ := visit_leapHead hversion h hscope hlabels
  -- up to the label nothing is done but to store
  obtain ⟨word, j, hj, hjump⟩ := visit_leap hversion 1 (s := { s.reach 0 (leaping text).head with
    image := s.image.store [0], globals := s.globals.put x,
    locals := SymbolTable.empty.predeclare "DONE" (scope.guess "DONE" 64) }) rfl
  obtain ⟨b, hb, hstr⟩ : ∃ b, visit cx 2 ⟨.directive (.str text), {}⟩ j = .ok () b ∧
      Stored (j.encoder.encode text) j b := ⟨_, visit_str 2 rfl j, _, _, _, rfl⟩
  obtain ⟨_, _, _, hj'⟩ := hjump
  have hencoder : j.encoder = { version := .v3 } := by
    rw [hj']
    exact h.encoder
  rw [hencoder] at hstr
  have hcursor : b.image.cursor = textLength text + 68 := by
    obtain ⟨_, _, _, rfl⟩ := hstr
    subst hj'
    exact cursor_of_leap h.cursor word hfit
  obtain ⟨hblock, hlocals, hscope'⟩ : b.vocabulary = none ∧
      b.locals = SymbolTable.empty.predeclare "DONE" (scope.guess "DONE" 64) ∧
      b.scope = some scope := by
    obtain ⟨_, _, _, rfl⟩ := hstr
    subst hj'
    exact ⟨h.vocabulary, rfl, hscope⟩
  obtain ⟨locals, log, hl, -⟩ : ∃ locals log, visit cx 3 ⟨.localLabel "DONE", {}⟩ b = _ ∧ _ :=
    visit_localLabel rfl hscope' hlocals
  rw [hcursor] at hl
  obtain ⟨t, ht, hlast⟩ := visit_rtrue hversion 4 (s := _)
  have hbefore :
      visitAll cx 0 [(leaping text).head, ⟨.instruction leap, {}⟩, ⟨.directive (.str text), {}⟩]
      s = .ok () b :=
    (bind_of_ok hhead).trans ((bind_of_ok hj).trans ((bind_of_ok hb).trans rfl))
  refine ⟨t, ?_, ?_, ?_, ?_⟩
  · exact (bind_of_ok hhead).trans ((bind_of_ok hj).trans ((bind_of_ok hb).trans
      ((bind_of_ok hl).trans ((bind_of_ok ht).trans rfl))))
  · obtain ⟨_, _, _, rfl⟩ := hstr
    obtain ⟨index, location, collected, rfl⟩ := hlast
    subst hj'
    refine ⟨x, [0] ++ (140 :: wordBytes word) ++ ZText.Encoder.encode { version := .v3 }
      text ++ [176], locals, log, collected, index, location, hx, ?_, ?_⟩
    · simp only [List.length_append, List.length_cons, List.length_nil,
        length_wordBytes, textLength]
      omega
    · rw [Image.store_append, Image.store_append, Image.store_append]
      rfl
  · have hfirst : visitAll cx 0 [(leaping text).head] s = .ok () _ := bind_of_ok hhead
    refine ⟨_, mem_visits_of_ok _ hfirst hj, rfl, h.vocabulary, ?_⟩
    show (s.image.store [0]).cursor = 65
    rw [Image.cursor_store _ _ (by rw [h.cursor]; decide), h.cursor]
    rfl
  · exact ⟨_, mem_visits_of_ok _ hbefore hl, rfl, hblock, hcursor⟩

/-- The first walk guesses the label at the routine, and finds it behind the text. The second
    guesses it there and settles. -/
theorem exists_walks {opened : State} (hopened : Fresh cx opened)
    (hfit : textLength text < 100000) :
    ∃ next t₁ t₂ u, Leaped cx text (.begin "MAIN" 0 (leaping text).body opened.snapshot)
        (opened.enter 0 (leaping text)) t₁ ∧
      Fresh cx (t₁.walkAgain next) ∧ Leaped cx text next (t₁.walkAgain next) t₂ ∧
      (∃ log counts, u = { t₂ with scope := none, locals := .empty, log, counts }) ∧
      routine cx 0 (leaping text) opened = .ok () u ∧
      routineWalks cx 0 (leaping text) maxWalks (opened.enter 0 (leaping text)) =
        [⟨visits cx 0 (leaping text).nodes (opened.enter 0 (leaping text)), t₁, none⟩,
          ⟨visits cx 0 (leaping text).nodes (t₁.walkAgain next), t₂, some u⟩] := by
  let first : RoutineScope := .begin "MAIN" 0 (leaping text).body opened.snapshot
  obtain ⟨t₁, h₁⟩ : ∃ t, Leaped cx text first (opened.enter 0 (leaping text)) t :=
    exists_leaped hversion (hopened.enter 0 (leaping text)) rfl rfl hfit
  have hscope₁ :
      t₁.scope = some (first.recordMove "DONE" (Int32.ofNat (textLength text + 68))) := by
    obtain ⟨x, stored, locals, log, collected, index, location, -, -, rfl⟩ := h₁.ends
    have hmoved : ¬ first.guess "DONE" 64 = Int32.ofNat (textLength text + 68) := by
      intro heq
      have hposition := (ofNat_eq_iff (by decide) (by omega)).mp
        (show Int32.ofNat 64 = Int32.ofNat (textLength text + 68) from heq)
      omega
    exact congrArg some (if_neg hmoved)
  let next : RoutineScope :=
    { first with guesses := [("DONE", Int32.ofNat (textLength text + 68))], walks := 2 }
  have hnext : (first.recordMove "DONE" (Int32.ofNat (textLength text + 68))).nextWalk? =
      some next := rfl
  have hfresh : Fresh cx (t₁.walkAgain next) := h₁.fresh hopened rfl
  obtain ⟨t₂, h₂⟩ : ∃ t, Leaped cx text next (t₁.walkAgain next) t :=
    exists_leaped hversion hfresh rfl rfl hfit
  have hscope₂ : t₂.scope = some next := by
    obtain ⟨x, stored, locals, log, collected, index, location, -, -, rfl⟩ := h₂.ends
    exact congrArg some (if_pos rfl)
  obtain ⟨u, hclose, hu⟩ := closeRoutine_of_none cx (show next.deferred = [] from rfl) t₂
  refine ⟨next, t₁, t₂, u, h₁, hfresh, h₂, hu, ?_, ?_⟩
  · exact (bind_of_ok h₁.visits).trans ((endWalk_again hscope₁ rfl hnext _).trans
      ((bind_of_ok h₂.visits).trans ((endWalk_settled hscope₂ rfl).trans hclose)))
  · rw [show maxWalks = 6 + 1 + 1 from rfl, routineWalks_again h₁.visits hscope₁ rfl hnext,
      routineWalks_last h₂.visits hscope₂ rfl hclose]

theorem exists_leapedPass {opened : State} (hopened : Fresh cx opened)
    (hfit : textLength text < 100000) : ∃ t, LeapedPass cx text opened t := by
  obtain ⟨next, t₁, t₂, u, h₁, hfresh, h₂, ⟨log, counts, hu⟩, hroutine, hlist⟩ :=
    exists_walks hversion hopened hfit
  have hwalks : passWalks cx ⟨[], [leaping text], none⟩ opened =
      [⟨[], opened, some opened⟩,
        ⟨visits cx 0 (leaping text).nodes (opened.enter 0 (leaping text)), t₁, none⟩,
        ⟨visits cx 0 (leaping text).nodes (t₁.walkAgain next), t₂, some u⟩] := by
    show ⟨[], opened, some opened⟩ :: routinesWalks cx 0 [leaping text] opened = _
    rw [routinesWalks, hroutine]
    dsimp only
    rw [hlist]
    rfl
  have hfirst := h₁.size (hopened.enter 0 (leaping text)) hfit
  have hlast := h₂.size hfresh hfit
  obtain ⟨x, _, _, _, _, _, _, hx, -, ht₂⟩ := h₂.ends
  have hend : endPass cx u = .ok () u := by
    apply endPass_of_none <;> rw [hu, ht₂]
    · exact hfresh.table
    · exact hfresh.vocabulary
    · exact hfresh.fixups
  refine ⟨u, ?_, ?_, ?_, ?_, ⟨x, hx, (t₁.walkAgain next).globals, ?_⟩, ?_, ?_⟩
  · have hroutines : routines cx 0 [leaping text] opened = .ok _ u :=
      (bind_of_ok hroutine).trans rfl
    exact (bind_of_ok hroutines).trans hend
  · rw [hu, ht₂]
    exact hfresh.diagnostics
  · obtain ⟨_, _, _, _, _, _, _, -, -, ht₁⟩ := h₁.ends
    rw [hu, ht₂, ht₁]
    rfl
  · rw [hu]
    exact hlast
  · rw [hu, ht₂]
  · intro w hw v hv
    rw [hwalks] at hw
    simp only [List.mem_cons, List.not_mem_nil, or_false] at hw
    rcases hw with rfl | rfl | rfl
    · exact absurd hv List.not_mem_nil
    · exact Nat.le_trans (size_of_visits h₁.visits hv) hfirst
    · exact Nat.le_trans (size_of_visits h₂.visits hv) hlast
  · obtain ⟨v, hv, hnode, houtside, hhere⟩ := h₂.jump
    refine ⟨⟨visits cx 0 (leaping text).nodes (t₁.walkAgain next), t₂, some u⟩, ?_, rfl,
      v, hv, hnode, houtside, hhere, h₂.label⟩
    rw [hwalks]
    exact List.mem_cons_of_mem _ (List.mem_cons_of_mem _ List.mem_cons_self)

end Leaping

def leapingOptions : Options := { version := .v3, identity := { serial := "260101" } }

theorem fresh_beginPass {cx : Context} (o : Options) (mode : Mode) (s : State)
    (hfree : ¬ Taken s.globals "MAIN" ⟨cx.pass, 0⟩)
    (hvalue : ∀ old, s.globals.valueOf "MAIN" = some old → old = 32) :
    Fresh cx (s.beginPass o .v3 mode) := by
  have himage : (s.beginPass o .v3 mode).image = Image.fill {} Story.headerSize 0 := rfl
  have hglobals : (s.beginPass o .v3 mode).globals = s.globals := by rw [State.beginPass]
  refine ⟨?_, ?_, rfl, rfl, rfl, rfl, rfl, rfl, ?_, ?_⟩
  · rw [himage, cursor_fill]
    rfl
  · rw [himage, size_fill]
    exact Nat.le_refl _
  · rw [hglobals]
    exact hfree
  · rw [hglobals]
    exact hvalue

/-- A program assembles that is measured, assembled without a report and not too large. -/
theorem assembles_of_pass (o : Options) (nodes : List Node) {t u : State}
    (hmeasure : measure o (.ofNodes nodes) o.version maxMeasuringPasses (.initial o.version) =
      .ok () t)
    (hpass : pass (t.nextContext o o.version .assembling) (.ofNodes nodes)
      (t.beginPass o o.version .assembling) = .ok () u)
    (hclean : u.diagnostics = #[]) (hsize : u.image.size ≤ o.version.maxStorySize) :
    (∃ story, (assemble o nodes).result = .ok story) ∧
      finalPass? o nodes = some ⟨t.nextContext o o.version .assembling, .ofNodes nodes,
        t.beginPass o o.version .assembling, u⟩ := by
  have hpasses : passes o (.ofNodes nodes) o.version (.initial o.version) = .ok () u := by
    unfold passes
    rw [bind_of_ok hmeasure, onePass_eq]
    exact hpass
  have hattempt : attempt o (.ofNodes nodes) (Version.all.length - 1) [o.version] o.version
      (.initial o.version) = .ok o.version u := by
    unfold attempt
    rw [hpasses]
  obtain ⟨_, hfinish, -⟩ := finishStory_of_fits o hclean hsize
  have hrun : run o (.ofNodes nodes) (.initial o.version) = _ := (bind_of_ok hattempt).trans hfinish
  constructor
  · unfold assemble
    rw [hrun]
    exact ⟨_, rfl⟩
  · unfold finalPass? attemptPass?
    rw [hpasses]
    dsimp only
    unfold assemblingPass?
    rw [hmeasure]
    dsimp only
    rw [show assemblingContext o o.version _ = t.nextContext o o.version .assembling from rfl,
      hpass]

/-- The routine assembles. The settled walk of its last pass finds the jump at the second byte and
    the label behind the text. -/
theorem leaping_assembles {text : String} (hfit : textLength text < 100000) :
    ∃ story p, (assemble leapingOptions (leaping text).nodes).result = .ok story ∧
      finalPass? leapingOptions (leaping text).nodes = some p ∧ p.Fits ∧
      ∃ w ∈ p.walks, w.settled = true ∧
        ∃ v ∈ w.visits, v.node.kind = .instruction leap ∧ v.before.vocabulary = none ∧
          v.before.image.cursor = 65 ∧
          ∃ l ∈ w.visits, l.node.kind = .localLabel "DONE" ∧ l.before.vocabulary = none ∧
            l.before.image.cursor = textLength text + 68 := by
  -- measuring takes one pass
  obtain ⟨t₁, h₁⟩ :
    ∃ t, LeapedPass ((State.initial .v3).nextContext leapingOptions .v3 .measuring) text
      ((State.initial .v3).beginPass leapingOptions .v3 .measuring) t := by
    refine exists_leapedPass rfl (fresh_beginPass leapingOptions .measuring _ ?_ ?_) hfit
    · rintro ⟨x, other, hx, -⟩
      cases hx
    · intro old hold
      cases hold
  have hmeasure :
      measure leapingOptions ⟨[], [leaping text], none⟩ .v3 maxMeasuringPasses (.initial .v3) =
      .ok () (t₁.measured 15) := by
    have hpass : onePass leapingOptions ⟨[], [leaping text], none⟩ .v3 .measuring (.initial .v3) =
        .ok () t₁ := by
      rw [onePass_eq]
      exact h₁.ends
    have hstill : t₁.changed = false := h₁.changed
    rw [show maxMeasuringPasses = 15 + 1 from rfl, measure_of_ok 15 hpass,
      if_neg (by simp [hstill])]
    rfl
  -- the assembling pass finds the routine where it was measured
  obtain ⟨t₂, h₂⟩ :
    ∃ t, LeapedPass ((t₁.measured 15).nextContext leapingOptions .v3 .assembling) text
      ((t₁.measured 15).beginPass leapingOptions .v3 .assembling) t := by
    obtain ⟨x, hx, g, hg⟩ := h₁.named
    have hglobals : (t₁.measured 15).globals = g.put x := hg
    refine exists_leapedPass rfl (fresh_beginPass leapingOptions .assembling _ ?_ ?_) hfit
    · rintro ⟨y, site, hlookup, -, hsite, hpass, hnode⟩
      rw [hglobals, SymbolTable.lookup_put, if_pos hx.name] at hlookup
      cases hlookup
      rw [hx.site] at hsite
      cases hsite
      exact hnode rfl
    · intro old hold
      rw [hglobals] at hold
      exact valueOf_put_entered hx hold
  have hsize : t₂.image.size ≤ leapingOptions.version.maxStorySize := by
    have hle := h₂.size
    show t₂.image.size ≤ 131072
    omega
  obtain ⟨⟨story, hresult⟩, hfinal⟩ :=
    assembles_of_pass leapingOptions (leaping text).nodes hmeasure h₂.ends h₂.diagnostics hsize
  refine ⟨story, _, hresult, hfinal, ?_, h₂.walk⟩
  intro v hv
  obtain ⟨w, hw, hv⟩ := List.mem_flatMap.mp hv
  have hle := h₂.fits w hw v hv
  have hunit := Story.lengthUnit_le leapingOptions.version
  show _ + leapingOptions.version.lengthUnit ≤ 2 ^ 32
  omega

/-! ## Where jumps lead -/

/-- Every jump to a local label, outside a vocabulary block, has for its operand the distance to
    where the settled walk reached the label, cut to 16 bits: it leads to the label modulo 2^16, and
    to the label itself exactly if the distance fits a signed word. Each instruction that the pass
    reaches is reached by a settled walk. -/
theorem jumps_land_within_reach {o : Options} {nodes : List Node} {story : AssembledStory}
    (h : (assemble o nodes).result = .ok story) :
    ∃ p, finalPass? o nodes = some p ∧
      (∀ x ∈ p.visits, ∃ w ∈ p.walks, w.settled = true ∧
        ∃ v ∈ w.visits, v.index = x.index ∧ v.node = x.node) ∧
      (p.Fits → ∀ w ∈ p.walks, w.settled = true → ∀ v ∈ w.visits, ∀ i name,
        v.node.kind = .instruction i → isJump i = true → i.operands = [.symbol name] →
        v.before.vocabulary = none → ∀ l ∈ w.visits, l.node.kind = .localLabel name →
        ∃ word rest, decode p.context.version v.before.image.cursor
            (story.bytes.drop v.before.image.cursor) =
            some (⟨140, [.word word], none, none⟩, rest) ∧
          (jumpDestination v.before.image.cursor word - l.before.image.cursor) % 65536 = 0 ∧
          (jumpDestination v.before.image.cursor word = l.before.image.cursor ↔
            -32768 ≤ (l.before.image.cursor : Int) - (v.before.image.cursor + 1) ∧
              (l.before.image.cursor : Int) - (v.before.image.cursor + 1) ≤ 32767)) := by
  obtain ⟨p, hp, hmakes⟩ := exists_finalPass h
  obtain ⟨t, hcourse⟩ := hmakes.course
  refine ⟨p, hp, hcourse.reaches,
    fun hfit w hw hset v hv i name hi hjump hoperands hblock l hl hk => ?_⟩
  obtain ⟨rest, hdecode⟩ := settled_jump hmakes hw hset hfit hv hi hjump hoperands hblock hl hk
  exact ⟨_, rest, hdecode, jumpDestination_mod _ _, jumpDestination_eq_iff _ _⟩

/-- Over a short text the jump leads to its label. -/
theorem leaping_lands :
    ∃ story p, (assemble leapingOptions (leaping "dusk").nodes).result = .ok story ∧
      finalPass? leapingOptions (leaping "dusk").nodes = some p ∧ p.Fits ∧
      ∃ w ∈ p.walks, w.settled = true ∧
        ∃ v ∈ w.visits, v.node.kind = .instruction leap ∧ v.before.vocabulary = none ∧
          ∃ l ∈ w.visits, l.node.kind = .localLabel "DONE" ∧
            ∃ word rest, decode p.context.version v.before.image.cursor
                (story.bytes.drop v.before.image.cursor) =
                some (⟨140, [.word word], none, none⟩, rest) ∧
              jumpDestination v.before.image.cursor word = l.before.image.cursor := by
  have hlength : textLength "dusk" = 4 := by decide +kernel
  obtain ⟨story, p, hresult, hp, hfits, w, hw, hset, v, hv, hi, hblock, hhere, l, hl,
    hk, -, hthere⟩ :=
    leaping_assembles (show textLength "dusk" < 100000 by omega)
  obtain ⟨p', hp', -, hjumps⟩ := jumps_land_within_reach hresult
  cases hp.symm.trans hp'
  obtain ⟨word, rest, hdecode, -, hlands⟩ :=
    hjumps hfits w hw hset v hv leap "DONE" hi (by decide +kernel) rfl hblock l hl hk
  refine ⟨story, p, hresult, hp, hfits, w, hw, hset, v, hv, hi, hblock, l, hl, hk, word,
    rest, hdecode, hlands.mpr ?_⟩
  rw [hhere, hthere, hlength]
  decide

/-- A text of one letter, `count` times. -/
def letters (count : Nat) : String := String.ofList (List.replicate count 'a')

/-- A text of 32768 bytes is too long to jump over. The program assembles, but its jump leads 65536
    bytes too low. -/
theorem leaping_misses :
    ∃ story p, (assemble leapingOptions (leaping (letters 49152)).nodes).result = .ok story ∧
      finalPass? leapingOptions (leaping (letters 49152)).nodes = some p ∧ p.Fits ∧
      ∃ w ∈ p.walks, w.settled = true ∧
        ∃ v ∈ w.visits, v.node.kind = .instruction leap ∧ v.before.vocabulary = none ∧
          ∃ l ∈ w.visits, l.node.kind = .localLabel "DONE" ∧ l.before.vocabulary = none ∧
            l.before.image.cursor = 32836 ∧
            ∃ rest, decode p.context.version v.before.image.cursor
                (story.bytes.drop v.before.image.cursor) =
                  some (⟨140, [.word 0x8002], none, none⟩, rest) ∧
              jumpDestination v.before.image.cursor 0x8002 = 32836 - 65536 := by
  have hlength : textLength (letters 49152) = 32768 :=
    ZText.Encoder.length_encode_letters rfl 49152
  obtain ⟨story, p, hresult, hp, hfits, w, hw, hset, v, hv, hi, hblock, hhere, l, hl, hk, houtside,
    hthere⟩ := leaping_assembles (show textLength (letters 49152) < 100000 by omega)
  rw [hlength] at hthere
  obtain ⟨p', hp', hmakes⟩ := exists_finalPass hresult
  cases hp.symm.trans hp'
  obtain ⟨rest, hdecode⟩ :=
    settled_jump hmakes hw hset hfits hv hi (by decide +kernel) rfl hblock hl hk
  have hword : Bytecode.jumpOffset l.before.image.cursor v.before.image.cursor = 0x8002 := by
    rw [hthere, hhere]
    decide
  rw [hword] at hdecode
  refine ⟨story, p, hresult, hp, hfits, w, hw, hset, v, hv, hi, hblock, l, hl, hk, houtside, hthere,
    rest, hdecode, ?_⟩
  rw [hhere]
  decide

end ZAssembler.Assembly
