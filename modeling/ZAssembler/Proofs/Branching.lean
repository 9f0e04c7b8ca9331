import ZAssembler.Proofs.Encoding
import ZAssembler.Proofs.Lasting

/-
  Every branch lands on its label. A branch is encoded for the position at which its label is
  guessed. A walk that finds a label elsewhere is repeated, so in a settled walk each label is where
  the branches to it were encoded for: `Guessed` is the invariant of such a walk. The machine
  decodes the instruction's bytes in the story as they were encoded, and the destination it reads
  is the label's position.
-/

namespace ZAssembler.Assembly

open Bytecode Machine

/-! ## Instructions that succeed -/

theorem lookup_found {name : String} {v : Version} {op : Opcode}
    (h : Opcode.lookup name v = .found op) : op ∈ Opcode.table ∧ op.availableIn v = true := by
  unfold Opcode.lookup at h
  dsimp only at h
  split at h
  · next o ho =>
    cases h
    exact ⟨List.mem_of_mem_filter (List.mem_of_find?_eq_some ho),
      List.find?_some (p := fun o : Opcode => o.availableIn v) ho⟩
  · split at h <;> cases h

theorem select_found {name : String} {count : Nat} {v : Version} {op : Opcode}
    (h : Opcode.select name count v = .found op) : op ∈ Opcode.table ∧ op.availableIn v = true := by
  unfold Opcode.select at h
  split at h
  · next o ho =>
    split at h
    · split at h
      · exact lookup_found h
      · cases h
        exact lookup_found ho
    · cases h
      exact lookup_found ho
  · exact lookup_found h

/-- An instruction with the shape of its opcode branches if the opcode does. -/
theorem branches_of_shape {i : Instruction} {op : Opcode} (h : shapeProblem? i op = none) :
    i.branch.isSome = op.branches := by
  unfold shapeProblem? at h
  split at h
  · cases h
  · split at h
    · cases h
    · next hnowhere =>
      split at h
      · cases h
      · next hneeds =>
        rw [← Option.not_isSome] at hneeds
        cases hi : i.branch.isSome <;> cases ho : op.branches <;> simp_all

theorem destination_label_ok {name : String} {s t : State} {d : Destination}
    (h : destination (.label name) s = .ok d t) :
    s.scope.isSome = true ∧ ∃ symbol, s.locals.lookup name = some symbol ∧ symbol.kind = .label ∧
      d = .address symbol.value.toUInt32.toNat := by
  unfold destination at h
  dsimp only at h
  rw [get_bind] at h
  cases hs : s.scope with
  | none =>
    rw [hs] at h
    cases h
  | some scope =>
    rw [hs] at h
    cases hl : s.locals.lookup name with
    | none =>
      rw [hl] at h
      cases h
    | some symbol =>
      rw [hl] at h
      by_cases hk : symbol.kind = .label
      · simp only [hk, if_true] at h
        cases h
        exact ⟨rfl, symbol, rfl, hk, rfl⟩
      · simp only [hk, if_false] at h
        cases h

theorem branchField_ok {branch : Option Branch} {field : Option BranchField} {s : State}
    (h : (branch.mapM fun b : Branch => (do
      return { onTrue := b.onTrue, destination := ← destination b.target } : Step BranchField)) s =
        .ok field s) :
    field.isSome = branch.isSome ∧ ∀ b, branch = some b →
      ∃ d, destination b.target s = .ok d s ∧ field = some ⟨b.onTrue, d⟩ := by
  cases branch with
  | none =>
    cases h
    exact ⟨rfl, fun b hb => nomatch hb⟩
  | some b =>
    obtain ⟨f, t1, hf, h1⟩ := bind_ok h
    cases h1
    obtain ⟨d, t2, hd, h2⟩ := bind_ok hf
    cases h2
    refine ⟨rfl, fun b' hb => ?_⟩
    cases hb
    exact ⟨d, hd, rfl⟩

theorem selectOpcode_ok {cx : Context} {name : String} {count : Nat} {op : Opcode} {s t : State}
    (h : selectOpcode cx name count s = .ok op t) :
    Opcode.select name count cx.version = .found op ∧ t = s := by
  unfold selectOpcode at h
  cases hs : Opcode.select name count cx.version with
  | found o =>
    rw [hs] at h
    cases h
    exact ⟨rfl, rfl⟩
  | wrongVersion => rw [hs] at h; cases h
  | unknown => rw [hs] at h; cases h

/-- What an instruction that succeeds has done: its request is encoded and the bytes stored. -/
theorem instruction_request {cx : Context} (hm : cx.mode = .assembling) {n : Node}
    {i : Instruction} (hnode : n.kind = .instruction i) {s t : State}
    (h : instruction cx i s = .ok () t) :
    ∃ req enc args, Opcode.select i.opcode i.operands.length cx.version = .found req.opcode ∧
      shapeProblem? i req.opcode = none ∧ req.address = s.image.cursor ∧
      arguments cx req.opcode s.image.cursor i.operands s = .ok args s ∧
      req.operands = args.map (·.operand) ∧
      (i.branch.mapM fun b : Branch => (do
        return { onTrue := b.onTrue, destination := ← destination b.target } :
        Step BranchField)) s =
          .ok req.branch s ∧
      encode req = .ok enc ∧ Changes cx n { s with image := s.image.store enc.bytes } t := by
  unfold instruction at h
  obtain ⟨op, t1, hselect, hrest⟩ := bind_ok h
  clear h
  obtain ⟨hfound, rfl⟩ := selectOpcode_ok hselect
  cases hshape : shapeProblem? i op with
  | some problem => rw [hshape] at hrest; cases hrest
  | none =>
    rw [hshape] at hrest
    obtain ⟨address, t2, hposition, h1⟩ := bind_ok hrest
    cases hposition
    obtain ⟨args, t3, hargs, h2⟩ := bind_ok h1
    obtain rfl := ((work_arguments (.refl cx) op _ _ _).unchanged hm).of_ok hargs
    obtain ⟨target, t4, htarget, h3⟩ := bind_ok h2
    obtain rfl := ((work_storeTarget (.refl cx) _ _).unchanged hm).of_ok htarget
    obtain ⟨branch, t5, hbranch, h4⟩ := bind_ok h3
    obtain rfl := ((work_branchField _ _).unchanged hm).of_ok hbranch
    clear hrest h1 h2 h3
    rw [get_bind] at h4
    refine ⟨⟨op, args.map (·.operand), target.map (·.1), branch, i.text.map t1.encoder.encode,
      t1.image.cursor⟩, ?_⟩
    cases henc : encode ⟨op, args.map (·.operand), target.map (·.1), branch,
        i.text.map t1.encoder.encode, t1.image.cursor⟩ with
    | error error => rw [henc] at h4; cases h4
    | ok enc =>
      rw [henc] at h4
      obtain ⟨⟨⟩, t6, hstore, h5⟩ := bind_ok h4
      cases hstore
      refine ⟨enc, args, hfound, hshape, rfl, hargs, rfl, hbranch, rfl, ?_⟩
      have hfinish (u : State) : Work n 0 cx cx .changing u
          (finishInstruction i t1.image.cursor args target enc)
          (finishInstruction i t1.image.cursor args target enc) :=
        work_finishInstruction hnode (Nat.zero_le _) enc
          (fun hm => yields_arguments hm op _ _ _ args _ hargs)
          (fun hm => yields_storeTarget hm _ _ target _ htarget) u
      exact ((hfinish _).does hm).of_ok h5

theorem instruction_ok {cx : Context} (hm : cx.mode = .assembling) {n : Node} {i : Instruction}
    (hnode : n.kind = .instruction i) {s t : State} (h : instruction cx i s = .ok () t) :
    ∃ req enc, req.opcode ∈ Opcode.table ∧ req.opcode.availableIn cx.version = true ∧
      req.address = s.image.cursor ∧ req.branch.isSome = req.opcode.branches ∧
      (∀ b, i.branch = some b → ∃ d, destination b.target s = .ok d s ∧
        req.branch = some ⟨b.onTrue, d⟩) ∧
      encode req = .ok enc ∧ Changes cx n { s with image := s.image.store enc.bytes } t := by
  obtain ⟨req, enc, args, hfound, hshape, haddress, -, -, hbranch, henc, hrest⟩ :=
    instruction_request hm hnode h
  obtain ⟨hop, havailable⟩ := select_found hfound
  obtain ⟨hsome, hfield⟩ := branchField_ok hbranch
  exact ⟨req, enc, hop, havailable, haddress, hsome.trans (branches_of_shape hshape), hfield,
    henc, hrest⟩

/-! ## The labels of a routine -/

/-- Locals change at the head of a routine and at its labels only. -/
theorem Change.locals_eq {cx : Context} (hm : cx.mode = .assembling) {n : Node} {s t : State}
    (h : Change cx n s t) (hhead : ∀ name decls, n.kind ≠ .directive (.funct name decls))
    (hlabel : ∀ name, n.kind ≠ .localLabel name) : t.locals = s.locals := by
  cases h with
  | aside h => exact h.locals
  | define name kind value hkind _ h =>
    obtain ⟨-, symbol, u, -, hu, rfl⟩ := defineGlobal_ok hm hkind h
    cases hu <;> rfl
  | closeBlock _ h =>
    rcases closeBlock_cases hm h with rfl | ⟨v, complete, -, hc⟩
    · rfl
    · exact hc.locals
  | localLabel name hnode _ => exact absurd hnode (hlabel name)
  | locals table name decls hnode => exact absurd hnode (hhead name decls)
  | report | store | fixup | label | openBlock => rfl

theorem Changes.locals_eq {cx : Context} (hm : cx.mode = .assembling) {n : Node} {s t : State}
    (h : Changes cx n s t) (hhead : ∀ name decls, n.kind ≠ .directive (.funct name decls))
    (hlabel : ∀ name, n.kind ≠ .localLabel name) : t.locals = s.locals := by
  induction h with
  | refl => rfl
  | tail _ hstep ih => exact (hstep.locals_eq hm hhead hlabel).trans ih

/-- Each label of a routine has its value among the locals, and no other local is a label. -/
structure Guessed (labels : List String) (value : String → Int32) (t : SymbolTable) : Prop where
  declared : ∀ name ∈ labels, ∃ symbol, t.lookup name = some symbol ∧ symbol.kind = .label ∧
    symbol.value = value name
  only : ∀ name symbol, t.lookup name = some symbol → symbol.kind = .label → name ∈ labels

theorem lookup_predeclareAll (labels : List String) (value : String → Int32) (t : SymbolTable)
    (name : String) :
    (labels.foldl (fun table label => table.predeclare label (value label)) t).lookup name =
      if name ∈ labels then some { name, kind := .label, value := value name, phantom := true }
      else t.lookup name := by
  induction labels generalizing t with
  | nil => rfl
  | cons label rest ih =>
    rw [List.foldl_cons, ih, SymbolTable.predeclare, SymbolTable.lookup_put]
    by_cases hrest : name ∈ rest
    · simp [hrest]
    · by_cases hname : label = name
      · simp [hname, hrest]
      · simp [hname, hrest, Ne.symm hname]

theorem guessed_predeclareAll {labels : List String} (value : String → Int32) {t : SymbolTable}
    (h : ∀ name symbol, t.lookup name = some symbol → symbol.kind ≠ .label) :
    Guessed labels value
      (labels.foldl (fun table label => table.predeclare label (value label)) t) := by
  refine ⟨fun name hname => ?_, fun name symbol hsymbol hkind => ?_⟩
  · rw [lookup_predeclareAll, if_pos hname]
    exact ⟨_, rfl, rfl, rfl⟩
  · rw [lookup_predeclareAll] at hsymbol
    split at hsymbol
    · assumption
    · exact absurd hkind (h name symbol hsymbol)

/-- No local is a label. -/
def Unlabelled (t : SymbolTable) : Prop :=
  ∀ name symbol, t.lookup name = some symbol → symbol.kind ≠ .label

theorem unlabelled_empty : Unlabelled .empty := fun _ _ h => nomatch h

theorem unlabelled_declare (decls : List (LocalDecl × Nat)) {t : SymbolTable} (h : Unlabelled t) :
    Unlabelled (decls.foldl
      (fun table decl => (table.set decl.1.name .var (Int32.ofNat (decl.2 + 1))).2) t) := by
  induction decls generalizing t with
  | nil => exact h
  | cons decl rest ih =>
    refine ih fun name symbol hsymbol => ?_
    change (t.put _).lookup name = some symbol at hsymbol
    rw [SymbolTable.lookup_put] at hsymbol
    split at hsymbol
    · cases hsymbol
      exact fun hk => nomatch hk
    · exact h name symbol hsymbol

section Head

variable {cx : Context} (hm : cx.mode = .assembling)

include hm

/-- A step that can be part of any node's work keeps the locals. -/
theorem locals_of_work {α : Type} {m : Step α} {s t : State} {x : α}
    (h : Work .idle 0 cx cx .changing s m m) (ht : m s = .ok x t) : t.locals = s.locals :=
  ((h.does hm).of_ok ht).locals_eq hm (fun _ _ hk => nomatch hk) (fun _ hk => nomatch hk)

theorem headOpening_unlabelled {name : String} {decls : List LocalDecl} {s t : State} {start : Nat}
    (h : headOpening cx name decls s = .ok start t) : Unlabelled t.locals := by
  unfold headOpening at h
  rw [modify_bind] at h
  obtain ⟨packed, t1, hplace, h1⟩ := bind_ok h
  obtain ⟨here, t2, hposition, h2⟩ := bind_ok h1
  cases hposition
  obtain ⟨⟨⟩, t3, hdefine, h3⟩ := bind_ok h2
  have ht1 := locals_of_work hm (work_placePacked _ _ _) hplace
  have ht3 := locals_of_work hm
    (work_defineGlobal (.refl cx) name _ (fun _ => by decide) fun _ hk => nomatch hk) hdefine
  have hdeclare : ∀ u : State, u.locals = .empty → (do
      storeByte (UInt8.ofNat (decls.take maxLocals).length)
      declareLocals (decls.take maxLocals)
      return t1.image.cursor : Step Nat) u = .ok start t → Unlabelled t.locals := by
    intro u hu hdeclare
    obtain ⟨⟨⟩, t4, hstore, h4⟩ := bind_ok hdeclare
    cases hstore
    cases h4
    exact unlabelled_declare _ (hu ▸ unlabelled_empty)
  have hempty : t3.locals = .empty := ht3.trans ht1
  split at h3
  · obtain ⟨⟨⟩, t4, hreport, h4⟩ := bind_ok h3
    exact hdeclare t4 ((locals_of_work hm (.reportError _) hreport).trans hempty) h4
  · exact hdeclare t3 hempty h3

/-- The head of a routine declares its labels, each at one value. -/
theorem routineHead_guessed {name : String} {decls : List LocalDecl} {s t : State}
    (h : routineHead cx name decls s = .ok () t) {scope : RoutineScope}
    (hs : s.scope = some scope) : ∃ value, Guessed scope.labels value t.locals := by
  have hhead : Changes cx { kind := .directive (.funct name decls) } s t :=
    (Work.does (a := 0) (work_routineHead (.refl cx) rfl s) hm).of_ok h
  rw [routineHead_eq] at h
  obtain ⟨start, t1, hopening, h1⟩ := bind_ok h
  obtain ⟨⟨⟩, t2, hdefaults, h2⟩ := bind_ok h1
  rw [predeclareLabels_eq] at h2
  cases h2
  obtain ⟨last, hlast, hcontinues⟩ := (hhead.later hm).inside scope hs
  have hlast : t2.scope = some last := hlast
  have hunlabelled : Unlabelled t2.locals := by
    rw [locals_of_work hm (work_localDefaults (.refl cx) _ _ _) hdefaults]
    exact headOpening_unlabelled hm hopening
  refine ⟨fun name => last.guess name (Int32.ofNat start), ?_⟩
  unfold State.withLabels
  rw [hlast, ← hcontinues.labels]
  exact guessed_predeclareAll _ hunlabelled

end Head

/-! ## Settled walks -/

theorem Guessed.confirm {labels : List String} {value : String → Int32} {t : SymbolTable}
    (h : Guessed labels value t) {name : String} {symbol : Symbol} {position : Int32}
    (hsymbol : t.lookup name = some symbol) (hposition : symbol.value = position) :
    Guessed labels value (t.put { symbol with value := position, phantom := false }) := by
  have hname := name_of_lookup hsymbol
  refine ⟨fun other hother => ?_, fun other found hfound hkind => ?_⟩
  · rw [SymbolTable.lookup_put]
    by_cases heq : symbol.name = other
    · rw [if_pos heq]
      obtain ⟨same, hsame, hkind, hvalue⟩ := h.declared other hother
      rw [← heq, hname, hsymbol] at hsame
      cases hsame
      exact ⟨_, rfl, hkind, hposition ▸ hvalue⟩
    · rw [if_neg heq]
      exact h.declared other hother
  · rw [SymbolTable.lookup_put] at hfound
    by_cases heq : symbol.name = other
    · rw [if_pos heq] at hfound
      cases hfound
      exact h.only other symbol (by rw [← heq, hname, hsymbol]) hkind
    · rw [if_neg heq] at hfound
      exact h.only other found hfound hkind

/-- A node after which no label has moved keeps the values of the labels; a label is found where it
    was guessed. -/
theorem node_guessed {cx : Context} (hm : cx.mode = .assembling) {n : Node} {s t : State}
    (hok : node cx n s = .ok () t) (hhead : ∀ name decls, n.kind ≠ .directive (.funct name decls))
    (hstill : ∀ scope, t.scope = some scope → scope.moved = false) {labels : List String}
    (hlabels : ∀ name, n.kind = .localLabel name → name ∈ labels) {value : String → Int32}
    (hs : Guessed labels value s.locals) :
    Guessed labels value t.locals ∧
      ∀ name, n.kind = .localLabel name → value name = Int32.ofNat s.image.cursor := by
  by_cases hl : ∃ name, n.kind = .localLabel name
  · obtain ⟨name, hname⟩ := hl
    have hlabel : localLabel name s = .ok () t := node_localLabel hname ▸ hok
    obtain ⟨scope, symbol, -, hsymbol, hlocals, ⟨hvalue, -⟩ | ⟨-, hmoved⟩⟩ := localLabel_ok hlabel
    · refine ⟨hlocals ▸ hs.confirm hsymbol hvalue, fun other hother => ?_⟩
      rw [hname] at hother
      cases hother
      obtain ⟨same, hsame, -, hguess⟩ := hs.declared name (hlabels name hname)
      rw [hsymbol] at hsame
      cases hsame
      rw [← hguess, hvalue]
    · cases hstill _ hmoved
  · have hnone : ∀ name, n.kind ≠ .localLabel name := fun name hname => hl ⟨name, hname⟩
    have hchanges : Changes cx n s t := (node_does hm s).of_ok hok
    rw [hchanges.locals_eq hm hhead hnone]
    exact ⟨hs, fun name hname => absurd hname (hnone name)⟩

/-- A walk in which no label moves keeps the values of its labels, and finds each where it was
    guessed. -/
theorem Reads.guessed {cx : Context} (hm : cx.mode = .assembling) {s t : State} {vs : List Visit}
    (h : Reads cx s vs t) (hok : ∀ v ∈ vs, node cx v.node v.before = .ok () v.after)
    (hhead : ∀ v ∈ vs, ∀ name decls, v.node.kind ≠ .directive (.funct name decls))
    (hstill : ∀ scope, t.scope = some scope → scope.moved = false) {labels : List String}
    (hlabels : ∀ v ∈ vs, ∀ name, v.node.kind = .localLabel name → name ∈ labels)
    {value : String → Int32} (hs : Guessed labels value s.locals) :
    ∀ v ∈ vs, Guessed labels value v.before.locals ∧
      ∀ name, v.node.kind = .localLabel name → value name = Int32.ofNat v.before.image.cursor := by
  induction h with
  | nil s => exact fun v hv => nomatch hv
  | @cons s u w vs index n _ rest ih =>
    -- a label that moved here would have moved at the end
    have hstill' : ∀ scope, u.scope = some scope → scope.moved = false := by
      intro scope hscope
      obtain ⟨last, hlast, hcontinues⟩ := (rest.later hm).inside scope hscope
      cases hmoved : scope.moved with
      | false => rfl
      | true => exact (hcontinues.moved hmoved).symm.trans (hstill last hlast)
    obtain ⟨hu, hvalue⟩ := node_guessed hm (hok _ List.mem_cons_self) (hhead _ List.mem_cons_self)
      hstill' (hlabels _ List.mem_cons_self) hs
    intro v hv
    rcases List.mem_cons.mp hv with rfl | hv
    · exact ⟨hs, hvalue⟩
    · exact ih (fun v hv => hok v (List.mem_cons_of_mem _ hv))
        (fun v hv => hhead v (List.mem_cons_of_mem _ hv)) hstill
        (fun v hv => hlabels v (List.mem_cons_of_mem _ hv)) hu v hv

/-- Nodes are cut at the heads of routines. -/
theorem sections_cut (nodes : List Node) :
    (∀ n ∈ (Program.sections nodes).1, ∀ name decls, n.kind ≠ .directive (.funct name decls)) ∧
      ∀ r ∈ (Program.sections nodes).2,
        (∃ decls, r.head.kind = .directive (.funct r.name decls)) ∧
          ∀ n ∈ r.body, ∀ name decls, n.kind ≠ .directive (.funct name decls) := by
  induction nodes with
  | nil => exact ⟨fun n hn => (nomatch hn), fun r hr => nomatch hr⟩
  | cons n rest ih =>
    obtain ⟨hnodes, hroutines⟩ := ih
    unfold Program.sections
    dsimp only
    split
    · next name decls hk =>
      refine ⟨fun n hn => (nomatch hn), fun r hr => ?_⟩
      rcases List.mem_cons.mp hr with rfl | hr
      · exact ⟨⟨decls, hk⟩, hnodes⟩
      · exact hroutines r hr
    · next hk =>
      refine ⟨fun m hm => ?_, hroutines⟩
      rcases List.mem_cons.mp hm with rfl | hm
      · exact hk
      · exact hnodes m hm

theorem routine_of_program {nodes : List Node} {r : Routine}
    (h : r ∈ (Program.ofNodes nodes).routines) :
    (∃ decls, r.head.kind = .directive (.funct r.name decls)) ∧
      ∀ n ∈ r.body, ∀ name decls, n.kind ≠ .directive (.funct name decls) :=
  (sections_cut _).2 r h

/-- What the labels of a walk are worth: every instruction sees each label at one value, and that is
    where the label was found. -/
structure Labelled (w : Walk) (labels : List String) (value : String → Int32) : Prop where
  seen : ∀ v ∈ w.visits, ∀ i, v.node.kind = .instruction i → Guessed labels value v.before.locals
  found : ∀ l ∈ w.visits, ∀ name, l.node.kind = .localLabel name →
    name ∈ labels ∧ value name = Int32.ofNat l.before.image.cursor
  reached : ∀ name ∈ labels, ∃ l ∈ w.visits, l.node.kind = .localLabel name

theorem mem_localLabels {body : List Node} {name : String} :
    name ∈ body.filterMap Node.localLabel? ↔ ∃ n ∈ body, n.kind = .localLabel name := by
  rw [List.mem_filterMap]
  refine exists_congr fun n => and_congr_right fun _ => ?_
  unfold Node.localLabel?
  cases n.kind <;> simp

section Settled

variable {p : FinalPass} {o : Options} {nodes : List Node} {story : AssembledStory}
  (h : p.Makes o nodes story) {w : Walk} (hw : w ∈ p.walks) (hset : w.settled = true)

include h hw hset

/-- The labels of a settled walk of a routine are where they were guessed. -/
theorem settled_labelled {t : State} {place : Place} {r : Routine} {scope : RoutineScope}
    (hplace : Settled p.context p.program.routines p.start p.moments t w place)
    (hr : r ∈ p.program.routines) (hnodes : place.nodes = r.nodes)
    (hscope : place.entry.scope = some scope)
    (hlabels : scope.labels = r.body.filterMap Node.localLabel?) :
    ∃ value, Labelled w scope.labels value := by
  rw [h.program] at hr
  obtain ⟨⟨decls, hhead⟩, hbody⟩ := routine_of_program hr
  have hreads := hplace.reads
  rw [hnodes] at hreads
  obtain ⟨⟨⟩, s, hfirst, hrest⟩ := bind_ok hreads
  have hvisits : w.visits = ⟨place.start, r.head, place.entry.reach place.start r.head, s⟩ ::
      visits p.context (place.start + 1) r.body s := by
    rw [hplace.visits, hnodes, Routine.nodes, visits, hfirst]
  have hok : ∀ v ∈ w.visits, node p.context v.node v.before = .ok () v.after :=
    fun v hv => settled_ok h hw hset hv
  have hopen : routineHead p.context r.name decls (place.entry.reach place.start r.head) =
      .ok () s := by
    have hnode := hok _ (hvisits ▸ List.mem_cons_self)
    rw [node_directive hhead] at hnode
    exact hnode
  obtain ⟨value, hguessed⟩ := routineHead_guessed h.mode hopen hscope
  have hstill : ∀ last, w.finish.scope = some last → last.moved = false := by
    intro last hlast
    rcases hplace.goesOn with ⟨hnone, -⟩ | ⟨last', hlast', hmoved, -⟩
    · cases hnone.symm.trans hlast
    · cases hlast'.symm.trans hlast
      exact hmoved
  have hmem : ∀ v ∈ visits p.context (place.start + 1) r.body s, v.node ∈ r.body :=
    fun v hv => List.mem_of_getElem? (mem_visits hv).2
  have hname : ∀ v ∈ visits p.context (place.start + 1) r.body s, ∀ name,
      v.node.kind = .localLabel name → name ∈ scope.labels := by
    intro v hv name hk
    rw [hlabels]
    exact mem_localLabels.mpr ⟨v.node, hmem v hv, hk⟩
  have hwalk := (visitAll_reads _ _ hrest).guessed h.mode
    (fun v hv => hok v (hvisits ▸ List.mem_cons_of_mem _ hv)) (fun v hv => hbody _ (hmem v hv))
    hstill hname hguessed
  refine ⟨value, fun v hv i hi => ?_, fun l hl name hk => ?_, fun name hl => ?_⟩
  · rw [hvisits] at hv
    rcases List.mem_cons.mp hv with rfl | hv
    · cases hhead.symm.trans hi
    · exact (hwalk v hv).1
  · rw [hvisits] at hl
    rcases List.mem_cons.mp hl with rfl | hl
    · cases hhead.symm.trans hk
    · exact ⟨hname l hl name hk, (hwalk l hl).2 name hk⟩
  · rw [hlabels] at hl
    obtain ⟨n, hn, hlabel⟩ := mem_localLabels.mp hl
    obtain ⟨k, hk⟩ := List.getElem?_of_mem hn
    obtain ⟨v, hv, -, hvn⟩ := exists_visit hrest hk
    exact ⟨v, hvisits ▸ List.mem_cons_of_mem _ hv, hvn ▸ hlabel⟩

/-- The place of a settled walk that begins inside a routine. -/
theorem settled_routine {t : State} {place : Place}
    (hplace : Settled p.context p.program.routines p.start p.moments t w place) {v : Visit}
    (hv : v ∈ w.visits) (hscope : v.before.scope.isSome = true) :
    ∃ labels value, Labelled w labels value := by
  have hcases := hplace.begins
  cases hb : place.entry.scope with
  | none =>
    rw [hplace.visits] at hv
    obtain ⟨earlier, later, u, -, hreads, hbefore, -⟩ := visits_split hplace.reads hv
    rw [hbefore] at hscope
    rw [show (u.reach v.index v.node).scope = none from (hreads.later h.mode).outside hb] at hscope
    cases hscope
  | some scope =>
    generalize hn : place.nodes = ns at hcases
    cases hcases with
    | preamble hs => cases hs.symm.trans hb
    | routine r scope' hr hs hlabels hmoved =>
      obtain ⟨value, hvalue⟩ := settled_labelled h hw hset hplace hr hn hs hlabels
      exact ⟨_, value, hvalue⟩

variable (hfit : p.Fits)

include hfit

/-- The machine reads the branch of a settled instruction as a branch to its label. -/
theorem settled_branch {v : Visit} (hv : v ∈ w.visits) {i : Instruction} {b : Branch}
    {name : String} (hi : v.node.kind = .instruction i) (hb : i.branch = some b)
    (hname : b.target = .label name) (hblock : v.before.vocabulary = none) :
    (∃ l ∈ w.visits, l.node.kind = .localLabel name) ∧
      ∀ l ∈ w.visits, l.node.kind = .localLabel name →
        ∃ d rest, decode p.context.version v.before.image.cursor
            (story.bytes.drop v.before.image.cursor) = some (d, rest) ∧
          d.branch = some ⟨b.onTrue, .address l.before.image.cursor⟩ := by
  have hok : instruction p.context i v.before = .ok () v.after :=
    node_instruction hi ▸ settled_ok h hw hset hv
  obtain ⟨req, enc, hop, havailable, haddress, hbranches, hfield, henc, hrest⟩ :=
    instruction_ok h.mode hi hok
  obtain ⟨d, hd, hreq⟩ := hfield b hb
  rw [hname] at hd
  obtain ⟨hscope, symbol, hsymbol, hkind, rfl⟩ := destination_label_ok hd
  obtain ⟨t, hcourse⟩ := h.course
  obtain ⟨place, hplace⟩ := hcourse.settled w hw hset
  obtain ⟨labels, value, hlabelled⟩ := settled_routine h hw hset hplace hv hscope
  have hguessed := hlabelled.seen v hv i hi
  have hmem := hguessed.only name symbol hsymbol hkind
  refine ⟨hlabelled.reached name hmem, fun l hl hk => ?_⟩
  obtain ⟨same, hsame, -, hvalue⟩ := hguessed.declared name hmem
  cases hsymbol.symm.trans hsame
  have hhere := settled_cursor_lt h hfit hw hset hv
  have hthere := settled_cursor_lt h hfit hw hset hl
  have hposition : symbol.value.toUInt32.toNat = l.before.image.cursor := by
    rw [hvalue, (hlabelled.found l hl name hk).2, Int32.toUInt32_ofNat', UInt32.toNat_ofNat']
    omega
  rw [hposition] at hreq
  obtain ⟨rest, hbytes⟩ := settled_bytes h hfit hw hset hv .refl hblock hrest
  refine ⟨expected req, req.text.getD [] ++ rest, ?_, hreq⟩
  rw [← hbytes, ← haddress]
  refine decode_encode_append p.context.version req hop havailable hbranches (by omega) ?_
    enc henc rest
  intro field target hfield' hdestination
  rw [hreq] at hfield'
  cases hfield'
  cases hdestination
  omega

end Settled

/-- Every branch to a label, of every instruction outside a vocabulary block, lands on the label:
    decoded from the story it goes to where the settled walk reached the label, which it did. Each
    instruction that the pass reaches is reached by a settled walk. -/
theorem branches_land_on_labels {o : Options} {nodes : List Node} {story : AssembledStory}
    (h : (assemble o nodes).result = .ok story) :
    ∃ p, finalPass? o nodes = some p ∧
      (∀ x ∈ p.visits, ∃ w ∈ p.walks, w.settled = true ∧
        ∃ v ∈ w.visits, v.index = x.index ∧ v.node = x.node) ∧
      (p.Fits → ∀ w ∈ p.walks, w.settled = true → ∀ v ∈ w.visits, ∀ i b name,
        v.node.kind = .instruction i → i.branch = some b → b.target = .label name →
        v.before.vocabulary = none →
        (∃ l ∈ w.visits, l.node.kind = .localLabel name) ∧
          ∀ l ∈ w.visits, l.node.kind = .localLabel name →
            ∃ d rest, decode p.context.version v.before.image.cursor
                (story.bytes.drop v.before.image.cursor) = some (d, rest) ∧
              d.branch = some ⟨b.onTrue, .address l.before.image.cursor⟩) := by
  obtain ⟨p, hp, hmakes⟩ := exists_finalPass h
  obtain ⟨t, hcourse⟩ := hmakes.course
  refine ⟨p, hp, hcourse.reaches, fun hfit w hw hset v hv i b name hi hb hname hblock => ?_⟩
  exact settled_branch hmakes hw hset hfit hv hi hb hname hblock

/-- A branch over three bytes of data, in a routine that takes three walks to settle. -/
def skipData : Instruction where
  opcode := "ZERO?"
  operands := [.number 1]
  branch := some ⟨true, .label "DONE"⟩

def skipping : List Node :=
  [⟨.directive (.funct "MAIN" []), {}⟩, ⟨.instruction skipData, {}⟩,
    ⟨.directive (.byte [.number 1, .number 2, .number 3]), {}⟩, ⟨.localLabel "DONE", {}⟩,
    ⟨.instruction { opcode := "RTRUE" }, {}⟩]

def skippingOptions : Options := { version := .v3, identity := { serial := "260101" } }

theorem skipping_lands :
    ∃ story p, (assemble skippingOptions skipping).result = .ok story ∧
      finalPass? skippingOptions skipping = some p ∧ p.Fits ∧
      ∃ w ∈ p.walks, w.settled = true ∧
        ∃ v ∈ w.visits, v.node.kind = .instruction skipData ∧ v.before.vocabulary = none ∧
          ∃ l ∈ w.visits, l.node.kind = .localLabel "DONE" ∧
            ∃ d rest, decode p.context.version v.before.image.cursor
                (story.bytes.drop v.before.image.cursor) = some (d, rest) ∧
              d.branch = some ⟨true, .address l.before.image.cursor⟩ := by
  obtain ⟨story, p, hresult, hp, hrun⟩ := exists_run skippingOptions skipping
    (fun p => decide p.Fits && p.walks.any fun w => w.settled && w.visits.any fun v =>
      decide (v.node.kind = .instruction skipData) && v.before.vocabulary.isNone)
    (by decide +kernel)
  simp only [List.any_eq_true, Bool.and_eq_true, decide_eq_true_eq, Option.isNone_iff_eq_none]
    at hrun
  obtain ⟨hfits, w, hw, hset, v, hv, hi, hblock⟩ := hrun
  obtain ⟨p', hp', -, hbranches⟩ := branches_land_on_labels hresult
  cases hp.symm.trans hp'
  obtain ⟨⟨l, hl, hk⟩, hlands⟩ := hbranches hfits w hw hset v hv skipData _ "DONE" hi rfl rfl hblock
  exact ⟨story, p, hresult, hp, hfits, w, hw, hset, v, hv, hi, hblock, l, hl, hk, hlands l hl hk⟩

end ZAssembler.Assembly
