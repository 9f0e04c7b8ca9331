import Mathlib.Data.List.Forall2
import ZAssembler.Proofs.Definitions
import ZAssembler.Proofs.Reporting
import ZAssembler.Proofs.Thread

/-
  What a program counts and collects. Each node adds its own to the tally and nothing else
  (`node_adds`), and the settled walks hand the tally on; so objects and global variables are
  numbered in the order of their nodes, each debug directive makes one record, and each literal text
  is collected once, however often the routines around them are walked.
-/

namespace ZAssembler

theorem Node.kind_of_object? {n : Node} {entry : ObjectEntry} (h : n.object? = some entry) :
    n.kind = .directive (.object entry) := by
  unfold Node.object? at h
  split at h
  · next hkind =>
    cases h
    exact hkind
  · cases h

theorem Node.kind_of_globalVar? {n : Node} {name : String} (h : n.globalVar? = some name) :
    ∃ default, n.kind = .directive (.gvar name default) := by
  unfold Node.globalVar? at h
  split at h
  · next default hkind =>
    cases h
    exact ⟨default, hkind⟩
  · cases h

namespace Assembly

/-! ## What a node adds -/

/-- The record that a debug directive makes where it is reached. -/
inductive Records (cx : Context) (s : State) : DebugDirective → DebugRecord → Prop
  | file (number : UInt16) (includeName actualName : String) :
    Records cx s (.file number includeName actualName) (.file number includeName actualName)
  | line (point : SourcePoint) : Records cx s (.line point) (.line point s.image.cursor)
  | routine (point : SourcePoint) (name : String) (locals : List String) :
    Records cx s (.routine point name locals) (.routineStart point s.image.cursor name locals)
  | routineEnd (point : SourcePoint) :
    Records cx s (.routineEnd point) (.routineEnd point s.image.cursor)
  | named (table : DebugTable) (number : Expr) (name : String) {kind : SymbolKind} {value : Int32}
    (h : number.eval (s.scoping cx) = .ok (.known kind value)) :
    Records cx s (.named table number name) (.named table value name)

/-- What node `n` adds to the tally. -/
structure Adds (cx : Context) (n : Node) (s t : State) : Prop where
  objects : t.objects = s.objects + n.object?.toList.length
  globalVars : t.globalVars = s.globalVars + n.globalVar?.toList.length
  debug : ∃ records, List.Forall₂ (Records cx s) n.debug?.toList records ∧
    t.debug.toList = s.debug.toList ++ records
  text : t.text = s.text.map fun finder => n.texts.foldl Abbreviation.Finder.add finder

section Adds

variable {cx : Context} {n : Node} {here : Nat} {s t : State}

theorem Effect.tally (h : Effect here s t) : t.tally = s.tally := by
  cases h with
  | quiet h => exact congrArg Mark.tally h.mark
  | report | store | fixup | block | openBlock | table | scope | pack | register => rfl

/-- A node that is no object, variable or debug directive and has no text leaves the tally alone. -/
theorem Acts.tally (h : Acts n here s t) (hobject : n.object? = none)
    (hvariable : n.globalVar? = none) (hdebug : n.debug? = none) (htexts : n.texts = []) :
    t.tally = s.tally := by
  induction h with
  | refl => rfl
  | tail _ hstep ih =>
    rw [← ih]
    cases hstep with
    | effect h => exact h.tally
    | object hn => simp [hobject] at hn
    | globalVar hn => simp [hvariable] at hn
    | record r hn => simp [hdebug] at hn
    | text text hn => simp [htexts] at hn
    | close _ h => exact congrArg Mark.tally h.mark

theorem adds_of_tally (hdebug : n.debug? = none)
    (h : t.tally = ⟨s.objects + n.object?.toList.length, s.globalVars + n.globalVar?.toList.length,
      s.debug, s.text.map fun finder => n.texts.foldl Abbreviation.Finder.add finder⟩) :
    Adds cx n s t := by
  have hrecords : t.debug = s.debug := congrArg Tally.debug h
  refine ⟨congrArg Tally.objects h, congrArg Tally.globalVars h, ⟨[], ?_, ?_⟩,
    congrArg Tally.text h⟩
  · simp [hdebug]
  · simp [hrecords]

theorem adds_nothing (h : node cx n s = .ok () t) (hobject : n.object? = none)
    (hvariable : n.globalVar? = none) (hdebug : n.debug? = none) (htexts : n.texts = []) :
    Adds cx n s t := by
  have hacts : Acts n s.image.cursor s t := (node_acts cx s rfl).of_ok h
  have htally := hacts.tally hobject hvariable hdebug htexts
  exact adds_of_tally hdebug (htally.trans (by simp [State.tally, hobject, hvariable, htexts]))

end Adds

/-! ## Texts -/

/-- If the step succeeds, the tally is changed by `g`. -/
def Tallies {α : Type} (g : Tally → Tally) (m : Step α) (s : State) : Prop :=
  ∀ a t, m s = .ok a t → t.tally = g s.tally

/-- The tally with one more text. -/
def Tally.collect (a : Tally) (text : String) : Tally := { a with text := a.text.map (·.add text) }

section Texts

variable {cx : Context} {n : Node} {here : Nat} {s t : State}

theorem tallies_skip {α : Type} {g : Tally → Tally} (problem : Problem) (s : State) :
    Tallies g (skip problem : Step α) s :=
  fun _ _ h => nomatch h

theorem tallies_bind {α β : Type} {g : Tally → Tally} {m : Step α} {f : α → Step β}
    (hm : Tallies id m s) (hf : ∀ a t, m s = .ok a t → Tallies g (f a) t) :
    Tallies g (m >>= f) s := by
  intro b u h
  obtain ⟨a, t, ht, hu⟩ := bind_ok h
  rw [hf a t ht b u hu, hm a t ht]
  rfl

/-- Work that any node can do adds nothing. -/
theorem Work.still {α : Type} {m m' : Step α} (cx : Context)
    (h : Work .idle 0 cx cx .changing s m m') : Tallies id m s :=
  fun _ _ ht => (h.acts.of_ok ht).tally rfl rfl rfl rfl

/-- It leaves the tally to what follows. -/
theorem Work.tallies {α β : Type} {g : Tally → Tally} {m m' : Step α} {f : α → Step β}
    (cx : Context) (h : Work .idle 0 cx cx .changing s m m')
    (hf : ∀ x t, m s = .ok x t → Tallies g (f x) t) : Tallies g (m >>= f) s :=
  tallies_bind (h.still cx) hf

theorem tallies_defineGlobal (cx : Context) (name : String) {kind : SymbolKind} (value : Int32)
    (hkind : kind ≠ .unknown) : Tallies id (defineGlobal cx name kind value) s :=
  Work.still cx (work_defineGlobal (.refl cx) name value (fun _ => hkind) fun _ h => nomatch h)

theorem tallies_stringData (text : String) (s : State) :
    Tallies (·.collect text) (stringData text) s := by
  intro a t h
  cases h
  rfl

theorem tallies_countedString (cx : Context) (text : String) (s : State) :
    Tallies (·.collect text) (countedString text) s :=
  (work_encodeText text s).tallies cx fun _ t _ =>
    (work_storeLength _ t).tallies cx fun _ t _ => tallies_stringData text t

theorem tallies_packedString (cx : Context) (name text : String) (s : State) :
    Tallies (·.collect text) (packedString cx name text) s :=
  (work_placePacked _ _ s).tallies cx fun _ _ _ =>
    tallies_bind (tallies_defineGlobal cx name _ (by decide)) fun _ t _ => tallies_stringData text t

theorem tallies_instructionText (i : Instruction) (s : State) :
    Tallies (fun a => i.text.elim a a.collect) (match i.text with
      | some text => collectText text
      | none => pure () : Step Unit) s := by
  intro a t h
  cases hi : i.text with
  | none =>
    rw [hi] at h
    cases h
    rfl
  | some text =>
    rw [hi] at h
    cases h
    rfl

/-- An instruction collects its text when it is encoded and all that waits is noted. -/
theorem tallies_finishInstruction {args : List Argument}
    (hargs : cx.mode = .assembling → ∀ arg ∈ args, arg.waitsFor = none) (i : Instruction)
    (address : Nat) (target : Option (UInt8 × Option String)) (encoded : Bytecode.Encoded)
    (s : State) :
    Tallies (fun a => i.text.elim a a.collect) (finishInstruction i address args target encoded)
      s := by
  unfold finishInstruction
  refine (work_addOperandFixups (Nat.zero_le address) hargs _ s).tallies cx fun _ t _ => ?_
  dsimp only
  split
  · exact tallies_bind (fun _ _ ht => by cases ht; rfl) fun _ t _ =>
      tallies_instructionText i t
  · exact tallies_instructionText i t

theorem tallies_instruction (cx : Context) (i : Instruction) (s : State) :
    Tallies (fun a => i.text.elim a a.collect) (instruction cx i) s := by
  refine (work_selectOpcode (.refl cx) _ _ s).tallies cx fun op t _ => ?_
  dsimp only
  split
  · exact tallies_skip _ t
  · refine (work_position t).tallies cx fun address t _ => ?_
    refine (work_arguments (.refl cx) op _ _ t).tallies cx fun args t hargs => ?_
    refine (work_storeTarget (.refl cx) _ t).tallies cx fun target t _ => ?_
    refine (work_branchField _ t).tallies cx fun branch t _ => ?_
    refine tallies_bind (m := get) (fun _ _ ht => by cases ht; rfl) fun _ t _ => ?_
    split
    · exact tallies_skip _ t
    · refine (work_store _ t).tallies cx fun _ t _ => ?_
      exact tallies_finishInstruction (fun hm => yields_arguments hm op _ _ _ args _ hargs) i
        address target _ t

end Texts

/-! ## Numbers and records -/

section Numbers

variable {cx : Context} {n : Node} {s t : State}

theorem maxObjects_le (v : Version) : (objectLayout v).maxObjects ≤ 65535 := by
  unfold objectLayout
  split <;> decide

/-- An object is counted, and its number is the value of its name. -/
theorem object_ok (hm : cx.mode = .assembling) {entry : ObjectEntry}
    (h : object cx entry s = .ok () t) :
    s.objects < (objectLayout cx.version).maxObjects ∧
      Gives cx n entry.name (Int32.ofNat (s.objects + 1)) s t ∧
      t.tally = { s.tally with objects := s.objects + 1 } := by
  rw [object_eq] at h
  obtain ⟨⟨⟩, u', hhead, hfields⟩ := bind_ok h
  have hplain : Plain u' t := by
    have hdoes : Does Plain (do
        values cx .word entry.flags
        pad (2 * ((objectLayout cx.version).flagWords - entry.flags.length))
        values cx (objectLayout cx.version).linkWidth [entry.parent, entry.sibling, entry.child]
        writeValue cx .word entry.properties) u' := by
      refine (plain_values hm _ _ u').bind fun _ u _ => ?_
      refine (plain_store _ u).bind fun _ u _ => ?_
      exact (plain_values hm _ _ u).bind fun _ u _ => plain_writeValue hm _ _ u
    exact hdoes.of_ok hfields
  have hrest : t.tally = u'.tally := (work_objectFields (.refl cx) entry u').still cx () t hfields
  unfold objectHead at hhead
  dsimp only at hhead
  split at hhead
  · cases hhead
  · rw [get_bind] at hhead
    split at hhead
    · cases hhead
    · next hcount =>
      rw [modify_bind] at hhead
      have hdefined : u'.tally = { s.tally with objects := s.objects + 1 } :=
        tallies_defineGlobal cx _ _ (by decide) () u' hhead
      refine ⟨Nat.lt_of_not_le hcount, ⟨.object, _, u', by decide, ?_, hhead, hplain⟩,
        hrest.trans hdefined⟩
      exact .single (.aside ⟨rfl, rfl, rfl, rfl, rfl, rfl, rfl, rfl⟩)

/-- A global variable is counted, and its number is the value of its name. -/
theorem globalVariable_ok (hm : cx.mode = .assembling) {name : String} {default : Option Expr}
    (h : globalVariable cx name default s = .ok () t) :
    s.globalVars < maxGlobals ∧
      Gives cx n name (Int32.ofNat (firstGlobal + s.globalVars)) s t ∧
      t.tally = { s.tally with globalVars := s.globalVars + 1 } := by
  rw [globalVariable_eq] at h
  obtain ⟨⟨⟩, u', hhead, hdefault⟩ := bind_ok h
  have hplain : Plain u' t := (plain_writeDefault hm default u').of_ok hdefault
  have hrest : t.tally = u'.tally :=
    (work_writeDefault (.refl cx) default u').still cx () t hdefault
  unfold variableHead at hhead
  rw [get_bind] at hhead
  dsimp only at hhead
  split at hhead
  · cases hhead
  · next hcount =>
    rw [modify_bind] at hhead
    have hdefined : u'.tally = { s.tally with globalVars := s.globalVars + 1 } :=
      tallies_defineGlobal cx _ _ (by decide) () u' hhead
    refine ⟨Nat.lt_of_not_le hcount, ⟨.var, _, u', by decide, ?_, hhead, hplain⟩,
      hrest.trans hdefined⟩
    exact .single (.aside ⟨rfl, rfl, rfl, rfl, rfl, rfl, rfl, rfl⟩)

theorem debugRecord_ok (hm : cx.mode = .assembling) {d : DebugDirective} {r : DebugRecord}
    (h : debugRecord cx s.image.cursor d s = .ok r t) : Records cx s d r ∧ t = s := by
  cases d with
  | file number includeName actualName =>
    cases h
    exact ⟨.file number includeName actualName, rfl⟩
  | line point =>
    cases h
    exact ⟨.line point, rfl⟩
  | routine point name locals =>
    cases h
    exact ⟨.routine point name locals, rfl⟩
  | routineEnd point =>
    cases h
    exact ⟨.routineEnd point, rfl⟩
  | named table number name =>
    obtain ⟨value, u, hconstant, h⟩ := bind_ok h
    cases h
    unfold constant at hconstant
    obtain ⟨r, u', heval, hvalue⟩ := bind_ok hconstant
    obtain ⟨rfl, kind, known, rfl, -, hknown⟩ := evaluate_ok hm heval
    cases hvalue
    exact ⟨.named table number name hknown, rfl⟩

theorem debugDirective_ok (hm : cx.mode = .assembling) {d : DebugDirective}
    (h : debugDirective cx d s = .ok () t) :
    ∃ r, Records cx s d r ∧ t.tally = { s.tally with debug := s.debug.push r } := by
  unfold debugDirective at h
  rw [hm] at h
  obtain ⟨pc, u, hposition, hrest⟩ := bind_ok h
  cases hposition
  obtain ⟨r, u, hrecord, hpush⟩ := bind_ok hrest
  obtain ⟨hr, rfl⟩ := debugRecord_ok hm hrecord
  cases hpush
  exact ⟨r, hr, rfl⟩

end Numbers

/-- A node adds its own to the tally, and nothing else. -/
theorem node_adds {cx : Context} (hm : cx.mode = .assembling) {n : Node} {s t : State}
    (h : node cx n s = .ok () t) : Adds cx n s t := by
  have hwork := h
  unfold node at hwork
  cases hkind : n.kind with
  | globalLabel name =>
    apply adds_nothing h <;> simp [Node.object?, Node.globalVar?, Node.debug?, Node.texts, hkind]
  | localLabel name =>
    apply adds_nothing h <;> simp [Node.object?, Node.globalVar?, Node.debug?, Node.texts, hkind]
  | instruction i =>
    rw [hkind] at hwork
    have htally := tallies_instruction cx i s () t hwork
    refine adds_of_tally (by simp [Node.debug?, hkind]) (htally.trans ?_)
    cases hi : i.text <;>
      simp [State.tally, Tally.collect, Node.object?, Node.globalVar?, Node.texts, hkind, hi]
  | directive d =>
    rw [hkind] at hwork
    cases d with
    | str text =>
      have htally := tallies_stringData text s () t hwork
      refine adds_of_tally (by simp [Node.debug?, hkind]) (htally.trans ?_)
      simp [State.tally, Tally.collect, Node.object?, Node.globalVar?, Node.texts, hkind]
    | strl text =>
      have htally := tallies_countedString cx text s () t hwork
      refine adds_of_tally (by simp [Node.debug?, hkind]) (htally.trans ?_)
      simp [State.tally, Tally.collect, Node.object?, Node.globalVar?, Node.texts, hkind]
    | gstr name text =>
      have htally := tallies_packedString cx name text s () t hwork
      refine adds_of_tally (by simp [Node.debug?, hkind]) (htally.trans ?_)
      simp [State.tally, Tally.collect, Node.object?, Node.globalVar?, Node.texts, hkind]
    | object entry =>
      obtain ⟨-, -, htally⟩ := object_ok (n := n) hm hwork
      refine adds_of_tally (by simp [Node.debug?, hkind]) (htally.trans ?_)
      simp [State.tally, Node.object?, Node.globalVar?, Node.texts, hkind]
    | gvar name default =>
      obtain ⟨-, -, htally⟩ := globalVariable_ok (n := n) hm hwork
      refine adds_of_tally (by simp [Node.debug?, hkind]) (htally.trans ?_)
      simp [State.tally, Node.object?, Node.globalVar?, Node.texts, hkind]
    | debug d =>
      obtain ⟨r, hr, htally⟩ := debugDirective_ok hm hwork
      have hobjects : t.objects = s.objects := congrArg Tally.objects htally
      have hglobalVars : t.globalVars = s.globalVars := congrArg Tally.globalVars htally
      have hrecords : t.debug = s.debug.push r := congrArg Tally.debug htally
      have htext : t.text = s.text := congrArg Tally.text htally
      refine ⟨?_, ?_, ⟨[r], ?_, ?_⟩, ?_⟩
      · simp [hobjects, Node.object?, hkind]
      · simp [hglobalVars, Node.globalVar?, hkind]
      · simp [Node.debug?, hkind, hr]
      · simp [hrecords]
      · simp [htext, Node.texts, hkind]
    | _ =>
      apply adds_nothing h <;> simp [Node.object?, Node.globalVar?, Node.debug?, Node.texts, hkind]

/-! ## The tally of a program -/

/-- Every visit adds its own to the tally. -/
def AddAll (cx : Context) (vs : List Visit) : Prop := ∀ v ∈ vs, Adds cx v.node v.before v.after

section Threads

variable {cx : Context} {a b : Mark} {vs : List Visit}

theorem Thread.count {α : Type} {kind? : Node → Option α} {f : Mark → Nat} (h : Thread a vs b)
    (hadds : ∀ v ∈ vs, f v.after.mark = f v.before.mark + (kind? v.node).toList.length) :
    f b = f a + ((vs.map Visit.node).filterMap kind?).length := by
  induction h with
  | nil a => rfl
  | @cons v vs b _ ih =>
    have hv := hadds v List.mem_cons_self
    have hrest := ih fun w hw => hadds w (List.mem_cons_of_mem _ hw)
    rw [List.map_cons, List.filterMap_cons]
    cases hn : kind? v.node with
    | none =>
      simp only [hn, Option.toList_none, List.length_nil] at hv
      dsimp only
      omega
    | some x =>
      simp only [hn, Option.toList_some, List.length_singleton] at hv
      simp only [List.length_cons]
      omega

theorem Thread.records (h : Thread a vs b) (hadds : AddAll cx vs) :
    ∃ records, b.tally.debug.toList = a.tally.debug.toList ++ records ∧
      List.Forall₂ (fun v r => ∃ d, v.node.debug? = some d ∧ Records cx v.before d r)
        (vs.filter (·.node.debug?.isSome)) records := by
  induction h with
  | nil a => exact ⟨[], (List.append_nil _).symm, .nil⟩
  | @cons v vs b _ ih =>
    obtain ⟨records, hrecords, hrest⟩ := ih fun w hw => hadds w (List.mem_cons_of_mem _ hw)
    obtain ⟨own, hown, hdebug⟩ := (hadds v List.mem_cons_self).debug
    have hafter : v.after.mark.tally.debug = v.after.debug := rfl
    refine ⟨own ++ records, ?_, ?_⟩
    · rw [hrecords, hafter, hdebug, List.append_assoc]
      rfl
    · cases hd : v.node.debug? with
      | none =>
        rw [hd] at hown
        cases hown
        rw [List.filter_cons_of_neg (by simp [hd])]
        exact hrest
      | some d =>
        rw [hd] at hown
        obtain ⟨r, rest, hr, hnil, rfl⟩ := List.forall₂_cons_left_iff.mp hown
        obtain rfl := List.forall₂_nil_left_iff.mp hnil
        rw [List.filter_cons_of_pos (by simp [hd])]
        exact .cons ⟨d, hd, hr⟩ hrest

theorem Thread.texts (h : Thread a vs b) (hadds : AddAll cx vs) :
    b.tally.text = a.tally.text.map fun finder =>
      ((vs.map Visit.node).flatMap Node.texts).foldl Abbreviation.Finder.add finder := by
  induction h with
  | nil a => simp
  | @cons v vs b _ ih =>
    have hv : v.after.mark.tally.text = _ := (hadds v List.mem_cons_self).text
    rw [ih fun w hw => hadds w (List.mem_cons_of_mem _ hw), hv]
    simp [State.mark, State.tally, Function.comp_def]

end Threads

/-- The node that comes with the `i`-th of the things that nodes declare. -/
theorem exists_of_filterMap {α β : Type} {f : α → Option β} {xs : List α} {i : Nat} {y : β}
    (h : (xs.filterMap f)[i]? = some y) :
    ∃ front x back, xs = front ++ x :: back ∧ f x = some y ∧ (front.filterMap f).length = i := by
  induction xs generalizing i with
  | nil => simp at h
  | cons x xs ih =>
    rw [List.filterMap_cons] at h
    cases hx : f x with
    | none =>
      rw [hx] at h
      obtain ⟨front, z, back, rfl, hz, hlength⟩ := ih h
      exact ⟨x :: front, z, back, rfl, hz, by simpa [hx] using hlength⟩
    | some w =>
      rw [hx] at h
      cases i with
      | zero =>
        simp only [List.getElem?_cons_zero, Option.some.injEq] at h
        exact ⟨[], x, xs, rfl, by rw [hx, h], rfl⟩
      | succ i =>
        obtain ⟨front, z, back, rfl, hz, hlength⟩ := ih (by simpa using h)
        exact ⟨x :: front, z, back, rfl, hz, by simp [hx, hlength]⟩

section Settled

variable {p : FinalPass} {o : Options} {nodes : List Node} {story : AssembledStory}
  (h : p.Makes o nodes story)

include h

theorem settled_adds : AddAll p.context p.settledVisits := by
  intro v hv
  obtain ⟨w, hw, hset, hv⟩ := mem_settledVisits.mp hv
  exact node_adds h.mode (settled_ok h hw hset hv)

/-- The node of the `i`-th thing of a kind is reached when `i` of them have been counted. -/
theorem settled_nth {α : Type} {kind? : Node → Option α} {f : Mark → Nat}
    (hadds : ∀ v ∈ p.settledVisits, f v.after.mark = f v.before.mark + (kind? v.node).toList.length)
    {i : Nat} {x : α}
    (hi : ((Program.beforeEnd nodes).filterMap kind?)[i]? = some x) :
    ∃ v ∈ p.settledVisits, kind? v.node = some x ∧ f v.before.mark = f p.start.mark + i := by
  obtain ⟨t, hthread, -, hnodes⟩ := h.thread
  rw [← hnodes, List.filterMap_map] at hi
  obtain ⟨front, v, back, hsplit, hv, hlength⟩ := exists_of_filterMap hi
  rw [hsplit] at hthread hadds ⊢
  refine ⟨v, List.mem_append_right _ List.mem_cons_self, hv, ?_⟩
  have hcount := hthread.split.1.count fun w hw => hadds w (List.mem_append_left _ hw)
  rw [hcount, List.filterMap_map, hlength]

/-- What nodes of a kind declare is numbered from `first` on, in the order of the nodes. -/
theorem settled_number {α : Type} {kind? : Node → Option α} {f : Mark → Nat} {g : α → String}
    (first : Nat) (hstart : f p.start.mark = 0)
    (hadds : ∀ v ∈ p.settledVisits, f v.after.mark = f v.before.mark + (kind? v.node).toList.length)
    (hgives : ∀ n x s t, kind? n = some x → node p.context n s = .ok () t →
      (∃ d, n.kind = .directive d ∧ d ≠ .vocend) ∧ f s.mark + first < 2 ^ 31 ∧
        Gives p.context n (g x) (Int32.ofNat (f s.mark + first)) s t)
    {i : Nat} {x : α} (hi : ((Program.beforeEnd nodes).filterMap kind?)[i]? = some x) :
    (p.finish.globals.valueOf (g x)).map Int32.toInt = some ((i + first : Nat) : Int) := by
  obtain ⟨v, hv, hx, hcount⟩ := settled_nth h hadds hi
  obtain ⟨w, hw, hset, hv⟩ := mem_settledVisits.mp hv
  obtain ⟨⟨d, hkind, hclose⟩, hlimit, hvalue⟩ := hgives _ _ _ _ hx (settled_ok h hw hset hv)
  rw [hcount, hstart, Nat.zero_add] at hlimit hvalue
  rw [settled_value h hw hset hv (by simp [hkind]) (by simp [hkind, hclose]) hvalue,
    Option.map_some, Int32.toInt_ofNat_of_lt hlimit]

theorem settled_object {i : Nat} {entry : ObjectEntry}
    (hi : ((Program.beforeEnd nodes).filterMap Node.object?)[i]? = some entry) :
    (p.finish.globals.valueOf entry.name).map Int32.toInt = some ((i : Int) + 1) := by
  obtain ⟨s, hs⟩ := h.begins
  refine settled_number h (f := (·.tally.objects)) 1 (by rw [hs]; rfl)
    (fun v hv => (settled_adds h v hv).objects) (fun n entry s t hentry hok => ?_) hi
  have hkind := Node.kind_of_object? hentry
  rw [node_directive hkind] at hok
  obtain ⟨hlimit, hgives, -⟩ := object_ok (n := n) h.mode hok
  have hmax := maxObjects_le p.context.version
  have hcount : s.mark.tally.objects = s.objects := rfl
  exact ⟨⟨_, hkind, by simp⟩, by omega, hgives⟩

theorem settled_globalVar {i : Nat} {name : String}
    (hi : ((Program.beforeEnd nodes).filterMap Node.globalVar?)[i]? = some name) :
    (p.finish.globals.valueOf name).map Int32.toInt = some ((i : Int) + 16) := by
  obtain ⟨s, hs⟩ := h.begins
  refine settled_number h (f := (·.tally.globalVars)) (g := id) 16 (by rw [hs]; rfl)
    (fun v hv => (settled_adds h v hv).globalVars) (fun n name s t hname hok => ?_) hi
  obtain ⟨default, hkind⟩ := Node.kind_of_globalVar? hname
  rw [node_directive hkind] at hok
  obtain ⟨hlimit, hgives, -⟩ := globalVariable_ok (n := n) h.mode hok
  have hcount : s.mark.tally.globalVars = s.globalVars := rfl
  have hmax : maxGlobals = 240 := rfl
  rw [firstGlobal, Nat.add_comm] at hgives
  exact ⟨⟨_, hkind, by simp⟩, by omega, hgives⟩

theorem settled_records :
    List.Forall₂ (fun v r => ∃ d, v.node.debug? = some d ∧ Records p.context v.before d r)
      (p.settledVisits.filter (·.node.debug?.isSome)) (assemble o nodes).debug := by
  obtain ⟨t, hthread, hended, -⟩ := h.thread
  obtain ⟨s, hs⟩ := h.begins
  obtain ⟨u, hfinish, -, hdebug⟩ := h.reports
  obtain ⟨-, -, -, -, -, hhanded⟩ := finishStory_ok hfinish
  have hnothing := (handed_attempt o nodes (s := .initial o.version) rfl _ _ _).of_ok h.stands
  obtain ⟨records, hrecords, hmade⟩ := hthread.records (settled_adds h)
  have hstart : p.start.mark.tally.debug = #[] := by rw [hs]; rfl
  have hend : t.debug.toList = records := by
    rw [hstart] at hrecords
    exact hrecords
  rw [hdebug, hhanded, hnothing, State.initial, Array.empty_append, hended.debug, hend]
  exact hmade

theorem settled_texts :
    story.text = if o.collectText then
        some (((Program.beforeEnd nodes).flatMap Node.texts).foldl
          Abbreviation.Finder.add {})
      else none := by
  obtain ⟨t, hthread, hended, hnodes⟩ := h.thread
  obtain ⟨s, hs⟩ := h.begins
  obtain ⟨u, hfinish⟩ := h.finishes
  obtain ⟨-, -, -, htext, -⟩ := finishStory_ok hfinish
  have hstart : p.start.mark.tally.text = if o.collectText then some {} else none := by
    rw [hs]
    simp [State.mark, State.tally, State.beginPass]
  have hend : t.text = _ := hthread.texts (settled_adds h)
  rw [htext, hended.text, hend, hstart, hnodes]
  cases o.collectText <;> rfl

end Settled

/-- However often routines are walked, a program that assembles counts and collects every node
    before its end once. Objects are numbered from 1 and global variables from 16, in the order of
    their nodes. The debug records are those of the debug directives, one each and in their order,
    made where the settled walk reached the directive. The texts collected, if any are to be, are
    those of the nodes in their order. -/
theorem tally_of_nodes {o : Options} {nodes : List Node} {story : AssembledStory}
    (h : (assemble o nodes).result = .ok story) :
    ∃ p, finalPass? o nodes = some p ∧
      p.settledVisits.map Visit.node = Program.beforeEnd nodes ∧
      (∀ (i : Nat) (entry : ObjectEntry),
        ((Program.beforeEnd nodes).filterMap Node.object?)[i]? = some entry →
        (p.finish.globals.valueOf entry.name).map Int32.toInt = some ((i : Int) + 1)) ∧
      (∀ (i : Nat) (name : String),
        ((Program.beforeEnd nodes).filterMap Node.globalVar?)[i]? = some name →
        (p.finish.globals.valueOf name).map Int32.toInt = some ((i : Int) + 16)) ∧
      List.Forall₂ (fun v r => ∃ d, v.node.debug? = some d ∧ Records p.context v.before d r)
        (p.settledVisits.filter (·.node.debug?.isSome)) (assemble o nodes).debug ∧
      story.text = if o.collectText then
          some (((Program.beforeEnd nodes).flatMap Node.texts).foldl
            Abbreviation.Finder.add {})
        else none := by
  obtain ⟨p, hp, hmakes⟩ := exists_finalPass h
  obtain ⟨-, -, -, hnodes⟩ := hmakes.thread
  exact ⟨p, hp, hnodes, fun i entry => settled_object hmakes,
    fun i name => settled_globalVar hmakes, settled_records hmakes, settled_texts hmakes⟩

/-- `R` is walked more than once, with an object, a variable, a text and a debug directive in it. -/
def revisited : List Node :=
  [⟨.directive (.gvar "G" none), {}⟩,
    ⟨.directive (.object ⟨"LAMP", [], .number 0, .number 0, .number 0, .number 0⟩), {}⟩,
    ⟨.directive (.funct "R" []), {}⟩,
    ⟨.instruction
      { opcode := "ZERO?", operands := [.number 1], branch := some ⟨true, .label "L"⟩ }, {}⟩,
    ⟨.directive (.gvar "H" none), {}⟩,
    ⟨.directive (.object ⟨"ROPE", [], .number 0, .number 0, .number 0, .number 0⟩), {}⟩,
    ⟨.instruction { opcode := "PRINTI", text := some "dusk" }, {}⟩,
    ⟨.localLabel "L", {}⟩, ⟨.directive (.debug (.line ⟨1, 2, 3⟩)), {}⟩,
    ⟨.instruction { opcode := "RTRUE" }, {}⟩, ⟨.directive .stop, {}⟩,
    ⟨.directive (.gvar "I" none), {}⟩]

def revisitedOptions : Options :=
  { version := .v3, identity := { serial := "000000" }, collectText := true }

theorem revisited_tally :
    ∃ story p, (assemble revisitedOptions revisited).result = .ok story ∧
      finalPass? revisitedOptions revisited = some p ∧ (∃ w ∈ p.walks, w.settled = false) ∧
      (p.finish.globals.valueOf "ROPE").map Int32.toInt = some 2 ∧
      (p.finish.globals.valueOf "H").map Int32.toInt = some 17 ∧
      (assemble revisitedOptions revisited).debug = [.line ⟨1, 2, 3⟩ 96] ∧
      story.text = some (({} : Abbreviation.Finder).add "dusk") := by
  obtain ⟨story, p, hresult, hp, hrun⟩ := exists_run revisitedOptions revisited
    (fun p => p.walks.any (!·.settled) &&
      decide ((p.settledVisits.filter (·.node.debug?.isSome)).map
      (fun v => (v.node.debug?, v.before.image.cursor)) = [(some (.line ⟨1, 2, 3⟩), 96)]))
    (by decide +kernel)
  simp only [Bool.and_eq_true, List.any_eq_true, Bool.not_eq_eq_eq_not, Bool.not_true,
    decide_eq_true_eq] at hrun
  obtain ⟨hrepeated, hdebug⟩ := hrun
  obtain ⟨p', hp', -, hobjects, hvariables, hrecords, htext⟩ := tally_of_nodes hresult
  cases hp.symm.trans hp'
  obtain ⟨v, hvisits, hv⟩ := List.map_eq_singleton_iff.mp hdebug
  rw [hvisits] at hrecords
  obtain ⟨r, rest, ⟨d, hd, hr⟩, hrest, hstory⟩ := List.forall₂_cons_left_iff.mp hrecords
  rw [List.forall₂_nil_left_iff] at hrest
  refine ⟨story, p, hresult, hp, hrepeated, hobjects 1 _ rfl, hvariables 1 _ rfl, ?_, htext⟩
  simp only [Prod.mk.injEq] at hv
  obtain ⟨hkind, hcursor⟩ := hv
  cases hd.symm.trans hkind
  cases hr
  rw [hstory, hrest, hcursor]

end Assembly

end ZAssembler
