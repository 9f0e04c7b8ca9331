import ZAssembler.Proofs.Lasting

/-
  Global labels are final positions. Within a pass only one node can define a symbol, so once a
  settled walk has reached a global label nothing later in the pass moves it: outside a vocabulary
  block it stays where it was reached (`Pinned`), and inside one it waits until the block is closed,
  which puts it where its record goes (`Waiting`).
-/

namespace ZAssembler.Assembly

/-! ## Looking up after labels are moved -/

theorem lookup_relocate (t : SymbolTable) (name other : String) (value : Int32) :
    (t.relocate name value).lookup other =
      if name = other then (t.lookup other).map ({ · with value }) else t.lookup other := by
  unfold SymbolTable.relocate
  cases hl : t.lookup name with
  | none =>
    by_cases h : name = other
    · subst h
      simp [hl]
    · simp [h]
  | some symbol =>
    rw [SymbolTable.lookup_put]
    have hname : symbol.name = name := name_of_lookup hl
    by_cases h : name = other
    · subst h
      simp [hname, hl]
    · simp [hname, h]

/-- Labels of other names do not touch a symbol. -/
theorem lookup_relocateAll_of_ne (place : Nat → Nat) (labels : List VocabularyLabel)
    (t : SymbolTable) {name : String} (h : ∀ label ∈ labels, label.name ≠ name) :
    (relocateAll place labels t).lookup name = t.lookup name := by
  unfold relocateAll
  induction labels generalizing t with
  | nil => rfl
  | cons label rest ih =>
    rw [List.foldl_cons, ih _ fun l hl => h l (List.mem_cons_of_mem _ hl), lookup_relocate,
      if_neg (h label List.mem_cons_self)]

/-- Moving labels changes the value of a symbol at most. -/
theorem lookup_relocateAll (place : Nat → Nat) (labels : List VocabularyLabel) (t : SymbolTable)
    {name : String} {symbol : Symbol} (h : t.lookup name = some symbol) :
    ∃ value, (relocateAll place labels t).lookup name = some { symbol with value } := by
  unfold relocateAll
  induction labels generalizing t symbol with
  | nil => exact ⟨symbol.value, h⟩
  | cons label rest ih =>
    rw [List.foldl_cons]
    by_cases hname : label.name = name
    · have hmoved : (t.relocate label.name (Int32.ofNat (place label.position))).lookup name =
          some { symbol with value := Int32.ofNat (place label.position) } := by
        rw [lookup_relocate, if_pos hname, h]
        rfl
      obtain ⟨value, hvalue⟩ := ih _ hmoved
      exact ⟨value, hvalue⟩
    · refine ih _ ?_
      rw [lookup_relocate, if_neg hname, h]

/-- The last label of a name gives the symbol its value. -/
theorem lookup_relocateAll_last (place : Nat → Nat) (earlier later : List VocabularyLabel)
    (label : VocabularyLabel) (t : SymbolTable) {symbol : Symbol}
    (h : t.lookup label.name = some symbol) (hlater : ∀ l ∈ later, l.name ≠ label.name) :
    (relocateAll place (earlier ++ label :: later) t).lookup label.name =
      some { symbol with value := Int32.ofNat (place label.position) } := by
  have hsplit : relocateAll place (earlier ++ label :: later) t =
      relocateAll place later ((relocateAll place earlier t).relocate label.name
        (Int32.ofNat (place label.position))) := by
    unfold relocateAll
    rw [List.foldl_append, List.foldl_cons]
  obtain ⟨value, hvalue⟩ := lookup_relocateAll place earlier t h
  rw [hsplit, lookup_relocateAll_of_ne place later _ hlater, lookup_relocate, if_pos rfl, hvalue]
  rfl

/-! ## Symbols of another node -/

/-- A label of a block enters its symbol. -/
theorem blockLabel_globals (cx : Context) (name : String) {s : State}
    (hnew : ¬ Taken s.globals name (s.site cx)) :
    ∃ symbol, Entered symbol name .label (Int32.ofNat s.image.cursor) (s.site cx) ∧
      (s.blockLabel cx name).globals = s.globals.put symbol := by
  obtain ⟨htaken, -⟩ | ⟨-, symbol, hsymbol, h⟩ :=
    define_cases s.globals name .label (Int32.ofNat s.image.cursor) (s.site cx)
  · exact absurd htaken hnew
  · refine ⟨symbol, hsymbol, ?_⟩
    unfold State.blockLabel
    rw [h]

section Others

variable {cx : Context} (hm : cx.mode = .assembling) {n : Node} {s t : State}

include hm

/-- A node leaves a symbol of another node alone, unless it closes a block. -/
theorem Change.lookup_eq (h : Change cx n s t) (hclose : n.kind ≠ .directive .vocend)
    {name : String} (htaken : Taken s.globals name (s.site cx)) :
    t.globals.lookup name = s.globals.lookup name := by
  cases h with
  | aside h => rw [h.globals]
  | define other kind value hkind _ h =>
    obtain ⟨hfree, symbol, u, hsymbol, -, rfl⟩ := defineGlobal_ok hm hkind h
    show (s.globals.put symbol).lookup name = _
    rw [SymbolTable.lookup_put, if_neg]
    rw [hsymbol.name]
    rintro rfl
    exact hfree htaken
  | label v other _ _ hnew =>
    obtain ⟨symbol, hsymbol, hglobals⟩ := blockLabel_globals cx other hnew
    rw [hglobals, SymbolTable.lookup_put, if_neg]
    rw [hsymbol.name]
    rintro rfl
    exact hnew htaken
  | closeBlock hnode _ => exact absurd hnode hclose
  | localLabel name _ h =>
    obtain ⟨scope, symbol, -, -, -, ⟨-, ht⟩ | ⟨ht, -⟩⟩ := localLabel_ok h <;> rw [ht]
  | report | store | fixup | openBlock | locals => rfl

/-- What a node does to the labels of a block, unless it closes one: a block that is opened has
    none, and one that is open keeps its labels and may get one more. -/
structure LabelsGrow (cx : Context) (n : Node) (s t : State) : Prop where
  opened : s.vocabulary = none → ∀ v, t.vocabulary = some v → v.labels = [] ∧
    ∃ r k, n.kind = .directive (.vocbeg r k)
  grown : ∀ v, s.vocabulary = some v → ∃ v', t.vocabulary = some v' ∧
    (v'.labels = v.labels ∨
      ∃ label, n.kind = .globalLabel label.name ∧ ¬ Taken s.globals label.name (s.site cx) ∧
        v'.labels = v.labels ++ [label])

omit hm in
theorem labelsGrow_of_eq (h : t.vocabulary = s.vocabulary) : LabelsGrow cx n s t :=
  ⟨fun hs _ hv => (nomatch hs.symm.trans (h.symm.trans hv)), fun v hv => ⟨v, h.trans hv, .inl rfl⟩⟩

theorem Change.labelsGrow (h : Change cx n s t) (hclose : n.kind ≠ .directive .vocend) :
    LabelsGrow cx n s t := by
  cases h with
  | aside h => exact labelsGrow_of_eq h.vocabulary
  | define other kind value hkind _ h =>
    obtain ⟨-, symbol, u, -, hu, rfl⟩ := defineGlobal_ok hm hkind h
    cases hu with
    | same _ => exact labelsGrow_of_eq rfl
    | inBlock v old _ _ hv =>
      refine ⟨fun hs => (nomatch hs.symm.trans hv), fun v' hv' => ?_⟩
      cases hv.symm.trans hv'
      refine ⟨_, rfl, .inl ?_⟩
      unfold OpenVocabulary.defer
      split <;> rfl
    | inRoutine _ _ _ _ _ _ => exact labelsGrow_of_eq rfl
  | label v other hnode hv hnew =>
    refine ⟨fun hs => (nomatch hs.symm.trans hv), fun v' hv' => ?_⟩
    cases hv.symm.trans hv'
    refine ⟨{ v with labels := v.labels ++ [⟨other, s.image.cursor, s.globals.valueOf other⟩] }, ?_,
      .inr ⟨_, hnode, hnew, rfl⟩⟩
    unfold State.blockLabel
    rw [hv]
    rfl
  | openBlock recordSize keySize hnode hv =>
    refine ⟨fun _ v hv => ?_, fun v hv' => nomatch hv.symm.trans hv'⟩
    cases hv
    exact ⟨rfl, hnode⟩
  | closeBlock hnode _ => exact absurd hnode hclose
  | localLabel name _ h =>
    obtain ⟨scope, symbol, -, -, -, ⟨-, ht⟩ | ⟨ht, -⟩⟩ := localLabel_ok h <;>
      exact labelsGrow_of_eq (by rw [ht])
  | report | store | fixup | locals => exact labelsGrow_of_eq rfl

end Others

/-! ## Labels that stay -/

/-- The symbol was defined by node `i` of this pass. -/
structure Owned (cx : Context) (name : String) (i : Nat) (symbol : Symbol) (s : State) : Prop where
  lookup : s.globals.lookup name = some symbol
  defined : symbol.isDefined = true
  site : symbol.site = some ⟨cx.pass, i⟩

theorem Owned.taken {cx : Context} {name : String} {i : Nat} {symbol : Symbol} {s : State}
    (h : Owned cx name i symbol s) (hi : s.index ≠ i) : Taken s.globals name (s.site cx) :=
  ⟨symbol, _, h.lookup, h.defined, h.site, rfl, Ne.symm hi⟩

theorem Owned.valueOf {cx : Context} {name : String} {i : Nat} {symbol : Symbol} {s : State}
    (h : Owned cx name i symbol s) : s.globals.valueOf name = some symbol.value := by
  rw [valueOf_of_lookup h.lookup, if_pos h.defined]

/-- A label of a block is a symbol of its node. -/
theorem blockLabel_owned (cx : Context) (name : String) {s : State}
    (hnew : ¬ Taken s.globals name (s.site cx)) :
    ∃ symbol, Owned cx name s.index symbol (s.blockLabel cx name) := by
  obtain ⟨symbol, hsymbol, hglobals⟩ := blockLabel_globals cx name hnew
  refine ⟨symbol, ?_, ?_, hsymbol.site⟩
  · rw [hglobals, SymbolTable.lookup_put, if_pos hsymbol.name]
  · rw [Symbol.isDefined, hsymbol.kind]
    rfl

/-- The labels of a block after one more. -/
theorem blockLabel_labels (cx : Context) (name : String) {s : State} {v : OpenVocabulary}
    (hv : s.vocabulary = some v) :
    (s.blockLabel cx name).vocabulary =
      some { v with labels := v.labels ++ [⟨name, s.image.cursor, s.globals.valueOf name⟩] } := by
  unfold State.blockLabel
  rw [hv]
  rfl

/-- A symbol that node `i` has defined and that no open block will move. -/
structure Pinned (cx : Context) (name : String) (i : Nat) (symbol : Symbol) (s : State) : Prop
    extends Owned cx name i symbol s where
  free : ∀ v, s.vocabulary = some v → ∀ label ∈ v.labels, label.name ≠ name

section Pinned

variable {cx : Context} (hm : cx.mode = .assembling) {name : String} {i : Nat} {symbol : Symbol}

include hm

theorem Change.pinned {n : Node} {s t : State} (h : Change cx n s t)
    (hclose : n.kind ≠ .directive .vocend) (hi : s.index ≠ i) (hs : Pinned cx name i symbol s) :
    Pinned cx name i symbol t := by
  have htaken := hs.taken hi
  have hlookup := (h.lookup_eq hm hclose htaken).trans hs.lookup
  refine ⟨⟨hlookup, hs.defined, hs.site⟩, fun v' hv' label hlabel => ?_⟩
  obtain ⟨hopened, hgrown⟩ := h.labelsGrow hm hclose
  cases hv : s.vocabulary with
  | none =>
    rw [(hopened hv v' hv').1] at hlabel
    cases hlabel
  | some v =>
    obtain ⟨v'', hv'', hlabels⟩ := hgrown v hv
    cases hv''.symm.trans hv'
    rcases hlabels with heq | ⟨new, -, hnew, heq⟩
    · exact hs.free v hv label (heq ▸ hlabel)
    · rw [heq, List.mem_append, List.mem_singleton] at hlabel
      rcases hlabel with hlabel | rfl
      · exact hs.free v hv label hlabel
      · rintro rfl
        exact hnew htaken

theorem Changes.pinned {n : Node} {s t : State} (h : Changes cx n s t)
    (hclose : n.kind ≠ .directive .vocend) (hi : s.index ≠ i) (hs : Pinned cx name i symbol s) :
    Pinned cx name i symbol t := by
  induction h with
  | refl => exact hs
  | tail hchain hstep ih =>
    exact hstep.pinned hm hclose ((Changes.index hm hchain).trans_ne hi) ih

omit hm in
theorem Closed.pinned {v : OpenVocabulary} {complete : Bool} {s t : State}
    (h : Closed v complete s t) (hv : s.vocabulary = some v) (hs : Pinned cx name i symbol s) :
    Pinned cx name i symbol t := by
  refine ⟨⟨?_, hs.defined, hs.site⟩, fun v' hv' => nomatch h.vocabulary.symm.trans hv'⟩
  rw [h.globals, lookup_relocateAll_of_ne _ _ _ (hs.free v hv)]
  exact hs.lookup

theorem visit_pinned {index : Nat} {n : Node} {s t : State} (h : visit cx index n s = .ok () t)
    (hi : index ≠ i) (hs : Pinned cx name i symbol s) : Pinned cx name i symbol t := by
  have hreach : Pinned cx name i symbol (s.reach index n) :=
    ⟨⟨hs.lookup, hs.defined, hs.site⟩, hs.free⟩
  by_cases hclose : n.kind = .directive .vocend
  · rcases visit_close hm hclose h with ⟨v, hv, -, hc⟩ | ⟨p, u, -, rfl, ⟨-, rfl⟩ | ⟨v, hv, hc⟩⟩
    · exact hc.pinned hv hreach
    · exact ⟨⟨hs.lookup, hs.defined, hs.site⟩, hs.free⟩
    · obtain ⟨⟨hlookup, hdefined, hsite⟩, hfree⟩ := hc.pinned hv hreach
      exact ⟨⟨hlookup, hdefined, hsite⟩, hfree⟩
  · exact (visit_changes hm h).pinned hm hclose hi hreach

/-- Once no open block will move it, a symbol stays as its node has defined it. -/
theorem Moves.pinned {s t : State} {l : List Moment} (h : Moves cx s l t)
    (hi : ∀ v, .visit v ∈ l → v.index ≠ i) (hs : Pinned cx name i symbol s) :
    Pinned cx name i symbol t :=
  h.keeps hm (fun hmem hv hs => visit_pinned hm hv (hi _ hmem) hs)
    (fun _ _ _ hs => ⟨⟨hs.lookup, hs.defined, hs.site⟩, hs.free⟩)
    (fun _ _ hs => ⟨⟨hs.lookup, hs.defined, hs.site⟩, hs.free⟩)
    (fun _ hleft hs => ⟨⟨hleft.globals ▸ hs.lookup, hs.defined, hs.site⟩,
      fun v hv => hs.free v (hleft.vocabulary ▸ hv)⟩) hs

end Pinned

/-! ## Labels that wait for their block -/

/-- A symbol that node `i` has defined, whose last label in the open block is at `position`. -/
structure Waiting (cx : Context) (name : String) (i position : Nat) (symbol : Symbol) (s : State) :
    Prop extends Owned cx name i symbol s where
  block : ∃ v earlier label later, s.vocabulary = some v ∧ v.labels = earlier ++ label :: later ∧
    label.name = name ∧ label.position = position ∧ ∀ l ∈ later, l.name ≠ name

/-- Among some moments the first end of a block is the visit `c`, which finds the block `v` open. -/
def NextEnd (l : List Moment) (c : Visit) (v : OpenVocabulary) : Prop :=
  ∃ between later, l = between ++ .visit c :: later ∧
    (∀ x, .visit x ∈ between → x.node.kind ≠ .directive .vocend) ∧
    c.node.kind = .directive .vocend ∧ c.before.vocabulary = some v

theorem NextEnd.cons {l : List Moment} {c : Visit} {v : OpenVocabulary} (h : NextEnd l c v)
    {m : Moment} (hm : ∀ x, m = .visit x → x.node.kind ≠ .directive .vocend) :
    NextEnd (m :: l) c v := by
  obtain ⟨between, later, heq, hbetween, hc⟩ := h
  refine ⟨m :: between, later, ?_, fun x hx => ?_, hc⟩
  · rw [heq]
    rfl
  · rcases List.mem_cons.mp hx with hx | hx
    · exact hm x hx.symm
    · exact hbetween x hx

section Waiting

variable {cx : Context} (hm : cx.mode = .assembling) {name : String} {i position : Nat}
  {symbol : Symbol}

include hm

theorem Change.waiting {n : Node} {s t : State} (h : Change cx n s t)
    (hclose : n.kind ≠ .directive .vocend) (hi : s.index ≠ i)
    (hs : Waiting cx name i position symbol s) : Waiting cx name i position symbol t := by
  have htaken := hs.taken hi
  have hlookup := (h.lookup_eq hm hclose htaken).trans hs.lookup
  refine ⟨⟨hlookup, hs.defined, hs.site⟩, ?_⟩
  obtain ⟨v, earlier, label, later, hv, hlabels, hname, hposition, hlater⟩ := hs.block
  obtain ⟨v', hv', heq | ⟨new, -, hnew, heq⟩⟩ := (h.labelsGrow hm hclose).grown v hv
  · exact ⟨v', earlier, label, later, hv', heq.trans hlabels, hname, hposition, hlater⟩
  · refine ⟨v', earlier, label, later ++ [new], hv', ?_, hname, hposition, fun l hl => ?_⟩
    · rw [heq, hlabels]
      simp
    · rw [List.mem_append, List.mem_singleton] at hl
      rcases hl with hl | rfl
      · exact hlater l hl
      · rintro rfl
        exact hnew htaken

theorem Changes.waiting {n : Node} {s t : State} (h : Changes cx n s t)
    (hclose : n.kind ≠ .directive .vocend) (hi : s.index ≠ i)
    (hs : Waiting cx name i position symbol s) : Waiting cx name i position symbol t := by
  induction h with
  | refl => exact hs
  | tail hchain hstep ih =>
    exact hstep.waiting hm hclose ((Changes.index hm hchain).trans_ne hi) ih

omit hm in
/-- Closing the block puts the label where its record goes. -/
theorem Closed.pins {v : OpenVocabulary} {complete : Bool} {s t : State}
    (h : Closed v complete s t) (hv : s.vocabulary = some v)
    (hs : Waiting cx name i position symbol s) :
    Pinned cx name i { symbol with value := Int32.ofNat (v.place (s.blockOrder v) position) }
      t := by
  obtain ⟨v', earlier, label, later, hv', hlabels, hname, hposition, hlater⟩ := hs.block
  cases hv.symm.trans hv'
  subst hname hposition
  refine ⟨⟨?_, hs.defined, hs.site⟩, fun v' hv' => nomatch h.vocabulary.symm.trans hv'⟩
  rw [h.globals, hlabels]
  exact lookup_relocateAll_last _ earlier later label _ hs.lookup hlater

/-- A label of an open block waits for the next end of a block, and stays where that puts it. -/
theorem Moves.waiting {s t : State} {l : List Moment} (h : Moves cx s l t)
    (hi : ∀ v, .visit v ∈ l → v.index ≠ i) (hs : Waiting cx name i position symbol s) :
    Waiting cx name i position symbol t ∨ ∃ c v, NextEnd l c v ∧
      Pinned cx name i
        { symbol with value := Int32.ofNat (v.place (c.before.blockOrder v) position) } t := by
  induction h with
  | refl s => exact .inl hs
  | @visit s u t l index n h rest ih =>
    have hi' := fun v hv => hi v (List.mem_cons_of_mem _ hv)
    have hreach : Waiting cx name i position symbol (s.reach index n) :=
      ⟨⟨hs.lookup, hs.defined, hs.site⟩, hs.block⟩
    by_cases hclose : n.kind = .directive .vocend
    · have hpinned : ∃ v, s.vocabulary = some v ∧ Pinned cx name i { symbol with
          value := Int32.ofNat (v.place ((s.reach index n).blockOrder v) position) } u := by
        rcases visit_close hm hclose h with ⟨v, hv, -, hc⟩ | ⟨p, w, -, rfl, ⟨hv, -⟩ | ⟨v, hv, hc⟩⟩
        · exact ⟨v, hv, hc.pins hv hreach⟩
        · obtain ⟨v, -, -, -, hv', -⟩ := hs.block
          cases hv.symm.trans hv'
        · obtain ⟨⟨hlookup, hdefined, hsite⟩, hfree⟩ := hc.pins hv hreach
          exact ⟨v, hv, ⟨hlookup, hdefined, hsite⟩, hfree⟩
      obtain ⟨v, hv, hpinned⟩ := hpinned
      exact .inr ⟨⟨index, n, s.reach index n, u⟩, v,
        ⟨[], l, rfl, fun x hx => (nomatch hx), hclose, hv⟩, rest.pinned hm hi' hpinned⟩
    · have hu := (visit_changes hm h).waiting hm hclose (hi _ List.mem_cons_self) hreach
      refine (ih hi' hu).imp_right fun ⟨c, v, hend, hpinned⟩ => ⟨c, v, hend.cons ?_, hpinned⟩
      rintro x ⟨⟩
      exact hclose
  | enter start r hscope _ ih => exact ih hi ⟨⟨hs.lookup, hs.defined, hs.site⟩, hs.block⟩
  | again hscope hnext _ ih => exact ih hi ⟨⟨hs.lookup, hs.defined, hs.site⟩, hs.block⟩
  | @leave s u t l scope hscope hmoved h _ ih =>
    have hleft := closeRoutine_ok hm h
    have hu : Waiting cx name i position symbol u := by
      obtain ⟨v, earlier, label, later, hv, hlabels⟩ := hs.block
      exact ⟨⟨hleft.globals ▸ hs.lookup, hs.defined, hs.site⟩, v, earlier, label, later,
        hleft.vocabulary ▸ hv, hlabels⟩
    refine (ih (fun v hv => hi v (List.mem_cons_of_mem _ hv)) hu).imp_right
      fun ⟨c, v, hend, hpinned⟩ => ⟨c, v, hend.cons ?_, hpinned⟩
    rintro x ⟨⟩

end Waiting

/-! ## Settled labels -/

section Settled

variable {p : FinalPass} {o : Options} {nodes : List Node} {story : AssembledStory}
  (h : p.Makes o nodes story) {w : Walk} (hw : w ∈ p.walks) (hset : w.settled = true) {v : Visit}
  (hv : v ∈ w.visits) {name : String} (hk : v.node.kind = .globalLabel name)

include h hw hset hv hk

theorem settled_globalLabel : globalLabel p.context name v.before = .ok () v.after :=
  node_globalLabel hk ▸ settled_ok h hw hset hv

/-- Outside a block a label stays where it was reached. -/
theorem settled_label (hblock : v.before.vocabulary = none) :
    p.finish.globals.valueOf name = some (Int32.ofNat v.before.image.cursor) := by
  have hok := settled_globalLabel h hw hset hv hk
  unfold globalLabel at hok
  rw [get_bind, hblock] at hok
  obtain ⟨-, symbol, u, hsymbol, hu, hafter⟩ := defineGlobal_ok h.mode (by decide) hok
  obtain ⟨t, hcourse⟩ := h.course
  obtain ⟨place, earlier, later, s, hcut⟩ := hcourse.cut hw hset hv
  obtain ⟨front, rest, -, hmoves, hindex⟩ := hcut.onward
  have hpinned : Pinned p.context name v.index symbol v.after := by
    rw [hafter]
    refine ⟨⟨?_, ?_, ?_⟩, fun b hb => ?_⟩
    · show (v.before.globals.put symbol).lookup name = some symbol
      rw [SymbolTable.lookup_put, if_pos hsymbol.name]
    · rw [Symbol.isDefined, hsymbol.kind]
      rfl
    · rw [hsymbol.site, hcut.before]
      rfl
    · cases hu with
      | same _ => cases hblock.symm.trans hb
      | inBlock b' _ _ _ hb' => cases hblock.symm.trans hb'
      | inRoutine _ _ _ _ _ _ => cases hblock.symm.trans hb
  have hend := hmoves.pinned h.mode (fun x hx => Nat.ne_of_gt (hindex x hx)) hpinned
  rw [hcourse.ended.globals, hend.valueOf, hsymbol.value]

/-- Inside a block a label goes where the block's order puts its record. -/
theorem settled_blockLabel {b : OpenVocabulary} (hblock : v.before.vocabulary = some b) :
    ∃ earlier between c later block, p.visits = earlier ++ v :: (between ++ c :: later) ∧
      (∀ x ∈ between, x.node.kind ≠ .directive .vocend) ∧ c.node.kind = .directive .vocend ∧
      c.before.vocabulary = some block ∧
      p.finish.globals.valueOf name =
        some (Int32.ofNat (block.place (c.before.blockOrder block) v.before.image.cursor)) := by
  have hok := settled_globalLabel h hw hset hv hk
  obtain ⟨t, hcourse⟩ := h.course
  obtain ⟨place, earlier, later, s, hcut⟩ := hcourse.cut hw hset hv
  obtain ⟨front, rest, hmoments, hmoves, hindex⟩ := hcut.onward
  rcases blockLabel_cases p.context name hblock with ⟨old, hskip⟩ | ⟨hfree, henter⟩
  · cases hskip.symm.trans hok
  have hafter : v.after = v.before.blockLabel p.context name := by
    have hsame := hok.symm.trans henter
    injection hsame
  obtain ⟨symbol, howned⟩ := blockLabel_owned p.context name hfree
  have hindexed : v.before.index = v.index := by
    rw [hcut.before]
    rfl
  have hwaiting : Waiting p.context name v.index v.before.image.cursor symbol v.after := by
    rw [hafter]
    exact ⟨hindexed ▸ howned, _, b.labels, _, [], blockLabel_labels p.context name hblock, rfl, rfl,
      rfl, fun l hl => nomatch hl⟩
  rcases hmoves.waiting h.mode (fun x hx => Nat.ne_of_gt (hindex x hx)) hwaiting with
    hend | ⟨c, block, ⟨between, later', hrest, hbetween, hc, hcblock⟩, hend⟩
  · -- a block that is never closed is an error
    obtain ⟨block, -, -, -, hopen, -⟩ := hend.block
    rcases hcourse.ended.closed with hclosed | herror
    · cases hopen.symm.trans hclosed
    · rw [no_errors h] at herror
      cases herror
  · refine ⟨front.filterMap Moment.visit?, between.filterMap Moment.visit?, c,
      later'.filterMap Moment.visit?, block, ?_, fun x hx => ?_, hc, hcblock, ?_⟩
    · rw [p.visits_eq, hmoments, hrest]
      simp [Moment.visit?]
    · obtain ⟨m, hm, hx⟩ := List.mem_filterMap.mp hx
      cases m with
      | visit y =>
        cases hx
        exact hbetween x hm
      | leave _ _ => cases hx
    · rw [hcourse.ended.globals, hend.valueOf]

end Settled

end ZAssembler.Assembly
