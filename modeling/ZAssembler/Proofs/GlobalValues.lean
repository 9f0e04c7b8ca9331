import ZAssembler.Proofs.LabelPositions

/-
  The values of globals in the assembling pass. A global that changes is judged at once, when its
  block is closed or when its routine is left, and always against the value it had when it first
  changed: `State.heldTo` is the value that the pass holds a global to. Every move keeps that value
  (`Moves.held`), but for two: a block that is given up forgets the changes that waited in it, and a
  routine that is left while a block is open is judged without that block. The pass breaks there.
  At its end a global has the value it was held to after the last break.
-/

namespace ZAssembler.Assembly

/-! ## The value a global is held to -/

/-- The value that a block holds a global to: the one before its first label in the block, or the
    one before it first changed there. -/
def OpenVocabulary.heldTo (v : OpenVocabulary) (name : String) : Option Int32 :=
  ((v.labels.find? (·.name == name)).bind (·.previous)).or (v.deferred.lookup name)

/-- The value that a global is held to: the oldest one that waits to be judged, or else its own. -/
def State.heldTo (s : State) (name : String) : Option Int32 :=
  (s.scope.bind (·.deferred.lookup name)).or
    ((s.vocabulary.bind (·.heldTo name)).or (s.globals.valueOf name))

theorem heldTo_of_eq {s t : State} (hscope : t.scope = s.scope)
    (hvocabulary : t.vocabulary = s.vocabulary) (hglobals : t.globals = s.globals) (name : String) :
    t.heldTo name = s.heldTo name := by
  unfold State.heldTo
  rw [hscope, hvocabulary, hglobals]

/-! ## Changes that are put off -/

/-- Puts a change off, unless one of the same name is. -/
def putOff (changes : List (String × Int32)) (name : String) (old : Int32) :
    List (String × Int32) :=
  if changes.any (·.1 == name) then changes else changes ++ [(name, old)]

theorem any_eq_lookup_isSome (changes : List (String × Int32)) (name : String) :
    changes.any (·.1 == name) = (changes.lookup name).isSome := by
  induction changes with
  | nil => rfl
  | cons change rest ih =>
    rw [List.any_cons, List.lookup_cons, ih]
    by_cases h : name = change.1
    · simp [h]
    · simp [Ne.symm h, beq_false_of_ne h]

theorem lookup_putOff (changes : List (String × Int32)) (name other : String) (old : Int32) :
    (putOff changes name old).lookup other =
      if name = other then (changes.lookup other).or (some old) else changes.lookup other := by
  unfold putOff
  rw [any_eq_lookup_isSome]
  by_cases h : name = other
  · subst h
    cases hl : changes.lookup name <;> simp [hl, List.lookup_append]
  · cases hl : (changes.lookup name).isSome <;>
      simp [h, List.lookup_append, List.lookup_cons, beq_false_of_ne (Ne.symm h)]

theorem deferred_defer (scope : RoutineScope) (name : String) (old : Int32) :
    (scope.defer name old).deferred = putOff scope.deferred name old := by
  unfold RoutineScope.defer putOff
  split <;> rfl

theorem block_defer (v : OpenVocabulary) (name : String) (old : Int32) :
    v.defer name old = { v with deferred := putOff v.deferred name old } := by
  unfold OpenVocabulary.defer putOff
  split <;> rfl

/-- The first change of a name counts. -/
theorem lookup_deferAll (scope : RoutineScope) (changes : List (String × Int32)) (name : String) :
    (deferAll scope changes).deferred.lookup name =
      (scope.deferred.lookup name).or (changes.lookup name) := by
  unfold deferAll
  induction changes generalizing scope with
  | nil => simp
  | cons change rest ih =>
    rw [List.foldl_cons, ih, deferred_defer, lookup_putOff, List.lookup_cons]
    by_cases h : change.1 = name
    · subst h
      cases scope.deferred.lookup change.1 <;> simp
    · simp [h, beq_false_of_ne (Ne.symm h)]

/-- The first label of a name tells its value before, if each of them does. -/
theorem lookup_labelChanges (labels : List VocabularyLabel) {name : String}
    (h : ∀ label ∈ labels, label.name = name → label.previous.isSome = true) :
    (labels.flatMap VocabularyLabel.change).lookup name =
      (labels.find? (·.name == name)).bind (·.previous) := by
  induction labels with
  | nil => rfl
  | cons label rest ih =>
    have hrest := ih fun l hl => h l (List.mem_cons_of_mem _ hl)
    rw [List.flatMap_cons, List.lookup_append, hrest, List.find?_cons]
    unfold VocabularyLabel.change
    by_cases hname : label.name = name
    · obtain ⟨old, hold⟩ := Option.isSome_iff_exists.mp (h label List.mem_cons_self hname)
      simp [hold, hname]
    · cases label.previous <;>
        simp [List.lookup_cons, beq_false_of_ne hname, beq_false_of_ne (Ne.symm hname)]

/-! ## One change -/

/-- What is known of a global during a pass. It has a value; a label in an open block knows the one
    before; and a change that waits in a block is of a node that is no label. -/
structure Traced (cx : Context) (labelAt : Nat → Prop) (name : String) (s : State) : Prop where
  known : (s.globals.valueOf name).isSome = true
  previous : ∀ v, s.vocabulary = some v → ∀ label ∈ v.labels, label.name = name →
    label.previous.isSome = true
  deferred : ∀ v, s.vocabulary = some v → (v.deferred.lookup name).isSome = true →
    ∃ j symbol, Owned cx name j symbol s ∧ ¬ labelAt j

section Change

variable {cx : Context} (hm : cx.mode = .assembling) {labelAt : Nat → Prop}
    {name : String} {n : Node}
  {s t : State}

theorem traced_of_eq (hs : Traced cx labelAt name s) (hvocabulary : t.vocabulary = s.vocabulary)
    (hglobals : t.globals = s.globals) : Traced cx labelAt name t := by
  refine ⟨hglobals ▸ hs.known, fun v hv => hs.previous v (hvocabulary ▸ hv), fun v hv hl => ?_⟩
  obtain ⟨j, symbol, ⟨hlookup, hdefined, hsite⟩, hj⟩ := hs.deferred v (hvocabulary ▸ hv) hl
  exact ⟨j, symbol, ⟨hglobals ▸ hlookup, hdefined, hsite⟩, hj⟩

/-- Noting the change of one global leaves what is put off of another. -/
theorem Noted.frame {other : String} {value : Int32} {u : State} (h : Noted other value s u)
    (hne : other ≠ name) :
    u.scope.bind (·.deferred.lookup name) = s.scope.bind (·.deferred.lookup name) ∧
      u.vocabulary.bind (·.heldTo name) = s.vocabulary.bind (·.heldTo name) ∧
      ∀ v', u.vocabulary = some v' → ∃ v, s.vocabulary = some v ∧ v'.labels = v.labels ∧
        v'.deferred.lookup name = v.deferred.lookup name := by
  cases h with
  | same _ => exact ⟨rfl, rfl, fun v hv => ⟨v, hv, rfl, rfl⟩⟩
  | inBlock v old _ _ hv =>
    have hl : (v.defer other old).deferred.lookup name = v.deferred.lookup name := by
      rw [block_defer]
      exact (lookup_putOff _ _ _ _).trans (if_neg hne)
    have hlabels : (v.defer other old).labels = v.labels := by rw [block_defer]
    refine ⟨rfl, ?_, fun v' hv' => ?_⟩
    · simp only [hv, Option.bind_some, OpenVocabulary.heldTo, hl, hlabels]
    · cases hv'
      exact ⟨v, hv, hlabels, hl⟩
  | inRoutine scope old _ _ hv hs =>
    refine ⟨?_, rfl, fun v' hv' => ⟨v', hv', rfl, rfl⟩⟩
    simp only [hs, Option.bind_some, deferred_defer, lookup_putOff, if_neg hne]

/-- Another global is defined. -/
theorem held_of_other {other : String} {value : Int32} {u : State} {symbol : Symbol}
    (h : Noted other value s u) (hsymbol : symbol.name = other) (hne : other ≠ name)
    (hkind : symbol.kind ≠ .unknown) (hs : Traced cx labelAt name s) :
    Traced cx labelAt name { u with globals := s.globals.put symbol } ∧
      ({ u with globals := s.globals.put symbol } : State).heldTo name = s.heldTo name := by
  have hvalue : (s.globals.put symbol).valueOf name = s.globals.valueOf name := by
    rw [valueOf_put _ _ hkind, hsymbol, if_neg hne]
  have hlookup : (s.globals.put symbol).lookup name = s.globals.lookup name := by
    rw [SymbolTable.lookup_put, hsymbol, if_neg hne]
  obtain ⟨hscope, hheld, hblock⟩ := h.frame hne
  refine ⟨⟨hvalue ▸ hs.known, fun v' hv' label hlabel => ?_, fun v' hv' hl => ?_⟩, ?_⟩
  · obtain ⟨v, hv, hlabels, -⟩ := hblock v' hv'
    exact hs.previous v hv label (hlabels ▸ hlabel)
  · obtain ⟨v, hv, -, hdeferred⟩ := hblock v' hv'
    obtain ⟨j, symbol', ⟨hl', hdefined, hsite⟩, hj⟩ := hs.deferred v hv (hdeferred ▸ hl)
    exact ⟨j, symbol', ⟨hlookup.trans hl', hdefined, hsite⟩, hj⟩
  · show (u.scope.bind (·.deferred.lookup name)).or
      ((u.vocabulary.bind (·.heldTo name)).or ((s.globals.put symbol).valueOf name)) = _
    rw [hscope, hheld, hvalue]
    rfl

/-- The global itself is defined, by a node that is no label of an open block. -/
theorem held_of_define {kind : SymbolKind} {value : Int32} {u : State} {symbol : Symbol}
    (h : Noted name value s u) (hsymbol : Entered symbol name kind value (s.site cx))
    (hkind : kind ≠ .unknown) (hlabel : labelAt s.index → s.vocabulary = none)
    (hs : Traced cx labelAt name s) :
    Traced cx labelAt name { u with globals := s.globals.put symbol } ∧
      ({ u with globals := s.globals.put symbol } : State).heldTo name = s.heldTo name := by
  have hkind' : symbol.kind ≠ .unknown := hsymbol.kind ▸ hkind
  have hvalue : (s.globals.put symbol).valueOf name = some value := by
    rw [valueOf_put _ _ hkind', if_pos hsymbol.name, hsymbol.value]
  have howned : ∀ u : State, u.globals = s.globals.put symbol →
      Owned cx name s.index symbol u := fun u hu => by
    refine ⟨?_, by simpa [Symbol.isDefined] using hkind', hsymbol.site⟩
    rw [hu, SymbolTable.lookup_put, if_pos hsymbol.name]
  have hopen : ∀ v', u.vocabulary = some v' →
      ∃ v, s.vocabulary = some v ∧ v'.labels = v.labels := by
    cases h with
    | same _ => exact fun v hv => ⟨v, hv, rfl⟩
    | inBlock v old _ _ hv =>
      intro v' hv'
      cases hv'
      exact ⟨v, hv, by rw [block_defer]⟩
    | inRoutine _ _ _ _ _ _ => exact fun v hv => ⟨v, hv, rfl⟩
  refine ⟨⟨by rw [hvalue]; rfl, fun v' hv' label hl => ?_, fun v' hv' _ => ?_⟩, ?_⟩
  · obtain ⟨v, hv, hlabels⟩ := hopen v' hv'
    exact hs.previous v hv label (hlabels ▸ hl)
  · obtain ⟨v, hv, -⟩ := hopen v' hv'
    refine ⟨s.index, symbol, howned _ rfl, fun hat => ?_⟩
    cases (hlabel hat).symm.trans hv
  · show (u.scope.bind (·.deferred.lookup name)).or
      ((u.vocabulary.bind (·.heldTo name)).or ((s.globals.put symbol).valueOf name)) = _
    rw [hvalue]
    unfold State.heldTo
    cases h with
    | same h =>
      obtain ⟨old, hold⟩ := Option.isSome_iff_exists.mp hs.known
      rw [hold, h old hold]
    | inBlock v old hold _ hv =>
      simp only [hv, hold, Option.bind_some, OpenVocabulary.heldTo, block_defer, lookup_putOff,
        if_true]
      cases v.deferred.lookup name <;> simp
    | inRoutine scope old hold _ hv hscope =>
      simp only [hv, hold, hscope, Option.bind_some, Option.bind_none, deferred_defer,
        lookup_putOff, if_true]
      cases scope.deferred.lookup name <;> simp

/-- The value that a global is held to after one more label of an open block. -/
theorem heldTo_blockLabel {v : OpenVocabulary} {other : String} {symbol : Symbol}
    (hv : s.vocabulary = some v)
    (hglobals : (s.blockLabel cx other).globals = s.globals.put symbol) :
    (s.blockLabel cx other).heldTo name = (s.scope.bind (·.deferred.lookup name)).or
      (((((v.labels.find? (·.name == name)).or
        (if other = name then some ⟨other, s.image.cursor, s.globals.valueOf other⟩ else none)).bind
          (·.previous)).or (v.deferred.lookup name)).or ((s.globals.put symbol).valueOf name)) := by
  unfold State.heldTo OpenVocabulary.heldTo
  rw [blockLabel_labels cx other hv, hglobals]
  simp only [Option.bind_some, List.find?_append, List.find?_singleton, beq_iff_eq]
  rfl

/-- A label of an open block. A change of the global that waits in the block would be of another
    node, and the label would be refused. -/
theorem held_of_blockLabel {v : OpenVocabulary} (hv : s.vocabulary = some v)
    (hnew : ¬ Taken s.globals name (s.site cx)) (hlabel : labelAt s.index)
    (hs : Traced cx labelAt name s) :
    Traced cx labelAt name (s.blockLabel cx name) ∧
      (s.blockLabel cx name).heldTo name = s.heldTo name := by
  obtain ⟨symbol, hsymbol, hglobals⟩ := blockLabel_globals cx name hnew
  have hblock := blockLabel_labels cx name hv
  have hnone : v.deferred.lookup name = none := by
    cases hl : v.deferred.lookup name with
    | none => rfl
    | some old =>
      obtain ⟨j, symbol', howned, hj⟩ := hs.deferred v hv (by rw [hl]; rfl)
      refine absurd (howned.taken fun hi => ?_) hnew
      exact hj (hi ▸ hlabel)
  refine ⟨⟨?_, fun v' hv' label hl hn => ?_, fun v' hv' hl => ?_⟩, ?_⟩
  · obtain ⟨symbol', howned⟩ := blockLabel_owned cx name hnew
    rw [howned.valueOf]
    rfl
  · cases hblock.symm.trans hv'
    rcases List.mem_append.mp hl with hl | hl
    · exact hs.previous v hv label hl hn
    · rw [List.mem_singleton.mp hl]
      exact hs.known
  · cases hblock.symm.trans hv'
    rw [show ({ v with labels := _ } : OpenVocabulary).deferred = v.deferred from rfl, hnone] at hl
    cases hl
  · rw [heldTo_blockLabel hv hglobals]
    unfold State.heldTo OpenVocabulary.heldTo
    simp only [hv, Option.bind_some, hnone, if_true]
    obtain ⟨old, hold⟩ := Option.isSome_iff_exists.mp hs.known
    cases hf : v.labels.find? (·.name == name) with
    | none => simp [hold]
    | some label =>
      obtain ⟨old', hold'⟩ := Option.isSome_iff_exists.mp
        (hs.previous v hv label (List.mem_of_find?_eq_some hf) (by simpa using List.find?_some hf))
      simp [hold']

/-- A label of an open block, of another name. -/
theorem held_of_otherLabel {v : OpenVocabulary} {other : String} (hv : s.vocabulary = some v)
    (hnew : ¬ Taken s.globals other (s.site cx)) (hname : other ≠ name)
    (hs : Traced cx labelAt name s) :
    Traced cx labelAt name (s.blockLabel cx other) ∧
      (s.blockLabel cx other).heldTo name = s.heldTo name := by
  obtain ⟨symbol, hsymbol, hglobals⟩ := blockLabel_globals cx other hnew
  have hblock := blockLabel_labels cx other hv
  have hlookup : (s.globals.put symbol).lookup name = s.globals.lookup name := by
    rw [SymbolTable.lookup_put, hsymbol.name, if_neg hname]
  have hvalue : (s.globals.put symbol).valueOf name = s.globals.valueOf name := by
    unfold SymbolTable.valueOf
    rw [hlookup]
  refine ⟨⟨?_, fun v' hv' label hl hn => ?_, fun v' hv' hl => ?_⟩, ?_⟩
  · rw [hglobals, hvalue]
    exact hs.known
  · cases hblock.symm.trans hv'
    rcases List.mem_append.mp hl with hl | hl
    · exact hs.previous v hv label hl hn
    · rw [List.mem_singleton.mp hl] at hn
      exact absurd hn hname
  · cases hblock.symm.trans hv'
    obtain ⟨j, symbol', ⟨hl', hdefined, hsite⟩, hj⟩ := hs.deferred v hv hl
    exact ⟨j, symbol', ⟨by rw [hglobals, hlookup, hl'], hdefined, hsite⟩, hj⟩
  · rw [heldTo_blockLabel hv hglobals, if_neg hname, hvalue]
    unfold State.heldTo OpenVocabulary.heldTo
    simp only [hv, Option.bind_some, Option.or_none]

theorem held_of_eq (hs : Traced cx labelAt name s) (hscope : t.scope = s.scope)
    (hvocabulary : t.vocabulary = s.vocabulary) (hglobals : t.globals = s.globals) :
    Traced cx labelAt name t ∧ t.heldTo name = s.heldTo name :=
  ⟨traced_of_eq hs hvocabulary hglobals, heldTo_of_eq hscope hvocabulary hglobals name⟩

include hm

/-- Every change but the closing of a block keeps the value that a global is held to. -/
theorem Change.held (h : Change cx n s t) (hclose : n.kind ≠ .directive .vocend)
    (hlabel : labelAt s.index ↔ ∃ label, n.kind = .globalLabel label)
    (hs : Traced cx labelAt name s) :
    Traced cx labelAt name t ∧ t.heldTo name = s.heldTo name := by
  cases h with
  | aside h => exact held_of_eq hs h.scope h.vocabulary h.globals
  | define other kind value hkind hblock h =>
    obtain ⟨-, symbol, u, hsymbol, hu, rfl⟩ := defineGlobal_ok hm hkind h
    by_cases hname : other = name
    · subst hname
      refine held_of_define hu hsymbol hkind (fun hat => ?_) hs
      obtain ⟨label, hk⟩ := hlabel.mp hat
      exact hblock label hk
    · exact held_of_other hu hsymbol.name hname (hsymbol.kind ▸ hkind) hs
  | label v other hnode hv hnew =>
    by_cases hname : other = name
    · subst hname
      exact held_of_blockLabel hv hnew (hlabel.mpr ⟨other, hnode⟩) hs
    · exact held_of_otherLabel hv hnew hname hs
  | openBlock recordSize keySize _ hv =>
    refine ⟨⟨hs.known, fun v' hv' label hl => ?_, fun v' hv' hl => ?_⟩, ?_⟩
    · cases hv'
      cases hl
    · cases hv'
      cases hl
    · unfold State.heldTo
      rw [hv]
      rfl
  | closeBlock hnode _ => exact absurd hnode hclose
  | localLabel label _ h =>
    obtain ⟨scope, symbol, hscope, -, -, ⟨-, ht⟩ | ⟨ht, hmoved⟩⟩ := localLabel_ok h
    · exact held_of_eq hs (by rw [ht]) (by rw [ht]) (by rw [ht])
    · have hvocabulary : t.vocabulary = s.vocabulary := by rw [ht]
      have hglobals : t.globals = s.globals := by rw [ht]
      refine ⟨traced_of_eq hs hvocabulary hglobals, ?_⟩
      unfold State.heldTo
      rw [hvocabulary, hglobals, hmoved, hscope]
      rfl
  | report | store | fixup | locals => exact held_of_eq hs rfl rfl rfl

theorem Changes.held (h : Changes cx n s t) (hclose : n.kind ≠ .directive .vocend)
    (hlabel : labelAt s.index ↔ ∃ label, n.kind = .globalLabel label)
    (hs : Traced cx labelAt name s) :
    Traced cx labelAt name t ∧ t.heldTo name = s.heldTo name := by
  induction h with
  | refl => exact ⟨hs, rfl⟩
  | tail hchain hstep ih =>
    obtain ⟨htraced, hheld⟩ := hstep.held hm hclose ((Changes.index hm hchain).symm ▸ hlabel) ih.1
    exact ⟨htraced, hheld.trans ih.2⟩

end Change

/-! ## Closing a block -/

/-- Moving labels does not take a value away. -/
theorem isSome_relocateAll (place : Nat → Nat) (labels : List VocabularyLabel) (t : SymbolTable)
    {name : String} (h : (t.valueOf name).isSome = true) :
    ((relocateAll place labels t).valueOf name).isSome = true := by
  cases hl : t.lookup name with
  | none => simp [SymbolTable.valueOf, hl] at h
  | some symbol =>
    obtain ⟨value, hvalue⟩ := lookup_relocateAll place labels t hl
    rw [valueOf_of_lookup hl] at h
    rw [valueOf_of_lookup hvalue]
    cases hd : symbol.isDefined with
    | false =>
      rw [hd] at h
      cases h
    | true =>
      rw [show ({ symbol with value } : Symbol).isDefined = symbol.isDefined from rfl, hd]
      rfl

theorem valueOf_relocateAll_of_ne (place : Nat → Nat) (labels : List VocabularyLabel)
    (t : SymbolTable) {name : String} (h : ∀ label ∈ labels, label.name ≠ name) :
    (relocateAll place labels t).valueOf name = t.valueOf name := by
  unfold SymbolTable.valueOf
  rw [lookup_relocateAll_of_ne place labels t h]

theorem unmoved_eq {globals : SymbolTable} {name : String} {old : Int32}
    (h : Unmoved globals name old) (hknown : (globals.valueOf name).isSome = true) :
    globals.valueOf name = some old := by
  rcases h with h | h
  · rw [h] at hknown
    cases hknown
  · exact h

/-- A change that is judged leaves the global with the value it had. -/
theorem unmoved_of_lookup {globals : SymbolTable} {changes : List (String × Int32)} {name : String}
    {old : Int32} (h : ∀ change ∈ changes, Unmoved globals change.1 change.2)
    (hl : changes.lookup name = some old) (hknown : (globals.valueOf name).isSome = true) :
    globals.valueOf name = some old := by
  obtain ⟨l₁, l₂, heq, -⟩ := List.lookup_eq_some_iff.mp hl
  have hchange : (name, old) ∈ changes := by
    rw [heq]
    exact List.mem_append_right _ List.mem_cons_self
  exact unmoved_eq (h _ hchange) hknown

/-- Of labels that are judged one after the other, one that stands alone has the value it had. -/
theorem judged_eq {place : Nat → Nat} {labels : List VocabularyLabel} {globals : SymbolTable}
    (h : Judged place labels globals) {label : VocabularyLabel} (hl : label ∈ labels)
    (hnodup : (labels.map (·.name)).Nodup) {old : Int32} (hold : label.previous = some old)
    (hknown : (globals.valueOf label.name).isSome = true) :
    (relocateAll place labels globals).valueOf label.name = some old := by
  induction labels generalizing globals with
  | nil => cases hl
  | cons first rest ih =>
    obtain ⟨hfirst, hrest⟩ := h
    rw [List.map_cons, List.nodup_cons] at hnodup
    have hknown' := isSome_relocateAll place [first] globals hknown
    show (relocateAll place rest (relocateAll place [first] globals)).valueOf label.name = some old
    rcases List.mem_cons.mp hl with rfl | hl
    · rw [valueOf_relocateAll_of_ne]
      · exact unmoved_eq (hfirst old hold) hknown'
      · intro other hother heq
        exact hnodup.1 (heq ▸ List.mem_map_of_mem hother)
    · exact ih hrest hl hnodup.2 hknown'

section Closed

variable {cx : Context} {labelAt : Nat → Prop} {name : String} {v : OpenVocabulary} {s t : State}

theorem Closed.traced {complete : Bool} (h : Closed v complete s t)
    (hs : Traced cx labelAt name s) : Traced cx labelAt name t := by
  refine ⟨?_, fun v' hv' => (nomatch h.vocabulary.symm.trans hv'), fun v' hv' =>
    nomatch h.vocabulary.symm.trans hv'⟩
  rw [h.globals]
  exact isSome_relocateAll _ _ _ hs.known

/-- A block that is closed hands on the value that it holds a global to, or judges it. -/
theorem Closed.held (h : Closed v true s t) (hv : s.vocabulary = some v)
    (hs : Traced cx labelAt name s)
    (hnodup : s.scope = none → (v.labels.map (·.name)).Nodup) :
    t.heldTo name = s.heldTo name := by
  have hknown := (h.traced hs).known
  have hunlabelled : v.labels.find? (·.name == name) = none →
      t.globals.valueOf name = s.globals.valueOf name := by
    intro hnone
    rw [h.globals]
    refine valueOf_relocateAll_of_ne _ _ _ fun label hl => ?_
    simpa using List.find?_eq_none.mp hnone label hl
  have hprevious : ∀ label, v.labels.find? (·.name == name) = some label →
      label ∈ v.labels ∧ label.name = name ∧ ∃ old, label.previous = some old := by
    intro label hf
    have hmem := List.mem_of_find?_eq_some hf
    have hname : label.name = name := by simpa using List.find?_some hf
    exact ⟨hmem, hname, Option.isSome_iff_exists.mp (hs.previous v hv label hmem hname)⟩
  unfold State.heldTo OpenVocabulary.heldTo
  rw [h.vocabulary, h.scope, hv]
  cases hscope : s.scope with
  | some scope =>
    simp only [Option.map_some, Option.bind_some, Option.bind_none, Option.none_or, if_true,
      lookup_deferAll, List.lookup_append, lookup_labelChanges v.labels (hs.previous v hv)]
    cases hf : v.labels.find? (·.name == name) with
    | none =>
      rw [hunlabelled hf]
      cases scope.deferred.lookup name <;> cases v.deferred.lookup name <;> simp
    | some label =>
      obtain ⟨-, -, old, hold⟩ := hprevious label hf
      cases scope.deferred.lookup name <;> simp [hold]
  | none =>
    obtain ⟨hjudged, hunmoved⟩ := h.judged hscope
    simp only [Option.map_none, Option.bind_some, Option.bind_none, Option.none_or]
    cases hf : v.labels.find? (·.name == name) with
    | some label =>
      obtain ⟨hmem, hname, old, hold⟩ := hprevious label hf
      subst hname
      rw [h.globals, judged_eq hjudged hmem (hnodup hscope) hold hs.known]
      simp [hold]
    | none =>
      cases hl : v.deferred.lookup name with
      | none =>
        rw [hunlabelled hf]
        rfl
      | some old => exact unmoved_of_lookup (hunmoved rfl) hl hknown

end Closed

/-! ## Breaks -/

/-- The node was given up with an error. -/
def Visit.givenUp (v : Visit) (cx : Context) : Bool :=
  match Assembly.node cx v.node v.before with
  | .ok _ _ => false
  | .error _ _ => true

/-- The state after a moment that forgets what waits to be judged: a block was given up, or a
    routine left while a block was open. -/
def Moment.break? (cx : Context) : Moment → Option State
  | .visit v => if v.node.kind = .directive .vocend ∧ v.givenUp cx then some v.after else none
  | .leave s t => if s.vocabulary.isSome then some t else none

/-- The last of the breaks among some moments, or else the state before them. -/
def lastBreak (cx : Context) (s : State) (l : List Moment) : State :=
  (l.filterMap (Moment.break? cx)).getLast?.getD s

theorem lastBreak_of_some {cx : Context} {m : Moment} {u : State} (h : m.break? cx = some u)
    (s : State) (l : List Moment) : lastBreak cx s (m :: l) = lastBreak cx u l := by
  unfold lastBreak
  rw [List.filterMap_cons_some h, List.getLast?_cons]
  rfl

theorem heldTo_lastBreak_of_eq (cx : Context) {s u : State} {name : String}
    (h : u.heldTo name = s.heldTo name) (l : List Moment) :
    (lastBreak cx u l).heldTo name = (lastBreak cx s l).heldTo name := by
  unfold lastBreak
  cases (l.filterMap (Moment.break? cx)).getLast? with
  | none => exact h
  | some b => rfl

/-- A moment that is no break keeps the value at the last break, if it keeps it itself. -/
theorem heldTo_lastBreak {cx : Context} {m : Moment} (h : m.break? cx = none) {s u : State}
    {name : String} (hheld : u.heldTo name = s.heldTo name) (l : List Moment) :
    (lastBreak cx u l).heldTo name = (lastBreak cx s (m :: l)).heldTo name := by
  rw [heldTo_lastBreak_of_eq cx hheld l]
  unfold lastBreak
  rw [List.filterMap_cons_none h]

section Moves

variable {cx : Context} (hm : cx.mode = .assembling) {labelAt : Nat → Prop} {name : String}

theorem Left.held {scope : RoutineScope} {s t : State} (h : Left scope s t)
    (hscope : s.scope = some scope) (hv : s.vocabulary = none) (hs : Traced cx labelAt name s) :
    t.heldTo name = s.heldTo name := by
  unfold State.heldTo
  rw [h.outside, h.vocabulary, h.globals, hscope, hv]
  simp only [Option.bind_none, Option.bind_some, Option.none_or]
  cases hl : scope.deferred.lookup name with
  | none => rfl
  | some old => exact unmoved_of_lookup h.unmoved hl hs.known

include hm

/-- A visit keeps the value that a global is held to, or it is a break. -/
theorem visit_held {index : Nat} {n : Node} {s t : State} (h : visit cx index n s = .ok () t)
    (hlabel : labelAt index ↔ ∃ label, n.kind = .globalLabel label)
    (hnodup : s.scope = none → ∀ v, s.vocabulary = some v → (v.labels.map (·.name)).Nodup)
    (hs : Traced cx labelAt name s) :
    Traced cx labelAt name t ∧
      ((Moment.visit ⟨index, n, s.reach index n, t⟩).break? cx = some t ∨
        (Moment.visit ⟨index, n, s.reach index n, t⟩).break? cx = none ∧
          t.heldTo name = s.heldTo name) := by
  have hreach : Traced cx labelAt name (s.reach index n) := traced_of_eq hs rfl rfl
  by_cases hclose : n.kind = .directive .vocend
  · rcases visit_close hm hclose h with ⟨v, hv, hok, hc⟩ | ⟨p, u, hskip, rfl, hcases⟩
    · refine ⟨hc.traced hreach, .inr ⟨?_, hc.held hv hreach fun hn => hnodup hn v hv⟩⟩
      simp [Moment.break?, Visit.givenUp, hok]
    · refine ⟨?_, .inl (by simp [Moment.break?, Visit.givenUp, hclose, hskip])⟩
      rcases hcases with ⟨-, rfl⟩ | ⟨v, hv, hc⟩
      · exact traced_of_eq hs rfl rfl
      · exact traced_of_eq (hc.traced hreach) rfl rfl
  · obtain ⟨htraced, hheld⟩ := (visit_changes hm h).held hm hclose hlabel hreach
    exact ⟨htraced, .inr ⟨by simp [Moment.break?, hclose], hheld⟩⟩

/-- At the end of some moves a global is held to what it was held to after the last break. -/
theorem Moves.held {s t : State} {l : List Moment} (h : Moves cx s l t)
    (hlabel : ∀ v, .visit v ∈ l → (labelAt v.index ↔ ∃ label, v.node.kind = .globalLabel label))
    (hnodup : ∀ v, .visit v ∈ l → v.before.scope = none → ∀ b, v.before.vocabulary = some b →
      (b.labels.map (·.name)).Nodup)
    (hs : Traced cx labelAt name s) :
    Traced cx labelAt name t ∧ t.heldTo name = (lastBreak cx s l).heldTo name := by
  induction h with
  | refl s => exact ⟨hs, rfl⟩
  | visit index n h _ ih =>
    obtain ⟨hu, hbreak⟩ := visit_held hm h (hlabel _ List.mem_cons_self)
      (hnodup _ List.mem_cons_self) hs
    obtain ⟨ht, hend⟩ := ih (fun v hv => hlabel v (List.mem_cons_of_mem _ hv))
      (fun v hv => hnodup v (List.mem_cons_of_mem _ hv)) hu
    refine ⟨ht, hend.trans ?_⟩
    rcases hbreak with hsome | ⟨hnone, hheld⟩
    · rw [lastBreak_of_some hsome]
    · exact heldTo_lastBreak hnone hheld _
  | @enter s u l start r hscope _ ih =>
    obtain ⟨ht, hend⟩ := ih hlabel hnodup (traced_of_eq hs rfl rfl)
    refine ⟨ht, hend.trans (heldTo_lastBreak_of_eq cx ?_ l)⟩
    simp [State.heldTo, State.enter, RoutineScope.begin, hscope]
  | @again s u l scope next hscope hnext _ ih =>
    obtain ⟨ht, hend⟩ := ih hlabel hnodup (traced_of_eq hs rfl rfl)
    refine ⟨ht, hend.trans (heldTo_lastBreak_of_eq cx ?_ l)⟩
    obtain ⟨-, -, hdeferred, -⟩ := nextWalk_continues hnext
    simp [State.heldTo, State.walkAgain, State.rewind, hscope, hdeferred]
  | @leave s t u l scope hscope hmoved h _ ih =>
    have hleft := closeRoutine_ok hm h
    obtain ⟨ht, hend⟩ := ih (fun v hv => hlabel v (List.mem_cons_of_mem _ hv))
      (fun v hv => hnodup v (List.mem_cons_of_mem _ hv))
      (traced_of_eq hs hleft.vocabulary hleft.globals)
    refine ⟨ht, hend.trans ?_⟩
    cases hv : s.vocabulary with
    | some v => rw [lastBreak_of_some (u := t) (by simp [Moment.break?, hv])]
    | none =>
      exact heldTo_lastBreak (by simp [Moment.break?, hv]) (hleft.held hscope hv hs) _

end Moves

/-! ## Labels before the routines -/

/-- The labels of an open block have different names, and each is a symbol of a node before node
    `i`. -/
structure Distinct (cx : Context) (i : Nat) (s : State) : Prop where
  names : ∀ v, s.vocabulary = some v → (v.labels.map (·.name)).Nodup
  owned : ∀ v, s.vocabulary = some v → ∀ label ∈ v.labels,
    ∃ j symbol, j < i ∧ Owned cx label.name j symbol s

theorem distinct_of_eq {cx : Context} {i j : Nat} {s t : State} (hs : Distinct cx i s) (hij : i ≤ j)
    (hvocabulary : t.vocabulary = s.vocabulary) (hglobals : t.globals = s.globals) :
    Distinct cx j t := by
  refine ⟨fun v hv => hs.names v (hvocabulary ▸ hv), fun v hv label hlabel => ?_⟩
  obtain ⟨k, symbol, hk, hlookup, hdefined, hsite⟩ := hs.owned v (hvocabulary ▸ hv) label hlabel
  exact ⟨k, symbol, by omega, hglobals ▸ hlookup, hdefined, hsite⟩

section Distinct

variable {cx : Context} (hm : cx.mode = .assembling) {n : Node} {s t : State}

theorem distinct_of_none {i : Nat} (h : t.vocabulary = none) : Distinct cx i t :=
  ⟨fun _ hv => (nomatch h.symm.trans hv), fun _ hv => nomatch h.symm.trans hv⟩

include hm

theorem Change.distinct (h : Change cx n s t) (hclose : n.kind ≠ .directive .vocend)
    (hlabel : ∀ name, n.kind ≠ .globalLabel name) (hs : Distinct cx s.index s) :
    Distinct cx s.index t := by
  obtain ⟨hopened, hgrown⟩ := h.labelsGrow hm hclose
  cases hv : s.vocabulary with
  | none =>
    refine ⟨fun v' hv' => ?_, fun v' hv' label hmem => ?_⟩
    · rw [(hopened hv v' hv').1]
      exact List.nodup_nil
    · rw [(hopened hv v' hv').1] at hmem
      cases hmem
  | some v =>
    obtain ⟨v', hv', hlabels | ⟨new, hnode, -⟩⟩ := hgrown v hv
    · refine ⟨fun w hw => ?_, fun w hw label hmem => ?_⟩
      · cases hv'.symm.trans hw
        exact hlabels ▸ hs.names v hv
      · cases hv'.symm.trans hw
        obtain ⟨j, symbol, hj, howned⟩ := hs.owned v hv label (hlabels ▸ hmem)
        have htaken := howned.taken (Nat.ne_of_gt hj)
        exact ⟨j, symbol, hj, (h.lookup_eq hm hclose htaken).trans howned.lookup, howned.defined,
          howned.site⟩
    · exact absurd hnode (hlabel _)

theorem Changes.distinct (h : Changes cx n s t) (hclose : n.kind ≠ .directive .vocend)
    (hlabel : ∀ name, n.kind ≠ .globalLabel name) (hs : Distinct cx s.index s) :
    Distinct cx s.index t := by
  induction h with
  | refl => exact hs
  | tail hchain hstep ih =>
    have hindex := Changes.index hm hchain
    rw [← hindex] at ih ⊢
    exact hstep.distinct hm hclose hlabel ih

/-- A label outside a block opens none. -/
theorem Changes.stays_outside (h : Changes cx n s t) {name : String}
    (hnode : n.kind = .globalLabel name) (hs : s.vocabulary = none) : t.vocabulary = none := by
  induction h with
  | refl => exact hs
  | @tail t u _ hstep ih =>
    have hclose : n.kind ≠ .directive .vocend := by simp [hnode]
    cases hu : u.vocabulary with
    | none => rfl
    | some v =>
      obtain ⟨-, r, k, hopens⟩ := (hstep.labelsGrow hm hclose).opened ih v hu
      cases hnode.symm.trans hopens

omit hm in
theorem blockLabel_distinct {v : OpenVocabulary} (name : String) (hv : s.vocabulary = some v)
    (hnew : ¬ Taken s.globals name (s.site cx)) (hs : Distinct cx s.index s) :
    Distinct cx (s.index + 1) (s.blockLabel cx name) := by
  have hlabels := blockLabel_labels cx name hv
  have hne : ∀ label ∈ v.labels, label.name ≠ name := by
    rintro label hmem rfl
    obtain ⟨j, symbol, hj, howned⟩ := hs.owned v hv label hmem
    exact hnew (howned.taken (Nat.ne_of_gt hj))
  refine ⟨fun w hw => ?_, fun w hw label hmem => ?_⟩
  · cases hlabels.symm.trans hw
    rw [List.map_append, List.nodup_append]
    refine ⟨hs.names v hv, by simp, fun a ha b hb => ?_⟩
    obtain ⟨label, hmem, rfl⟩ := List.mem_map.mp ha
    obtain rfl := List.mem_singleton.mp hb
    exact hne label hmem
  · cases hlabels.symm.trans hw
    rcases List.mem_append.mp hmem with hmem | hmem
    · obtain ⟨j, symbol, hj, howned⟩ := hs.owned v hv label hmem
      obtain ⟨entered, hentered, hglobals⟩ := blockLabel_globals cx name hnew
      refine ⟨j, symbol, by omega, ?_, howned.defined, howned.site⟩
      rw [hglobals, SymbolTable.lookup_put, hentered.name, if_neg (hne label hmem).symm]
      exact howned.lookup
    · obtain rfl := List.mem_singleton.mp hmem
      obtain ⟨symbol, howned⟩ := blockLabel_owned cx name hnew
      exact ⟨s.index, symbol, Nat.lt_succ_self _, howned⟩

theorem visit_distinct {index : Nat} (h : visit cx index n s = .ok () t)
    (hs : Distinct cx index s) : Distinct cx (index + 1) t := by
  have hreach : Distinct cx index (s.reach index n) := distinct_of_eq hs (Nat.le_refl _) rfl rfl
  by_cases hclose : n.kind = .directive .vocend
  · rcases visit_close hm hclose h with ⟨v, hv, -, hc⟩ | ⟨p, u, -, rfl, ⟨-, rfl⟩ | ⟨v, hv, hc⟩⟩
    · exact distinct_of_none hc.vocabulary
    · exact distinct_of_eq hs (Nat.le_succ _) rfl rfl
    · exact distinct_of_none hc.vocabulary
  · have hchanges := visit_changes hm h
    by_cases hlabel : ∃ name, n.kind = .globalLabel name
    · obtain ⟨name, hnode⟩ := hlabel
      cases hv : s.vocabulary with
      | none => exact distinct_of_none (hchanges.stays_outside hm hnode hv)
      | some v =>
        have hrun : node cx n = globalLabel cx name := node_globalLabel hnode
        rcases blockLabel_cases cx name (s := s.reach index n) hv with ⟨old, hskip⟩ | ⟨hnew, hok⟩
        · rcases visit_cases h with hn | ⟨p, u, hn, rfl⟩
          · cases (hrun ▸ hn).symm.trans hskip
          · cases (hrun ▸ hn).symm.trans hskip
            exact distinct_of_eq hs (Nat.le_succ _) rfl rfl
        · rcases visit_cases h with hn | ⟨p, u, hn, rfl⟩
          · have ht : t = (s.reach index n).blockLabel cx name := by
              have hsame := (hrun ▸ hn).symm.trans hok
              injection hsame
            rw [ht]
            exact blockLabel_distinct (s := s.reach index n) name hv hnew hreach
          · cases (hrun ▸ hn).symm.trans hok
    · have ht := hchanges.distinct hm hclose (fun name hnode => hlabel ⟨name, hnode⟩) hreach
      exact distinct_of_eq ht (Nat.le_succ _) rfl rfl

end Distinct

/-- The labels of a block that stands open before the routines have different names. -/
theorem FinalPass.Makes.labels_nodup {p : FinalPass} {o : Options} {nodes : List Node}
    {story : AssembledStory} (h : p.Makes o nodes story) {v : Visit} (hv : v ∈ p.visits)
    (hscope : v.before.scope = none) {b : OpenVocabulary} (hb : v.before.vocabulary = some b) :
    (b.labels.map (·.name)).Nodup := by
  have hends := h.ends
  rw [h.program] at hends
  obtain ⟨t1, t2, index, hpreamble, -, -⟩ := pass_parts h.mode hends
  obtain ⟨w, hw, hv⟩ := List.mem_flatMap.mp hv
  unfold FinalPass.walks passWalks at hw
  rw [h.program, hpreamble] at hw
  rcases List.mem_cons.mp hw with rfl | hw
  · have hstart : Distinct p.context 0 p.start := by
      obtain ⟨s, hs⟩ := h.begins
      exact distinct_of_none (by rw [hs]; rfl)
    obtain ⟨u, hbefore, hu⟩ := visits_keep (visit_distinct h.mode) hstart hv
    rw [hbefore] at hb
    exact hu.names b hb
  · obtain ⟨i, ns, u, hu, hvisits⟩ := visits_of_mem_routinesWalks hw
    rw [hvisits] at hv
    have hstep : ∀ {index n s t}, visit p.context index n s = .ok () t → s.scope.isSome = true →
        t.scope.isSome = true := by
      intro index n s t hvisit hs
      obtain ⟨a, ha⟩ := Option.isSome_iff_exists.mp hs
      obtain ⟨b, hb, -⟩ := (visit_later h.mode hvisit).inside a ha
      rw [hb]
      rfl
    obtain ⟨u', hbefore, hinside⟩ := visits_keep (P := fun _ s => s.scope.isSome = true) hstep hu hv
    rw [hbefore] at hscope
    rw [show u'.scope = none from hscope] at hinside
    cases hinside

/-! ## The values at the end -/

/-- Node `i` of the program is a global label. -/
def FinalPass.LabelAt (p : FinalPass) (i : Nat) : Prop :=
  ∃ n label, p.program.nodes[i]? = some n ∧ n.kind = .globalLabel label

/-- The states after the breaks of a pass, in the order of time. -/
def FinalPass.breaks (p : FinalPass) : List State := p.moments.filterMap (Moment.break? p.context)

/-- The state after the last break, or else the one in which the pass began. -/
def FinalPass.lastBreak (p : FinalPass) : State := Assembly.lastBreak p.context p.start p.moments

theorem FinalPass.labelAt_iff {p : FinalPass} {v : Visit} (hv : v ∈ p.visits) :
    p.LabelAt v.index ↔ ∃ label, v.node.kind = .globalLabel label := by
  obtain ⟨w, hw, hv⟩ := List.mem_flatMap.mp hv
  have hnode := mem_passWalks hw hv
  constructor
  · rintro ⟨n, label, hn, hlabel⟩
    cases hn.symm.trans hnode
    exact ⟨label, hlabel⟩
  · rintro ⟨label, hlabel⟩
    exact ⟨v.node, label, hnode, hlabel⟩

section Ends

variable {p : FinalPass} {o : Options} {nodes : List Node} {story : AssembledStory}
  (h : p.Makes o nodes story)

include h

/-- A global ends with the value that it was held to after the last break. -/
theorem FinalPass.Course.final_value {t : State} (hcourse : p.Course t) {s : State}
    {l : List Moment} (hmoves : Moves p.context s l t) (hl : ∀ v, .visit v ∈ l → v ∈ p.visits)
    {name : String} (hs : Traced p.context p.LabelAt name s) :
    (p.finish.globals.valueOf name).isSome = true ∧
      p.finish.globals.valueOf name = (Assembly.lastBreak p.context s l).heldTo name := by
  obtain ⟨htraced, hheld⟩ := hmoves.held h.mode (fun v hv => FinalPass.labelAt_iff (hl v hv))
    (fun v hv hscope b hb => h.labels_nodup (hl v hv) hscope hb) hs
  have hclosed : t.vocabulary = none := by
    rcases hcourse.ended.closed with hclosed | herror
    · exact hclosed
    · rw [no_errors h] at herror
      cases herror
  rw [← hheld, hcourse.ended.globals]
  exact ⟨htraced.known, by simp [State.heldTo, hcourse.outside, hclosed]⟩

theorem start_traced {name : String} (hname : (p.start.globals.valueOf name).isSome = true) :
    Traced p.context p.LabelAt name p.start := by
  obtain ⟨s, hs⟩ := h.begins
  have hnone : p.start.vocabulary = none := by
    rw [hs]
    rfl
  exact ⟨hname, fun v hv => (nomatch hnone.symm.trans hv), fun v hv => nomatch hnone.symm.trans hv⟩

theorem start_heldTo (name : String) : p.start.heldTo name = p.start.globals.valueOf name := by
  obtain ⟨s, hs⟩ := h.begins
  rw [hs]
  rfl

end Ends

/-- A global that has a value when the final pass begins ends with the value that it was held to
    after the last break, so that it keeps its value if the pass has none. A global label that the
    pass reaches ends at the position where a settled walk reached it, or, in a block, where the
    order of the block put it when the block ended. -/
theorem global_values_at_end {o : Options} {nodes : List Node} {story : AssembledStory}
    (h : (assemble o nodes).result = .ok story) :
    ∃ p, finalPass? o nodes = some p ∧
      (∀ name x, p.start.globals.valueOf name = some x →
        (p.finish.globals.valueOf name = some x ↔ p.lastBreak.heldTo name = some x) ∧
        (p.breaks = [] → p.finish.globals.valueOf name = some x)) ∧
      (∀ x ∈ p.visits, ∃ w ∈ p.walks, w.settled = true ∧
        ∃ v ∈ w.visits, v.index = x.index ∧ v.node = x.node) ∧
      ∀ w ∈ p.walks, w.settled = true → ∀ v ∈ w.visits, ∀ name, v.node.kind = .globalLabel name →
        (v.before.vocabulary = none →
          p.finish.globals.valueOf name = some (Int32.ofNat v.before.image.cursor)) ∧
        ∀ b, v.before.vocabulary = some b →
          ∃ earlier between c later block, p.visits = earlier ++ v :: (between ++ c :: later) ∧
            (∀ x ∈ between, x.node.kind ≠ .directive .vocend) ∧
            c.node.kind = .directive .vocend ∧ c.before.vocabulary = some block ∧
            p.finish.globals.valueOf name = some (Int32.ofNat
              (block.place (c.before.blockOrder block) v.before.image.cursor)) := by
  obtain ⟨p, hp, hmakes⟩ := exists_finalPass h
  obtain ⟨t, hcourse⟩ := hmakes.course
  refine ⟨p, hp, fun name x hx => ?_, hcourse.reaches, fun w hw hset v hv name hk => ⟨?_, ?_⟩⟩
  · obtain ⟨-, hfinal⟩ := hcourse.final_value hmakes hcourse.moves
      (fun v hv => FinalPass.mem_visits hv)
      (start_traced hmakes (Option.isSome_iff_exists.mpr ⟨x, hx⟩))
    refine ⟨hfinal ▸ Iff.rfl, fun hnone => ?_⟩
    have hstart : Assembly.lastBreak p.context p.start p.moments = p.start := by
      unfold Assembly.lastBreak
      rw [show p.moments.filterMap (Moment.break? p.context) = [] from hnone]
      rfl
    rw [hfinal, hstart, start_heldTo hmakes, hx]
  · exact settled_label hmakes hw hset hv hk
  · exact fun b hb => settled_blockLabel hmakes hw hset hv hk hb

/-- A label before a block and one in it. -/
def labelled : List Node :=
  [⟨.directive (.word [.symbol "ENTRY"]), {}⟩, ⟨.globalLabel "TABLE", {}⟩,
    ⟨.directive (.vocbeg (.number 3) (.number 2)), {}⟩, ⟨.directive (.byte [.number 7]), {}⟩,
    ⟨.globalLabel "ENTRY", {}⟩, ⟨.directive (.word [.symbol "TABLE"]), {}⟩,
    ⟨.directive .vocend, {}⟩, ⟨.directive (.funct "MAIN" []), {}⟩,
    ⟨.instruction { opcode := "RTRUE" }, {}⟩]

def labelledOptions : Options := { version := .v3, identity := { serial := "260101" } }

/-- Both labels keep the values that the measuring passes gave them. -/
theorem labelled_keeps :
    ∃ story p, (assemble labelledOptions labelled).result = .ok story ∧
      finalPass? labelledOptions labelled = some p ∧
      p.start.globals.valueOf "ENTRY" = some 0x43 ∧ p.finish.globals.valueOf "ENTRY" = some 0x43 ∧
      ∃ w ∈ p.walks, w.settled = true ∧
        (∃ v ∈ w.visits, v.node.kind = .globalLabel "TABLE" ∧ v.before.vocabulary = none ∧
          p.finish.globals.valueOf "TABLE" = some (Int32.ofNat v.before.image.cursor)) ∧
        ∃ v ∈ w.visits, v.node.kind = .globalLabel "ENTRY" ∧ ∃ c ∈ p.visits, ∃ block,
          c.node.kind = .directive .vocend ∧ c.before.vocabulary = some block ∧
            p.finish.globals.valueOf "ENTRY" = some (Int32.ofNat
              (block.place (c.before.blockOrder block) v.before.image.cursor)) := by
  obtain ⟨story, p, hresult, hp, hrun⟩ := exists_run labelledOptions labelled
    (fun p => p.breaks.isEmpty && decide (p.start.globals.valueOf "ENTRY" = some 0x43) &&
      p.walks.any fun w => w.settled &&
        (w.visits.any (fun v => decide (v.node.kind = .globalLabel "TABLE") &&
            v.before.vocabulary.isNone) &&
          w.visits.any fun v => decide (v.node.kind = .globalLabel "ENTRY") &&
            v.before.vocabulary.isSome)) (by decide +kernel)
  simp only [List.any_eq_true, Bool.and_eq_true, decide_eq_true_eq, List.isEmpty_iff,
    Option.isNone_iff_eq_none] at hrun
  obtain ⟨⟨hbreaks, hvalue⟩, w, hw, hset, ⟨v, hv, hk, hblock⟩, v', hv', hk', hblock'⟩ := hrun
  obtain ⟨p', hp', hvalues, -, hlabels⟩ := global_values_at_end hresult
  cases hp.symm.trans hp'
  obtain ⟨b, hb⟩ := Option.isSome_iff_exists.mp hblock'
  obtain ⟨earlier, between, c, later, block, hvisits, -, hc, hcblock, hplace⟩ :=
    (hlabels w hw hset v' hv' "ENTRY" hk').2 b hb
  have hmem : c ∈ p.visits := by
    rw [hvisits]
    simp
  exact ⟨story, p, hresult, hp, hvalue, (hvalues "ENTRY" 0x43 hvalue).2 hbreaks, w, hw, hset,
    ⟨v, hv, hk, hblock, (hlabels w hw hset v hv "TABLE" hk).1 hblock⟩, v', hv', hk', c, hmem,
    block, hc, hcblock, hplace⟩

/-- The first walk of `A` gives up the block that was open before it, since `y` is a local there,
    and with the block the change of `F` that waits in it. The second walk ends another block, and
    no error is left. -/
def straying : List Node :=
  [⟨.directive (.equal "y" (.number 5)), {}⟩, ⟨.globalLabel "lab", {}⟩,
    ⟨.directive (.vocbeg (.number 15) (.number 2)), {}⟩,
    ⟨.directive (.word [.add (.symbol "lab") (.symbol "y"), .symbol "F"]), {}⟩,
    ⟨.directive (.byte [.number 0]), {}⟩,
    ⟨.instruction { opcode := "PRINTN", operands := [.symbol "X"] }, {}⟩,
    ⟨.directive (.fstr "F" "a"), {}⟩, ⟨.directive (.equal "X" (.number 5)), {}⟩,
    ⟨.directive (.funct "A" [{ name := "y" }]), {}⟩, ⟨.directive .vocend, {}⟩,
    ⟨.localLabel "L", {}⟩, ⟨.instruction { opcode := "RTRUE" }, {}⟩,
    ⟨.directive (.vocbeg (.number 1) (.number 1)), {}⟩, ⟨.directive (.funct "B" []), {}⟩,
    ⟨.directive .vocend, {}⟩, ⟨.instruction { opcode := "RTRUE" }, {}⟩,
    ⟨.directive (.word [.symbol "F"]), {}⟩]

def strayingOptions : Options := { version := .v4, identity := { serial := "000000" } }

theorem straying_moves :
    ∃ story p, (assemble strayingOptions straying).result = .ok story ∧
      finalPass? strayingOptions straying = some p ∧ p.Fits ∧
      p.start.globals.valueOf "F" = some 0x25 ∧ p.finish.globals.valueOf "F" = some 0x24 := by
  obtain ⟨story, p, hresult, hp, hrun⟩ := exists_run strayingOptions straying
    (fun p => decide (p.Fits ∧ p.start.globals.valueOf "F" = some 0x25 ∧
      p.finish.globals.valueOf "F" = some 0x24)) (by decide +kernel)
  exact ⟨story, p, hresult, hp, of_decide_eq_true hrun⟩

end ZAssembler.Assembly
