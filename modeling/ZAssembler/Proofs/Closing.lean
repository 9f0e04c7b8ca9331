import ZAssembler.Proofs.Change

/-
  What closing a vocabulary block does in the assembling pass. The records are arranged, the labels
  follow them, the values that wait are written again, and the changes that were put off are noted.
  Writing a value again may fail, and then the block is given up before the changes are noted.
  `closeVocabulary_ok` and `closeVocabulary_skip` give the state that is left in the two cases.
-/

namespace ZAssembler.Assembly

/-! ## The order of a block -/

/-- The bytes of an open block. -/
def State.blockBytes (s : State) (v : OpenVocabulary) : List UInt8 :=
  s.image.read v.start (s.image.cursor - v.start)

/-- The order in which the records of a block are arranged when it is closed. -/
def State.blockOrder (s : State) (v : OpenVocabulary) : List Nat :=
  Vocabulary.sortOrder (s.blockBytes v) v.recordSize v.keySize

/-- The bytes of a block, arranged. -/
def State.arrangedBytes (s : State) (v : OpenVocabulary) : List UInt8 :=
  Vocabulary.arrange (s.blockBytes v) v.recordSize (s.blockOrder v)

/-- Where a position of a block lands when its records are arranged. -/
def OpenVocabulary.place (v : OpenVocabulary) (order : List Nat) (position : Nat) : Nat :=
  Vocabulary.relocate v.start v.recordSize order position

/-! ## What is left -/

/-- Moves labels to where `place` puts their positions. -/
def relocateAll (place : Nat → Nat) (labels : List VocabularyLabel) (globals : SymbolTable) :
    SymbolTable :=
  labels.foldl (fun table label => table.relocate label.name (Int32.ofNat (place label.position)))
    globals

/-- Puts changes off until the routine has settled. -/
def deferAll (scope : RoutineScope) (changes : List (String × Int32)) : RoutineScope :=
  changes.foldl (fun scope change => scope.defer change.1 change.2) scope

/-- The state when the records are arranged and nothing else is done. -/
structure Arranged (v : OpenVocabulary) (s t : State) : Prop where
  image : t.image = s.image.patch v.start (s.arrangedBytes v)
  vocabulary : t.vocabulary = none
  globals : t.globals = s.globals
  locals : t.locals = s.locals
  fixups : t.fixups = s.fixups
  scope : t.scope = s.scope
  diagnostics : s.diagnostics.toList <+: t.diagnostics.toList
  index : t.index = s.index

theorem warn_eq (cx : Context) (problem : Problem) (s : State) :
    ∃ log, warn cx problem s = .ok () { s.report .warning problem with log } := by
  unfold warn
  by_cases hm : cx.mode = .assembling
  · rw [if_pos hm]
    exact ⟨_, rfl⟩
  · rw [if_neg hm]
    exact ⟨_, rfl⟩

theorem warn_ok (cx : Context) (problem : Problem) (s : State) :
    ∃ t d, warn cx problem s = .ok () t ∧ t.diagnostics = s.diagnostics.push d ∧
      Aside { s with diagnostics := s.diagnostics.push d } t := by
  obtain ⟨log, h⟩ := warn_eq cx problem s
  exact ⟨_, _, h, rfl, rfl, rfl, rfl, rfl, rfl, rfl, rfl, rfl⟩

/-- What is done once the records are arranged. -/
def settleBlock (cx : Context) (v : OpenVocabulary) (order : List Nat) (finish : Nat) :
    Step Unit := do
  v.labels.forM (relocateLabel cx v order)
  let pending := ((← get).fixups.toList.drop v.fixupStart).map (·.relocate v order finish)
  modify fun s => { s with fixups := s.fixups.take v.fixupStart }
  pending.forM (settleFixup cx)
  v.deferred.forM fun (name, old) => noteChange cx name old

theorem closeVocabulary_modify (cx : Context) :
    closeVocabulary cx = (do
      let s ← get
      match s.vocabulary with
      | none => skip .vocabularyNotOpen
      | some v =>
        modify fun s => { s with vocabulary := none }
        let finish := s.image.cursor
        let length := finish - v.start
        if length % v.recordSize ≠ 0 then warn cx (.partialRecord length v.recordSize)
        let bytes := s.image.read v.start length
        let order := Vocabulary.sortOrder bytes v.recordSize v.keySize
        modify fun s =>
          { s with image := s.image.patch v.start (Vocabulary.arrange bytes v.recordSize order) }
        logEvent (.vocabularySorted order.length v.start)
        settleBlock cx v order finish) := by
  funext s
  rcases s with ⟨_, _, _, _, _, _ | v, _⟩ <;> rfl

theorem closeVocabulary_arranges (cx : Context) {s : State} {v : OpenVocabulary}
    (hv : s.vocabulary = some v) :
    ∃ t, Arranged v s t ∧
      closeVocabulary cx s = settleBlock cx v (s.blockOrder v) s.image.cursor t := by
  unfold closeVocabulary
  rw [get_bind, hv]
  dsimp only
  rw [set_bind]
  by_cases hc : (s.image.cursor - v.start) % v.recordSize ≠ 0
  · rw [if_pos hc]
    obtain ⟨t, d, hw, hd, ha⟩ := warn_ok cx
      (.partialRecord (s.image.cursor - v.start) v.recordSize) { s with vocabulary := none }
    rw [bind_of_ok hw]
    refine ⟨_, ?_, rfl⟩
    refine ⟨?_, ha.vocabulary, ha.globals, ha.locals, ha.fixups, ha.scope, ?_, ha.index⟩
    · exact congrArg (fun im : Image => im.patch v.start _) ha.image
    · show s.diagnostics.toList <+: t.diagnostics.toList
      rw [hd, Array.toList_push]
      exact List.prefix_append _ _
  · rw [if_neg hc]
    refine ⟨_, ?_, rfl⟩
    exact ⟨rfl, rfl, rfl, rfl, rfl, rfl, List.prefix_rfl, rfl⟩

/-! ## Noting changes -/

/-- A change that is judged at once is none. -/
def Unmoved (globals : SymbolTable) (name : String) (old : Int32) : Prop :=
  globals.valueOf name = none ∨ globals.valueOf name = some old

theorem judgeChange_ok {cx : Context} (hm : cx.mode = .assembling) {name : String} {old : Int32}
    {s t : State} (h : judgeChange cx name old s = .ok () t) :
    t = s ∧ Unmoved s.globals name old := by
  rw [judgeChange_eq hm] at h
  unfold Unmoved
  split at h
  · next hn =>
    cases h
    exact ⟨rfl, .inl hn⟩
  · next new hn =>
    split at h
    · next ho =>
      cases h
      exact ⟨rfl, .inr (ho ▸ hn)⟩
    · cases h

/-- Outside a block a change is put off until the routine has settled, or there is none. -/
theorem noteChange_ok {cx : Context} (hm : cx.mode = .assembling) {name : String} {old : Int32}
    {s t : State} (h : noteChange cx name old s = .ok () t) (hv : s.vocabulary = none) :
    t = { s with scope := t.scope } ∧ t.scope = s.scope.map (·.defer name old) ∧
      (s.scope = none → Unmoved s.globals name old) := by
  rw [noteChange_eq] at h
  split at h
  · next v hs => rw [hv] at hs; cases hs
  · next scope _ hs =>
    cases h
    refine ⟨rfl, ?_, fun hn => ?_⟩
    · rw [hs]
      rfl
    · rw [hn] at hs
      cases hs
  · next _ hs =>
    obtain ⟨rfl, hu⟩ := judgeChange_ok hm h
    refine ⟨rfl, ?_, fun _ => hu⟩
    rw [hs]
    rfl

theorem noteChanges_ok {cx : Context} (hm : cx.mode = .assembling)
    (changes : List (String × Int32)) {s t : State} (hv : s.vocabulary = none)
    (h : (changes.forM fun (name, old) => noteChange cx name old) s = .ok () t) :
    t = { s with scope := t.scope } ∧ t.scope = s.scope.map (deferAll · changes) ∧
      (s.scope = none → ∀ change ∈ changes, Unmoved s.globals change.1 change.2) := by
  induction changes generalizing s with
  | nil =>
    cases h
    refine ⟨rfl, ?_, fun _ change hc => nomatch hc⟩
    exact (Option.map_id' ..).symm
  | cons change rest ih =>
    obtain ⟨u, hfirst, hrest⟩ := forM_cons_ok h
    obtain ⟨hu, hscope, hunmoved⟩ := noteChange_ok hm hfirst hv
    have hvu : u.vocabulary = none := by rw [hu]; exact hv
    have hgu : u.globals = s.globals := by rw [hu]
    obtain ⟨ht, htscope, hrest⟩ := ih hvu hrest
    refine ⟨?_, ?_, fun hs c hc => ?_⟩
    · rw [ht, hu]
    · rw [htscope, hscope, Option.map_map]
      rfl
    · rcases List.mem_cons.mp hc with rfl | hc
      · exact hunmoved hs
      · rw [← hgu]
        exact hrest (by rw [hscope, hs]; rfl) c hc

theorem noteChanges_not_skip {cx : Context} (hm : cx.mode = .assembling)
    (changes : List (String × Int32)) {s t : State} {p : Problem} :
    (changes.forM fun (name, old) => noteChange cx name old) s ≠ .error (.skip p) t := by
  induction changes generalizing s with
  | nil => exact fun h => nomatch h
  | cons change rest ih =>
    intro h
    rcases forM_cons_error h with h | ⟨u, -, h⟩
    · exact noteChange_not_skip hm h
    · exact ih h

/-! ## Labels -/

/-- Labels that are judged as they are moved, one after the other, have the values they had. -/
def Judged (place : Nat → Nat) : List VocabularyLabel → SymbolTable → Prop
  | [], _ => True
  | label :: rest, globals =>
    (∀ old, label.previous = some old →
      Unmoved (relocateAll place [label] globals) label.name old) ∧
    Judged place rest (relocateAll place [label] globals)

/-- The change of a label, if it had a value before. -/
def VocabularyLabel.change (label : VocabularyLabel) : List (String × Int32) :=
  (label.previous.map (label.name, ·)).toList

theorem relocateLabel_ok {cx : Context} (hm : cx.mode = .assembling) {v : OpenVocabulary}
    {order : List Nat} {label : VocabularyLabel} {s t : State} (hv : s.vocabulary = none)
    (h : relocateLabel cx v order label s = .ok () t) :
    t = { s with globals := relocateAll (v.place order) [label] s.globals, scope := t.scope } ∧
      t.scope = s.scope.map (deferAll · label.change) ∧
      (s.scope = none → ∀ old, label.previous = some old →
        Unmoved (relocateAll (v.place order) [label] s.globals) label.name old) := by
  unfold relocateLabel at h
  rw [modify_bind] at h
  unfold VocabularyLabel.change
  cases hp : label.previous with
  | none =>
    rw [hp] at h
    cases h
    refine ⟨rfl, (Option.map_id' ..).symm, fun _ old ho => nomatch ho⟩
  | some old =>
    rw [hp] at h
    have hnote : noteChange cx label.name old
        { s with globals := relocateAll (v.place order) [label] s.globals } = .ok () t := h
    obtain ⟨ht, hscope, hunmoved⟩ := noteChange_ok hm hnote hv
    refine ⟨ht, hscope, fun hs old ho => ?_⟩
    cases ho
    exact hunmoved hs

theorem relocateLabels_ok {cx : Context} (hm : cx.mode = .assembling) {v : OpenVocabulary}
    {order : List Nat} (labels : List VocabularyLabel) {s t : State} (hv : s.vocabulary = none)
    (h : labels.forM (relocateLabel cx v order) s = .ok () t) :
    t = { s with globals := relocateAll (v.place order) labels s.globals, scope := t.scope } ∧
      t.scope = s.scope.map (deferAll · (labels.flatMap VocabularyLabel.change)) ∧
      (s.scope = none → Judged (v.place order) labels s.globals) := by
  induction labels generalizing s with
  | nil =>
    cases h
    exact ⟨rfl, (Option.map_id' ..).symm, fun _ => trivial⟩
  | cons label rest ih =>
    obtain ⟨u, hfirst, hrest⟩ := forM_cons_ok h
    obtain ⟨hu, hscope, hunmoved⟩ := relocateLabel_ok hm hv hfirst
    have hvu : u.vocabulary = none := by rw [hu]; exact hv
    have hgu : u.globals = relocateAll (v.place order) [label] s.globals := by rw [hu]
    obtain ⟨ht, htscope, hjudged⟩ := ih hvu hrest
    refine ⟨?_, ?_, fun hs => ?_⟩
    · rw [ht, hgu, hu]
      rfl
    · rw [htscope, hscope, Option.map_map, List.flatMap_cons]
      unfold deferAll
      simp only [List.foldl_append]
      rfl
    · rw [hgu] at hjudged
      exact ⟨hunmoved hs, hjudged (by rw [hscope, hs]; rfl)⟩

theorem relocateLabels_not_skip {cx : Context} (hm : cx.mode = .assembling) {v : OpenVocabulary}
    {order : List Nat} (labels : List VocabularyLabel) {s t : State} {p : Problem} :
    labels.forM (relocateLabel cx v order) s ≠ .error (.skip p) t := by
  induction labels generalizing s with
  | nil => exact fun h => nomatch h
  | cons label rest ih =>
    intro h
    rcases forM_cons_error h with h | ⟨u, -, h⟩
    · unfold relocateLabel at h
      rw [modify_bind] at h
      cases hp : label.previous with
      | none => rw [hp] at h; cases h
      | some old => rw [hp] at h; exact noteChange_not_skip hm h
    · exact ih h

/-! ## Values that wait -/

/-- Writing the value of one of the fixups. -/
def Rewrites (fixups : List Fixup) : Image → Image → Prop :=
  Relation.ReflTransGen fun im im' => ∃ f ∈ fixups, ∃ addr width value,
    f.target = .image addr width ∧ im' = im.patch addr (Width.bytes width value)

theorem settleFixup_cases {cx : Context} (hm : cx.mode = .assembling) (f : Fixup) (s : State) :
    (∃ im, settleFixup cx f s = .ok () { s with image := im } ∧ Rewrites [f] s.image im) ∨
    ∃ i, settleFixup cx f s = .error i s := by
  unfold settleFixup
  cases he : evaluate cx f.expr s with
  | error i t =>
    obtain rfl := evaluate_error hm he
    refine .inr ⟨i, bind_of_error ?_⟩
    exact bind_of_error he
  | ok r t =>
    obtain ⟨rfl, kind, value, rfl, -, -⟩ := evaluate_ok hm he
    refine .inl ?_
    have hknown : applyFixup cx f t = _ := bind_of_ok he
    dsimp only at hknown
    cases ht : f.target with
    | dependency =>
      rw [ht] at hknown
      exact ⟨t.image, bind_of_ok hknown, .refl⟩
    | image addr width =>
      rw [ht] at hknown
      refine ⟨_, bind_of_ok hknown, .single ⟨f, List.mem_singleton_self f, addr, width, _, ht, rfl⟩⟩

theorem Rewrites.mono {fixups more : List Fixup} (h : ∀ f ∈ fixups, f ∈ more) {im im' : Image}
    (hr : Rewrites fixups im im') : Rewrites more im im' := by
  refine Relation.ReflTransGen.mono ?_ im im' hr
  rintro im im' ⟨f, hf, hw⟩
  exact ⟨f, h f hf, hw⟩

/-- The states differ in the image alone, and there in values of the fixups. -/
def Rewritten (fixups : List Fixup) (s t : State) : Prop :=
  t = { s with image := t.image } ∧ Rewrites fixups s.image t.image

instance (fixups : List Fixup) : Std.Refl (Rewritten fixups) where
  refl _ := ⟨rfl, .refl⟩

instance (fixups : List Fixup) : IsTrans State (Rewritten fixups) where
  trans s t u hst htu := by
    refine ⟨?_, hst.2.trans htu.2⟩
    rw [htu.1, hst.1]

/-- Writing values again changes the image alone, also if it is given up. -/
theorem does_settleFixups {cx : Context} (hm : cx.mode = .assembling) (fixups : List Fixup)
    (s : State) : Does (Rewritten fixups) (fixups.forM (settleFixup cx)) s := by
  refine does_forM fixups _ (fun f hf s => ?_) s
  obtain ⟨im, h, hr⟩ | ⟨i, h⟩ := settleFixup_cases hm f s
  · exact does_of_ok h ⟨rfl, hr.mono fun g hg => by rwa [List.mem_singleton.mp hg]⟩
  · exact does_of_error h (refl_of (Rewritten fixups) s)

/-! ## The closed block -/

/-- The fixups of a block, moved with their records. -/
def OpenVocabulary.pending (v : OpenVocabulary) (s : State) : List Fixup :=
  (s.fixups.toList.drop v.fixupStart).map (·.relocate v (s.blockOrder v) s.image.cursor)

/-- What closing a block leaves; `complete` says that it was not given up. -/
structure Closed (v : OpenVocabulary) (complete : Bool) (s t : State) : Prop where
  image : Rewrites (v.pending s) (s.image.patch v.start (s.arrangedBytes v)) t.image
  globals : t.globals = relocateAll (v.place (s.blockOrder v)) v.labels s.globals
  locals : t.locals = s.locals
  fixups : t.fixups = s.fixups.take v.fixupStart
  vocabulary : t.vocabulary = none
  scope : t.scope = s.scope.map (deferAll ·
    (v.labels.flatMap VocabularyLabel.change ++ if complete then v.deferred else []))
  diagnostics : s.diagnostics.toList <+: t.diagnostics.toList
  index : t.index = s.index
  /-- Outside a routine the changes are judged at once. -/
  judged : s.scope = none → Judged (v.place (s.blockOrder v)) v.labels s.globals ∧
    (complete = true → ∀ change ∈ v.deferred, Unmoved t.globals change.1 change.2)

theorem deferAll_append (scope : RoutineScope) (xs ys : List (String × Int32)) :
    deferAll scope (xs ++ ys) = deferAll (deferAll scope xs) ys :=
  List.foldl_append

/-- Once the labels and the values are where they belong, only the changes that were put off are
    left to note. -/
theorem closed_of_rewritten {cx : Context} (hm : cx.mode = .assembling) {v : OpenVocabulary}
    {s u u' t : State} (ha : Arranged v s u)
    (hlabels : v.labels.forM (relocateLabel cx v (s.blockOrder v)) u = .ok () u')
    (hr : Rewritten (v.pending s) { u' with fixups := s.fixups.take v.fixupStart } t) :
    Closed v false s t := by
  obtain ⟨hu', hscope, hjudged⟩ := relocateLabels_ok hm v.labels ha.vocabulary hlabels
  obtain ⟨ht, himage⟩ := hr
  have hglobals : u'.globals = relocateAll (v.place (s.blockOrder v)) v.labels s.globals := by
    rw [hu', ← ha.globals]
  refine ⟨?_, ?_, ?_, ?_, ?_, ?_, ?_, ?_, ?_⟩
  · rw [← ha.image]
    have : u'.image = u.image := by rw [hu']
    rw [← this]
    exact himage
  · rw [ht, ← hglobals]
  · rw [ht, ← ha.locals]
    show u'.locals = u.locals
    rw [hu']
  · rw [ht]
  · rw [ht, ← ha.vocabulary]
    show u'.vocabulary = u.vocabulary
    rw [hu']
  · rw [ht, ← ha.scope]
    show u'.scope = _
    rw [hscope]
    simp only [Bool.false_eq_true, if_false, List.append_nil]
  · rw [ht]
    show s.diagnostics.toList <+: u'.diagnostics.toList
    rw [hu']
    exact ha.diagnostics
  · rw [ht, ← ha.index]
    show u'.index = u.index
    rw [hu']
  · intro hs
    rw [← ha.scope] at hs
    rw [← ha.globals]
    exact ⟨hjudged hs, fun h => nomatch h⟩

theorem closed_of_noted {cx : Context} (hm : cx.mode = .assembling) {v : OpenVocabulary}
    {s u t : State} (hc : Closed v false s u)
    (h : (v.deferred.forM fun (name, old) => noteChange cx name old) u = .ok () t) :
    Closed v true s t := by
  obtain ⟨ht, hscope, hunmoved⟩ := noteChanges_ok hm v.deferred hc.vocabulary h
  have hglobals : t.globals = u.globals := by rw [ht]
  refine ⟨?_, ?_, ?_, ?_, ?_, ?_, ?_, ?_, ?_⟩
  · rw [ht]; exact hc.image
  · rw [ht]; exact hc.globals
  · rw [ht]; exact hc.locals
  · rw [ht]; exact hc.fixups
  · rw [ht]; exact hc.vocabulary
  · rw [hscope, hc.scope, Option.map_map]
    congr 1
    funext scope
    simp only [Function.comp_apply, Bool.false_eq_true, if_false, List.append_nil, if_true,
      deferAll_append]
  · rw [ht]; exact hc.diagnostics
  · rw [ht]; exact hc.index
  · intro hs
    refine ⟨(hc.judged hs).1, fun _ => ?_⟩
    rw [hglobals]
    exact hunmoved (by rw [hc.scope, hs]; rfl)

/-- Closing a block: without one the node is given up, and the state stays as it is. -/
theorem closeVocabulary_ok {cx : Context} (hm : cx.mode = .assembling) {s t : State}
    (h : closeVocabulary cx s = .ok () t) :
    ∃ v, s.vocabulary = some v ∧ Closed v true s t := by
  cases hv : s.vocabulary with
  | none =>
    unfold closeVocabulary at h
    rw [get_bind, hv] at h
    cases h
  | some v =>
    obtain ⟨u, ha, hu⟩ := closeVocabulary_arranges cx hv
    rw [hu] at h
    obtain ⟨⟨⟩, u1, hlabels, h⟩ := bind_ok h
    rw [get_bind, modify_bind] at h
    obtain ⟨⟨⟩, u2, hfixups, hdeferred⟩ := bind_ok h
    have hpending : u1.fixups = s.fixups := by
      rw [(relocateLabels_ok hm v.labels ha.vocabulary hlabels).1, ← ha.fixups]
    rw [hpending] at hfixups
    have hr := (does_settleFixups hm _ _).of_ok hfixups
    exact ⟨v, rfl, closed_of_noted hm (closed_of_rewritten hm ha hlabels hr) hdeferred⟩

theorem closeVocabulary_skip {cx : Context} (hm : cx.mode = .assembling) {s t : State} {p : Problem}
    (h : closeVocabulary cx s = .error (.skip p) t) :
    (s.vocabulary = none ∧ t = s) ∨ ∃ v, s.vocabulary = some v ∧ Closed v false s t := by
  cases hv : s.vocabulary with
  | none =>
    unfold closeVocabulary at h
    rw [get_bind, hv] at h
    cases h
    exact .inl ⟨rfl, rfl⟩
  | some v =>
    obtain ⟨u, ha, hu⟩ := closeVocabulary_arranges cx hv
    rw [hu] at h
    refine .inr ⟨v, rfl, ?_⟩
    unfold settleBlock at h
    cases hlabels : v.labels.forM (relocateLabel cx v (s.blockOrder v)) u with
    | error i u1 =>
      rw [bind_of_error hlabels] at h
      cases h
      exact absurd hlabels (relocateLabels_not_skip hm v.labels)
    | ok a u1 =>
      rw [bind_of_ok hlabels, get_bind, modify_bind] at h
      have hpending : u1.fixups = s.fixups := by
        rw [(relocateLabels_ok hm v.labels ha.vocabulary hlabels).1, ← ha.fixups]
      rw [hpending] at h
      cases hfixups : (v.pending s).forM (settleFixup cx)
          { u1 with fixups := s.fixups.take v.fixupStart } with
      | error i u2 =>
        have hi := (bind_of_error hfixups).symm.trans h
        cases hi
        have hr := (does_settleFixups hm _ _).of_skip hfixups
        exact closed_of_rewritten hm ha hlabels hr
      | ok a u2 =>
        have hd := (bind_of_ok hfixups).symm.trans h
        exact absurd hd (noteChanges_not_skip hm v.deferred)

end ZAssembler.Assembly
