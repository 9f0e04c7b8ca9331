import ZAssembler.Proofs.GlobalValues

/-
  Symbols that are no labels. A node of a settled walk that gives a name a value gives it for good:
  no later node of the pass may define the name, and no block moves it, since the labels of an open
  block belong to label nodes (`LabelsOwned`). Main statement: `settled_value`.
-/

namespace ZAssembler.Assembly

/-! ## Data that names nothing -/

/-- Data may be written; no symbol is defined, and the open block stays. -/
structure Plain (s t : State) : Prop where
  globals : t.globals = s.globals
  vocabulary : t.vocabulary = s.vocabulary
  index : t.index = s.index

instance : Std.Refl Plain where
  refl _ := ⟨rfl, rfl, rfl⟩

instance : IsTrans State Plain where
  trans _ _ _ hst htu := ⟨htu.globals.trans hst.globals, htu.vocabulary.trans hst.vocabulary,
    htu.index.trans hst.index⟩

section Plain

variable {cx : Context} (hm : cx.mode = .assembling)

theorem plain_store (bytes : List UInt8) (s : State) : Does Plain (store bytes) s :=
  does_of_ok rfl ⟨rfl, rfl, rfl⟩

theorem plain_report (severity : Severity) (problem : Problem) (s : State) :
    Does Plain (modify (·.report severity problem) : Step Unit) s :=
  does_of_ok rfl ⟨rfl, rfl, rfl⟩

theorem plain_warn (problem : Problem) (s : State) : Does Plain (warn cx problem) s := by
  have hlog : ∀ event, Does Plain (logEvent event) s := fun event => does_of_ok rfl ⟨rfl, rfl, rfl⟩
  unfold warn
  split
  · exact does_get ((hlog _).bind fun _ t _ => plain_report _ _ t)
  · exact plain_report _ _ s

include hm

theorem plain_writeValue (width : Width) (e : Expr) (s : State) :
    Does Plain (writeValue cx width e) s := by
  have heval := (work_evaluate (.refl cx) e s).unchanged hm
  refine Does.bind (m := position) (does_of_ok rfl (refl_of Plain s)) fun addr t hp => ?_
  cases hp
  refine Does.bind (heval.imp fun _ h => h ▸ refl_of Plain s).does fun r t h => ?_
  obtain ⟨rfl, kind, value, rfl, -⟩ := evaluate_ok hm h
  refine does_get ?_
  dsimp only
  split
  · split
    · exact Does.bind (does_of_ok rfl ⟨rfl, rfl, rfl⟩) fun _ u _ => plain_store _ u
    · exact plain_store _ t
  · exact plain_store _ t

theorem plain_values (width : Width) (es : List Expr) (s : State) :
    Does Plain (values cx width es) s :=
  does_forM es _ (fun e _ t => plain_writeValue hm width e t) s

theorem plain_writeDefault (e : Option Expr) (s : State) : Does Plain (writeDefault cx e) s := by
  cases e with
  | none => exact plain_store _ s
  | some e => exact plain_writeValue hm .word e s

end Plain

/-- The work of node `n` from `s` to `t` gives a name a value, and what it does after that names
    nothing. -/
def Gives (cx : Context) (n : Node) (name : String) (value : Int32) (s t : State) : Prop :=
  ∃ kind u u', kind ≠ .unknown ∧ Changes cx n s u ∧
    defineGlobal cx name kind value u = .ok () u' ∧ Plain u' t

/-! ## Labels of open blocks -/

/-- The labels of an open block were defined by nodes of this pass that are labels. -/
def LabelsOwned (cx : Context) (labelAt : Nat → Prop) (s : State) : Prop :=
  ∀ v, s.vocabulary = some v → ∀ label ∈ v.labels,
    ∃ j symbol, Owned cx label.name j symbol s ∧ labelAt j

section LabelsOwned

variable {cx : Context} {labelAt : Nat → Prop} {n : Node} {s t : State}

theorem labelsOwned_of_none (h : t.vocabulary = none) : LabelsOwned cx labelAt t :=
  fun _ hv => nomatch h.symm.trans hv

theorem labelsOwned_of_eq (hs : LabelsOwned cx labelAt s)
    (hvocabulary : t.vocabulary = s.vocabulary) (hglobals : t.globals = s.globals) :
    LabelsOwned cx labelAt t := by
  intro v hv label hlabel
  obtain ⟨j, symbol, howned, hj⟩ := hs v (hvocabulary ▸ hv) label hlabel
  exact ⟨j, symbol, ⟨hglobals ▸ howned.lookup, howned.defined, howned.site⟩, hj⟩

/-- A symbol stays with the node that defined it. -/
theorem owned_put {symbol entered : Symbol} {name other : String} {kind : SymbolKind}
    {value : Int32} {j : Nat} (hs : Owned cx name j symbol s)
    (hentered : Entered entered other kind value (s.site cx)) (hkind : kind ≠ .unknown)
    (hfree : ¬ Taken s.globals other (s.site cx)) (hglobals : t.globals = s.globals.put entered) :
    ∃ symbol', Owned cx name j symbol' t := by
  by_cases hname : other = name
  · -- no other node may define it
    have hindex : s.index = j := by
      by_contra hne
      exact hfree (hname ▸ hs.taken hne)
    refine ⟨entered, ?_, ?_, ?_⟩
    · rw [hglobals, SymbolTable.lookup_put, if_pos (hentered.name.trans hname)]
    · simpa [Symbol.isDefined, hentered.kind] using hkind
    · rw [hentered.site, State.site, hindex]
  · refine ⟨symbol, ?_, hs.defined, hs.site⟩
    rw [hglobals, SymbolTable.lookup_put, hentered.name, if_neg hname]
    exact hs.lookup

theorem labelsOwned_put {entered : Symbol} {other : String} {kind : SymbolKind} {value : Int32}
    (hs : LabelsOwned cx labelAt s) (hentered : Entered entered other kind value (s.site cx))
    (hkind : kind ≠ .unknown) (hfree : ¬ Taken s.globals other (s.site cx))
    (hglobals : t.globals = s.globals.put entered)
    (hlabels : ∀ v, t.vocabulary = some v → ∃ v', s.vocabulary = some v' ∧ v.labels = v'.labels) :
    LabelsOwned cx labelAt t := by
  intro v hv label hlabel
  obtain ⟨v', hv', heq⟩ := hlabels v hv
  obtain ⟨j, symbol, howned, hj⟩ := hs v' hv' label (heq ▸ hlabel)
  obtain ⟨symbol', howned'⟩ := owned_put howned hentered hkind hfree hglobals
  exact ⟨j, symbol', howned', hj⟩

theorem Noted.labels {name : String} {value : Int32} (h : Noted name value s t) (v : OpenVocabulary)
    (hv : t.vocabulary = some v) : ∃ v', s.vocabulary = some v' ∧ v.labels = v'.labels := by
  cases h with
  | same _ => exact ⟨v, hv, rfl⟩
  | inBlock v' old _ _ hv' =>
    cases hv
    refine ⟨v', hv', ?_⟩
    unfold OpenVocabulary.defer
    split <;> rfl
  | inRoutine _ _ _ _ _ _ => exact ⟨v, hv, rfl⟩

variable (hm : cx.mode = .assembling)

include hm

theorem Change.labelsOwned (h : Change cx n s t) (hclose : n.kind ≠ .directive .vocend)
    (hlabel : (∃ label, n.kind = .globalLabel label) → labelAt s.index)
    (hs : LabelsOwned cx labelAt s) : LabelsOwned cx labelAt t := by
  cases h with
  | aside h => exact labelsOwned_of_eq hs h.vocabulary h.globals
  | define name kind value hkind _ h =>
    obtain ⟨hfree, symbol, u, hsymbol, hu, rfl⟩ := defineGlobal_ok hm hkind h
    exact labelsOwned_put hs hsymbol hkind hfree rfl hu.labels
  | label v name hnode hv hnew =>
    obtain ⟨symbol, hsymbol, hglobals⟩ := blockLabel_globals cx name hnew
    obtain ⟨entered, howned⟩ := blockLabel_owned cx name hnew
    intro v' hv' label hmem
    cases (blockLabel_labels cx name hv).symm.trans hv'
    rcases List.mem_append.mp hmem with hmem | hmem
    · obtain ⟨j, old, hold, hj⟩ := hs v hv label hmem
      obtain ⟨symbol', hold'⟩ := owned_put hold hsymbol (by decide) hnew hglobals
      exact ⟨j, symbol', hold', hj⟩
    · obtain rfl := List.mem_singleton.mp hmem
      exact ⟨s.index, entered, howned, hlabel ⟨name, hnode⟩⟩
  | openBlock recordSize keySize hnode hv =>
    intro v' hv' label hmem
    cases hv'
    cases hmem
  | closeBlock hnode _ => exact absurd hnode hclose
  | localLabel name _ h =>
    obtain ⟨scope, symbol, -, -, -, ⟨-, ht⟩ | ⟨ht, -⟩⟩ := localLabel_ok h <;>
      exact labelsOwned_of_eq hs (by rw [ht]) (by rw [ht])
  | report | store | fixup | locals => exact labelsOwned_of_eq hs rfl rfl

theorem Changes.labelsOwned (h : Changes cx n s t) (hclose : n.kind ≠ .directive .vocend)
    (hlabel : (∃ label, n.kind = .globalLabel label) → labelAt s.index)
    (hs : LabelsOwned cx labelAt s) : LabelsOwned cx labelAt t := by
  induction h with
  | refl => exact hs
  | tail hchain hstep ih =>
    have hindex := Changes.index hm hchain
    exact hstep.labelsOwned hm hclose (fun h => hindex ▸ hlabel h) ih

theorem visit_labelsOwned {index : Nat} (h : visit cx index n s = .ok () t)
    (hlabel : (∃ label, n.kind = .globalLabel label) → labelAt index)
    (hs : LabelsOwned cx labelAt s) : LabelsOwned cx labelAt t := by
  have hreach : LabelsOwned cx labelAt (s.reach index n) := labelsOwned_of_eq hs rfl rfl
  by_cases hclose : n.kind = .directive .vocend
  · rcases visit_close hm hclose h with ⟨v, hv, -, hc⟩ | ⟨p, u, -, rfl, ⟨-, rfl⟩ | ⟨v, hv, hc⟩⟩
    · exact labelsOwned_of_none hc.vocabulary
    · exact labelsOwned_of_eq hs rfl rfl
    · exact labelsOwned_of_none hc.vocabulary
  · exact (visit_changes hm h).labelsOwned hm hclose hlabel hreach

theorem Moves.labelsOwned {l : List Moment} (h : Moves cx s l t)
    (hlabel : ∀ v, .visit v ∈ l → (∃ label, v.node.kind = .globalLabel label) → labelAt v.index)
    (hs : LabelsOwned cx labelAt s) : LabelsOwned cx labelAt t :=
  h.keeps hm (fun hmem hv hs => visit_labelsOwned hm hv (hlabel _ hmem) hs)
    (fun _ _ _ hs => labelsOwned_of_eq hs rfl rfl) (fun _ _ hs => labelsOwned_of_eq hs rfl rfl)
    (fun _ hleft hs => labelsOwned_of_eq hs hleft.vocabulary hleft.globals) hs

end LabelsOwned

/-! ## Values that stay -/

section Settled

variable {p : FinalPass} {o : Options} {nodes : List Node} {story : AssembledStory}
  (h : p.Makes o nodes story)

include h

theorem start_labelsOwned : LabelsOwned p.context p.LabelAt p.start := by
  obtain ⟨s, hs⟩ := h.begins
  refine labelsOwned_of_none ?_
  rw [hs]
  rfl

/-- A name that a settled walk gives a value, and that is no label, ends with that value. -/
theorem settled_value {w : Walk} (hw : w ∈ p.walks) (hset : w.settled = true) {v : Visit}
    (hv : v ∈ w.visits) (hlabel : ∀ label, v.node.kind ≠ .globalLabel label)
    (hclose : v.node.kind ≠ .directive .vocend) {name : String} {value : Int32}
    (hgives : Gives p.context v.node name value v.before v.after) :
    p.finish.globals.valueOf name = some value := by
  obtain ⟨kind, u, u', hkind, hchanges, hdefine, hplain⟩ := hgives
  obtain ⟨hfree, symbol, noted, hsymbol, hnoted, rfl⟩ := defineGlobal_ok h.mode hkind hdefine
  obtain ⟨t, hcourse⟩ := h.course
  obtain ⟨place, earlier, later, s, hcut⟩ := hcourse.cut hw hset hv
  obtain ⟨front, rest, -, hmoves, hindex⟩ := hcut.onward
  have hbefore : v.before.index = v.index := by
    rw [hcut.before]
    rfl
  have hu : u.index = v.index := (Changes.index h.mode hchanges).trans hbefore
  have hvisit : v ∈ p.visits := hcut.moments (.inr (.inl rfl))
  have hreached : LabelsOwned p.context p.LabelAt s := by
    refine hcut.moves.labelsOwned h.mode (fun x hx => ?_) (start_labelsOwned h)
    exact (FinalPass.labelAt_iff (hcut.moments (.inl hx))).mpr
  have hblock : LabelsOwned p.context p.LabelAt u := by
    refine hchanges.labelsOwned h.mode hclose (fun ⟨label, hk⟩ => absurd hk (hlabel label)) ?_
    rw [hcut.before]
    exact labelsOwned_of_eq hreached rfl rfl
  -- a label of that name would be of another node, and the name would be taken
  have hunlabelled : ∀ b, u.vocabulary = some b → ∀ label ∈ b.labels, label.name ≠ name := by
    intro b hb label hmem hname
    obtain ⟨j, old, howned, hj⟩ := hblock b hb label hmem
    have hne : u.index ≠ j := by
      rintro rfl
      rw [hu] at hj
      obtain ⟨other, hk⟩ := (FinalPass.labelAt_iff hvisit).mp hj
      exact hlabel other hk
    exact hfree (hname ▸ howned.taken hne)
  have hpinned : Pinned p.context name v.index symbol v.after := by
    refine ⟨⟨?_, ?_, ?_⟩, fun b hb => ?_⟩
    · rw [hplain.globals]
      show (u.globals.put symbol).lookup name = some symbol
      rw [SymbolTable.lookup_put, if_pos hsymbol.name]
    · simpa [Symbol.isDefined, hsymbol.kind] using hkind
    · rw [hsymbol.site, State.site, hu]
    · obtain ⟨b', hb', heq⟩ := hnoted.labels b (hplain.vocabulary ▸ hb)
      rw [heq]
      exact hunlabelled b' hb'
  have hend := hmoves.pinned h.mode (fun x hx => Nat.ne_of_gt (hindex x hx)) hpinned
  rw [hcourse.ended.globals, hend.valueOf, hsymbol.value]

end Settled

end ZAssembler.Assembly
