import ZAssembler.Proofs.Definitions
import ZAssembler.Proofs.KnownLabels

/-
  Equates. A settled walk gives an equated name the value that its expression has when the node is
  reached, and no later node of the pass may define the name again, so it ends with that value. The
  names of the expression end with the values that they are held to at that time, or after the last
  break that follows (`traced_on_the_way`). A name that is held to another value than it has there
  parts the equate from its expression: a label of the same routine that is yet to be reached, or a
  label of an open block.
-/

namespace ZAssembler.Assembly

/-! ## Names that are no labels -/

/-- No label of an open block has this name, and a change of it that waits in the block is of a node
    that is no label. -/
structure Unlisted (cx : Context) (labelAt : Nat → Prop) (name : String) (s : State) : Prop where
  labels : ∀ v, s.vocabulary = some v → ∀ label ∈ v.labels, label.name ≠ name
  deferred : ∀ v, s.vocabulary = some v → (v.deferred.lookup name).isSome = true →
    ∃ j symbol, Owned cx name j symbol s ∧ ¬ labelAt j

section Unlisted

variable {cx : Context} {labelAt : Nat → Prop} {name : String} {n : Node} {s t : State}

theorem unlisted_of_none (h : t.vocabulary = none) : Unlisted cx labelAt name t :=
  ⟨fun _ hv => (nomatch h.symm.trans hv), fun _ hv => nomatch h.symm.trans hv⟩

theorem unlisted_of_eq (hs : Unlisted cx labelAt name s) (hvocabulary : t.vocabulary = s.vocabulary)
    (hglobals : t.globals = s.globals) : Unlisted cx labelAt name t := by
  refine ⟨fun v hv => hs.labels v (hvocabulary ▸ hv), fun v hv hwaits => ?_⟩
  obtain ⟨j, symbol, howned, hj⟩ := hs.deferred v (hvocabulary ▸ hv) hwaits
  exact ⟨j, symbol, ⟨hglobals ▸ howned.lookup, howned.defined, howned.site⟩, hj⟩

theorem Unlisted.traced (hs : Unlisted cx labelAt name s)
    (hknown : (s.globals.valueOf name).isSome = true) : Traced cx labelAt name s :=
  ⟨hknown, fun v hv label hlabel hname => absurd hname (hs.labels v hv label hlabel), hs.deferred⟩

variable (hm : cx.mode = .assembling)

include hm

theorem Change.unlisted (h : Change cx n s t) (hclose : n.kind ≠ .directive .vocend)
    (hname : n.kind ≠ .globalLabel name)
    (hlabel : labelAt s.index → ∃ label, n.kind = .globalLabel label)
    (hs : Unlisted cx labelAt name s) : Unlisted cx labelAt name t := by
  cases h with
  | aside h => exact unlisted_of_eq hs h.vocabulary h.globals
  | define other kind value hkind hblock h =>
    obtain ⟨hfree, symbol, u, hsymbol, hu, rfl⟩ := defineGlobal_ok hm hkind h
    refine ⟨fun v hv label hmem => ?_, fun v hv hwaits => ?_⟩
    · obtain ⟨v', hv', heq⟩ := hu.labels v hv
      exact hs.labels v' hv' label (heq ▸ hmem)
    · by_cases heq : other = name
      · -- the name is this node's now, and in an open block the node is no label
        obtain ⟨v', hv', -⟩ := hu.labels v hv
        refine ⟨s.index, symbol, ⟨?_, ?_, hsymbol.site⟩, fun hat => ?_⟩
        · rw [SymbolTable.lookup_put, if_pos (hsymbol.name.trans heq)]
        · simpa [Symbol.isDefined, hsymbol.kind] using hkind
        · obtain ⟨label, hk⟩ := hlabel hat
          cases (hblock label hk).symm.trans hv'
      · obtain ⟨v', hv', -, hdeferred⟩ := (hu.frame heq).2.2 v hv
        obtain ⟨j, old, howned, hj⟩ := hs.deferred v' hv' (hdeferred ▸ hwaits)
        obtain ⟨symbol', howned'⟩ :=
          owned_put (t := { u with globals := s.globals.put symbol }) howned hsymbol hkind hfree rfl
        exact ⟨j, symbol', howned', hj⟩
  | label v other hnode hv hnew =>
    obtain ⟨symbol, hsymbol, hglobals⟩ := blockLabel_globals cx other hnew
    have hblock := blockLabel_labels cx other hv
    refine ⟨fun v' hv' label hmem => ?_, fun v' hv' hwaits => ?_⟩
    · cases hblock.symm.trans hv'
      rcases List.mem_append.mp hmem with hmem | hmem
      · exact hs.labels v hv label hmem
      · rw [List.mem_singleton.mp hmem]
        rintro rfl
        exact hname hnode
    · cases hblock.symm.trans hv'
      obtain ⟨j, old, howned, hj⟩ := hs.deferred v hv hwaits
      obtain ⟨symbol', howned'⟩ := owned_put howned hsymbol (by decide) hnew hglobals
      exact ⟨j, symbol', howned', hj⟩
  | openBlock recordSize keySize _ _ =>
    refine ⟨fun v hv label hmem => ?_, fun v hv hwaits => ?_⟩
    · cases hv
      cases hmem
    · cases hv
      cases hwaits
  | closeBlock hnode _ => exact absurd hnode hclose
  | localLabel label _ h =>
    obtain ⟨scope, symbol, -, -, -, ⟨-, ht⟩ | ⟨ht, -⟩⟩ := localLabel_ok h <;>
      exact unlisted_of_eq hs (by rw [ht]) (by rw [ht])
  | report | store | fixup | locals => exact unlisted_of_eq hs rfl rfl

theorem Changes.unlisted (h : Changes cx n s t) (hclose : n.kind ≠ .directive .vocend)
    (hname : n.kind ≠ .globalLabel name)
    (hlabel : labelAt s.index → ∃ label, n.kind = .globalLabel label)
    (hs : Unlisted cx labelAt name s) : Unlisted cx labelAt name t := by
  induction h with
  | refl => exact hs
  | tail hchain hstep ih =>
    have hindex := Changes.index hm hchain
    exact hstep.unlisted hm hclose hname (fun hat => hlabel (hindex ▸ hat)) ih

theorem visit_unlisted {index : Nat} (h : visit cx index n s = .ok () t)
    (hname : n.kind ≠ .globalLabel name)
    (hlabel : labelAt index → ∃ label, n.kind = .globalLabel label)
    (hs : Unlisted cx labelAt name s) : Unlisted cx labelAt name t := by
  have hreach : Unlisted cx labelAt name (s.reach index n) := unlisted_of_eq hs rfl rfl
  by_cases hclose : n.kind = .directive .vocend
  · rcases visit_close hm hclose h with ⟨v, hv, -, hc⟩ | ⟨p, u, -, rfl, ⟨-, rfl⟩ | ⟨v, hv, hc⟩⟩
    · exact unlisted_of_none hc.vocabulary
    · exact unlisted_of_eq hs rfl rfl
    · exact unlisted_of_none hc.vocabulary
  · exact (visit_changes hm h).unlisted hm hclose hname hlabel hreach

theorem Moves.unlisted {l : List Moment} (h : Moves cx s l t)
    (hname : ∀ v, .visit v ∈ l → v.node.kind ≠ .globalLabel name)
    (hlabel : ∀ v, .visit v ∈ l → labelAt v.index → ∃ label, v.node.kind = .globalLabel label)
    (hs : Unlisted cx labelAt name s) : Unlisted cx labelAt name t :=
  h.keeps hm (fun hmem hv hs => visit_unlisted hm hv (hname _ hmem) (hlabel _ hmem) hs)
    (fun _ _ _ hs => unlisted_of_eq hs rfl rfl) (fun _ _ hs => unlisted_of_eq hs rfl rfl)
    (fun _ hleft hs => unlisted_of_eq hs hleft.vocabulary hleft.globals) hs

end Unlisted

/-! ## Equates of settled walks -/

/-- An equate that does its work gives its name the value of its expression. -/
theorem equate_ok {cx : Context} (hm : cx.mode = .assembling) {n : Node} {name : String} {e : Expr}
    (hn : n.kind = .directive (.equal name e)) {s t : State} (h : node cx n s = .ok () t) :
    ∃ kind value, e.eval (s.scoping cx) = .ok (.known kind value) ∧ Gives cx n name value s t := by
  rw [node_directive hn] at h
  obtain ⟨r, u, hevaluate, hdefine⟩ := bind_ok h
  obtain ⟨rfl, kind, value, rfl, hkind, heval⟩ := evaluate_ok hm hevaluate
  refine ⟨kind, value, heval, _, _, _, ?_, .refl, hdefine, ⟨rfl, rfl, rfl⟩⟩
  split
  · exact hkind
  · decide

section Settled

variable {p : FinalPass} {o : Options} {nodes : List Node} {story : AssembledStory}
  (h : p.Makes o nodes story) (hlabels : LabelsGiven p.program.nodes p.start)

include h hlabels

/-- The pass holds every name with a value to one, at all times: labels have had values from the
    start, and a name that has none at the start is no label. -/
theorem traced_on_the_way {l : List Moment} {s : State} (hmoves : Moves p.context p.start l s)
    (hl : ∀ v, .visit v ∈ l → v ∈ p.visits) {name : String}
    (hknown : (s.globals.valueOf name).isSome = true) : Traced p.context p.LabelAt name s := by
  by_cases hstart : (p.start.globals.valueOf name).isSome = true
  · have hheld := hmoves.held h.mode (fun v hv => FinalPass.labelAt_iff (hl v hv))
      (fun v hv hscope b hb => h.labels_nodup (hl v hv) hscope hb) (start_traced h hstart)
    exact hheld.1
  · have hnone : p.start.vocabulary = none := by
      obtain ⟨u, hu⟩ := h.begins
      rw [hu]
      rfl
    have hunlisted : Unlisted p.context p.LabelAt name s := by
      refine hmoves.unlisted h.mode (fun v hv hk => ?_)
        (fun v hv => (FinalPass.labelAt_iff (hl v hv)).mp) (unlisted_of_none hnone)
      obtain ⟨w, hw, hv⟩ := List.mem_flatMap.mp (hl v hv)
      exact hstart (hlabels v.node (List.mem_of_getElem? (mem_passWalks hw hv)) name hk)
    exact hunlisted.traced hknown

variable {w : Walk} (hw : w ∈ p.walks) (hset : w.settled = true) {v : Visit} (hv : v ∈ w.visits)
  {name : String} {e : Expr} (hn : v.node.kind = .directive (.equal name e))
  (hlocals : ∀ other ∈ e.names, v.before.locals.lookup other = none)

include hw hset hv hn hlocals

omit hlabels in
/-- The equated name ends with the value that the expression had. -/
theorem settled_equate : ∃ value, e.valueIn v.before.globals = some value ∧
    p.finish.globals.valueOf name = some value := by
  obtain ⟨kind, value, heval, hgives⟩ := equate_ok h.mode hn (settled_ok h hw hset hv)
  refine ⟨value, valueIn_of_eval h.mode heval hlocals, ?_⟩
  exact settled_value h hw hset hv (fun label hk => by cases hn.symm.trans hk)
    (fun hk => by cases hn.symm.trans hk) hgives

/-- The names of the expression end with the values that they are held to. -/
theorem settled_operands :
    ∃ earlier later, p.moments = earlier ++ .visit v :: later ∧ ∀ other ∈ e.names,
      (p.finish.globals.valueOf other).isSome = true ∧
        p.finish.globals.valueOf other = (lastBreak p.context v.before later).heldTo other := by
  obtain ⟨value, hvalue, -⟩ := settled_equate h hw hset hv hn hlocals
  obtain ⟨t, hcourse⟩ := h.course
  obtain ⟨place, front, rest, s, hcut⟩ := hcourse.cut hw hset hv
  obtain ⟨earlier, later, hmoments, hends⟩ := settled_ends_held h hw hset hv
    fun hk => by cases hn.symm.trans hk
  have hchanges : Changes p.context v.node v.before v.after :=
    (node_does h.mode v.before).of_ok (settled_ok h hw hset hv)
  refine ⟨earlier, later, hmoments, fun other hother => ?_⟩
  have hknown : (v.before.globals.valueOf other).isSome = true := by
    have htotal := Expr.total_of_valueIn hvalue
    exact (Expr.isSome_total_iff e).mp (Option.isSome_iff_exists.mpr ⟨value, htotal⟩) other hother
  have htraced : Traced p.context p.LabelAt other v.before := by
    rw [hcut.before] at hknown ⊢
    refine traced_of_eq (traced_on_the_way h hlabels hcut.moves (fun x hx => ?_) hknown) rfl rfl
    exact hcut.moments (.inl hx)
  exact hends v.before other (settled_index h hw hset hv) hchanges htraced

end Settled

/-- Outside routines and blocks a global is held to the value that it has. -/
theorem heldTo_outside {s : State} (hscope : s.scope = none) (hblock : s.vocabulary = none)
    (name : String) : s.heldTo name = s.globals.valueOf name := by
  unfold State.heldTo
  rw [hscope, hblock]
  rfl

/-- An equated name ends with the value that its expression has where a settled walk reaches the
    node. Where the expression can be evaluated in the table at the end, it has that value exactly
    when it is the total of what the names are held to; this is so outside routines and blocks, if
    no break follows. -/
theorem equates_at_end {o : Options} {nodes : List Node} {story : AssembledStory}
    (h : (assemble o nodes).result = .ok story) :
    ∃ p, finalPass? o nodes = some p ∧
      (∀ x ∈ p.visits, ∃ w ∈ p.walks, w.settled = true ∧
        ∃ v ∈ w.visits, v.index = x.index ∧ v.node = x.node) ∧
      ∀ w ∈ p.walks, w.settled = true → ∀ v ∈ w.visits, ∀ name e,
        v.node.kind = .directive (.equal name e) →
        (∀ other ∈ e.names, v.before.locals.lookup other = none) →
        ∃ value held earlier later, p.moments = earlier ++ .visit v :: later ∧
          e.valueIn v.before.globals = some value ∧
          p.finish.globals.valueOf name = some value ∧
          e.total (lastBreak p.context v.before later).heldTo = some held ∧
          (p.finish.globals.valueOf name = e.valueIn p.finish.globals ↔
            (e.valueIn p.finish.globals).isSome = true ∧ held = value) ∧
          (v.before.scope = none → v.before.vocabulary = none →
            later.filterMap (Moment.break? p.context) = [] → held = value) := by
  obtain ⟨p, hp, hmakes⟩ := exists_finalPass h
  obtain ⟨t, hcourse⟩ := hmakes.course
  refine ⟨p, hp, hcourse.reaches, fun w hw hset v hv name e hn hlocals => ?_⟩
  obtain ⟨value, hvalue, hend⟩ := settled_equate hmakes hw hset hv hn hlocals
  obtain ⟨earlier, later, hmoments, hnames⟩ :=
    settled_operands hmakes (labels_known_at_start hp) hw hset hv hn hlocals
  obtain ⟨held, hheld⟩ := Option.isSome_iff_exists.mp
    ((Expr.isSome_total_iff e).mpr fun other hother => (hnames other hother).1)
  have hlast : e.total (lastBreak p.context v.before later).heldTo = some held := by
    rw [← hheld]
    exact Expr.total_congr e fun other hother => ((hnames other hother).2).symm
  have hfinal : ∀ final, e.valueIn p.finish.globals = some final → final = held :=
    fun final hf => Option.some.inj ((Expr.total_of_valueIn hf).symm.trans hheld)
  refine ⟨value, held, earlier, later, hmoments, hvalue, hend, hlast, ?_,
    fun hscope hblock hnone => ?_⟩
  · rw [hend]
    constructor
    · intro heq
      rw [← heq]
      exact ⟨rfl, (hfinal value heq.symm).symm⟩
    · rintro ⟨hsome, rfl⟩
      obtain ⟨final, hf⟩ := Option.isSome_iff_exists.mp hsome
      rw [hf, hfinal final hf]
  · -- no break follows, and at the node each name is held to its value
    have hbefore : lastBreak p.context v.before later = v.before := by
      unfold lastBreak
      rw [hnone]
      rfl
    have hheldTo : v.before.heldTo = v.before.globals.valueOf :=
      funext (heldTo_outside hscope hblock)
    rw [hbefore, hheldTo, Expr.total_of_valueIn hvalue] at hlast
    exact (Option.some.inj hlast).symm

/-- An equate with a label behind it. -/
def aliased : List Node :=
  [⟨.directive (.equal "PAST" (.add (.symbol "TABLE") (.number 1))), {}⟩,
    ⟨.directive (.byte [.number 7]), {}⟩, ⟨.globalLabel "TABLE", {}⟩,
    ⟨.directive (.funct "MAIN" []), {}⟩, ⟨.instruction { opcode := "RTRUE" }, {}⟩]

def aliasedOptions : Options := { version := .v3, identity := { serial := "260101" } }

theorem aliased_stays_equal :
    ∃ story p, (assemble aliasedOptions aliased).result = .ok story ∧
      finalPass? aliasedOptions aliased = some p ∧
      ∃ w ∈ p.walks, w.settled = true ∧ ∃ v ∈ w.visits,
        v.node.kind = .directive (.equal "PAST" (.add (.symbol "TABLE") (.number 1))) ∧
        (∀ other ∈ (Expr.add (.symbol "TABLE") (.number 1)).names,
          v.before.locals.lookup other = none) ∧
        p.finish.globals.valueOf "PAST" =
          Expr.valueIn p.finish.globals (.add (.symbol "TABLE") (.number 1)) := by
  obtain ⟨story, p, hresult, hp, hrun⟩ := exists_run aliasedOptions aliased
    (fun p => p.breaks.isEmpty &&
      (Expr.valueIn p.finish.globals (.add (.symbol "TABLE") (.number 1))).isSome &&
      p.walks.any fun w => w.settled && w.visits.any fun v =>
        decide (v.node.kind = .directive (.equal "PAST" (.add (.symbol "TABLE") (.number 1)))) &&
        (v.before.scope.isNone && v.before.vocabulary.isNone &&
          decide (∀ other ∈ (Expr.add (.symbol "TABLE") (.number 1)).names,
            v.before.locals.lookup other = none))) (by decide +kernel)
  simp only [List.any_eq_true, Bool.and_eq_true, decide_eq_true_eq, List.isEmpty_iff,
    Option.isNone_iff_eq_none] at hrun
  obtain ⟨⟨hbreaks, hsome⟩, w, hw, hset, v, hv, hn, ⟨hscope, hblock⟩, hlocals⟩ := hrun
  obtain ⟨p', hp', -, hequates⟩ := equates_at_end hresult
  cases hp.symm.trans hp'
  obtain ⟨value, held, earlier, later, hmoments, -, -, -, hiff, houtside⟩ :=
    hequates w hw hset v hv "PAST" _ hn hlocals
  have hnone : later.filterMap (Moment.break? p.context) = [] := by
    unfold FinalPass.breaks at hbreaks
    rw [hmoments, List.filterMap_append, List.append_eq_nil_iff, List.filterMap_cons] at hbreaks
    have hrest := hbreaks.2
    split at hrest
    · exact hrest
    · cases hrest
  exact ⟨story, p, hresult, hp, w, hw, hset, v, hv, hn, hlocals,
    hiff.mpr ⟨hsome, houtside hscope hblock hnone⟩⟩

/-- An equate with a label of its own routine. The first walk leaves the label where a long branch
    puts it; the second, which is the last, reaches the equate before it moves the label. -/
def trailing : List Node :=
  let skipPadding : Branch := { onTrue := true, target := .label "L" }
  [⟨.directive (.funct "R" []), {}⟩, ⟨.directive (.equal "E" (.symbol "G")), {}⟩,
    ⟨.directive (.byte [.number 0]), {}⟩,
    ⟨.instruction { opcode := "ZERO?", operands := [.number 1], branch := skipPadding }, {}⟩,
    ⟨.globalLabel "G", {}⟩, ⟨.directive .pdef, {}⟩, ⟨.localLabel "L", {}⟩,
    ⟨.instruction { opcode := "RTRUE" }, {}⟩, ⟨.directive (.word [.symbol "E", .symbol "G"]), {}⟩]

def trailingOptions : Options := { version := .v3, identity := { serial := "000000" } }

theorem trailing_parts :
    ∃ story p, (assemble trailingOptions trailing).result = .ok story ∧
      finalPass? trailingOptions trailing = some p ∧
      (∃ w ∈ p.walks, w.settled = true ∧ ∃ v ∈ w.visits,
        v.node.kind = .directive (.equal "E" (.symbol "G")) ∧ v.before.locals.lookup "G" = none) ∧
      p.finish.globals.valueOf "E" = some 0x46 ∧
      Expr.valueIn p.finish.globals (.symbol "G") = some 0x45 := by
  obtain ⟨story, p, hresult, hp, hrun⟩ := exists_run trailingOptions trailing
    (fun p => (p.walks.any fun w => w.settled && w.visits.any fun v =>
        decide (v.node.kind = .directive (.equal "E" (.symbol "G")) ∧
          v.before.locals.lookup "G" = none)) &&
      decide (p.finish.globals.valueOf "E" = some 0x46 ∧
        Expr.valueIn p.finish.globals (.symbol "G") = some 0x45)) (by decide +kernel)
  simp only [List.any_eq_true, Bool.and_eq_true, decide_eq_true_eq] at hrun
  obtain ⟨⟨w, hw, hset, v, hv, hn, hlocal⟩, hend⟩ := hrun
  exact ⟨story, p, hresult, hp, ⟨w, hw, hset, v, hv, hn, hlocal⟩, hend⟩

end ZAssembler.Assembly
