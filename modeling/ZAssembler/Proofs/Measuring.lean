import ZAssembler.Proofs.Abreast

/-
  What the measuring passes say of the assembling pass. A measuring pass that begins where the
  assembling pass will begin goes in step with it: if a value changes in the assembling pass, the
  measuring pass tells it (`measuring_tells`). The last measuring pass of a run begins there too, as
  far as the layout is concerned, if it found every symbol as it left it. It may also have found
  every name known that a node reads; then no more was to be learnt (`known_tells`).

  Otherwise its word is worth less. A fixup that a block applies is forgotten with the block, so
  a pass that guessed the size of an instruction may end with nothing left to look back at.
-/

namespace ZAssembler.Assembly

open Halting

/-! ## The end of a pass -/

section Passes

variable {cx : Context} {program : Program} {s t : State}

theorem lookBack_measuring (hm : cx.mode = .measuring) (h : lookBack cx s = .ok () t) :
    t = { s with changed := s.changed || s.fixups.any (·.resolves cx s) } := by
  unfold lookBack at h
  rw [hm] at h
  cases h
  rfl

/-- The last look of the assembling pass finds no value changed. -/
theorem lookBack_assembling (hm : cx.mode = .assembling) {e : Stop}
    (h : lookBack cx s = .error e t) : ¬ moved e := by
  unfold lookBack at h
  rw [hm] at h
  dsimp only at h
  rw [get_bind] at h
  split at h
  · cases h
    rintro ⟨old, new, name, hmoved⟩
    cases hmoved
  · cases h

theorem scope_recover {problem : Problem} (h : recover cx problem s = .ok () t) :
    t.scope = s.scope := by
  obtain hs | ⟨tooMany, u, hs, -⟩ := recover_cases cx problem s <;> cases h.symm.trans hs
  rfl

theorem scope_dropTable (h : dropTable cx s = .ok () t) : t.scope = s.scope := by
  unfold dropTable at h
  rw [get_bind] at h
  cases hopen : s.table with
  | none =>
    rw [hopen] at h
    cases h
    rfl
  | some block =>
    rw [hopen] at h
    obtain ⟨⟨⟩, u, hmodify, hrecover⟩ := bind_ok h
    cases hmodify
    have hscope := scope_recover hrecover
    exact hscope

theorem scope_dropVocabulary (h : dropVocabulary cx s = .ok () t) : t.scope = s.scope := by
  unfold dropVocabulary at h
  rw [get_bind] at h
  cases hopen : s.vocabulary with
  | none =>
    rw [hopen] at h
    cases h
    rfl
  | some block =>
    rw [hopen] at h
    obtain ⟨⟨⟩, u, hmodify, hrecover⟩ := bind_ok h
    cases hmodify
    have hscope := scope_recover hrecover
    exact hscope

theorem passBody_outside (hs : s.scope = none) (h : passBody cx program s = .ok () t) :
    t.scope = none := by
  have hdrop {u : State} (hu : u.scope = none)
      (h : (dropTable cx >>= fun _ => dropVocabulary cx) u = .ok () t) : t.scope = none := by
    obtain ⟨⟨⟩, v, htable, hvocabulary⟩ := bind_ok h
    exact (scope_dropVocabulary hvocabulary).trans ((scope_dropTable htable).trans hu)
  obtain ⟨⟨⟩, u, hpreamble, h⟩ := bind_ok h
  obtain ⟨index, v, hroutines, h⟩ := bind_ok h
  have hv := routines_outside (visitAll_outside hs hpreamble) hroutines
  cases hclosing : program.closing with
  | none =>
    rw [hclosing] at h
    exact hdrop hv h
  | some n =>
    rw [hclosing] at h
    obtain ⟨⟨⟩, w, hvisit, h⟩ := bind_ok h
    exact hdrop (visit_outside hv hvisit) h

end Passes

section Outlooks

variable {cm ca : Context} (hc : Pairing cm ca) (hm : cm.mode = .measuring) (program : Program)
  {m a m' : State} (hscope : m.scope = none) (hpass : pass cm program m = .ok () m')

include hc hm hscope hpass

/-- If the measuring pass comes to its end, its flag says whether a value has changed in the
    assembling pass, unless that pass stops for another reason. -/
theorem changed_iff_moved (h : Twin .level NoName cm ca m a) :
    (∀ e a', pass ca program a = .error e a' → moved e → m'.changed = true) ∧
      ∀ a', pass ca program a = .ok () a' → m'.changed = false := by
  rw [pass_eq] at hpass
  simp only [pass_eq ca]
  obtain ⟨⟨⟩, u, hbody, hend⟩ := bind_ok hpass
  rw [lookBack_measuring hm hend]
  have habreast := abreast_passBody (passing_level hc hm) program hscope
  cases habreast.run (fun _ hk => nomatch hk) a h with
  | error e he => exact he.elim
  | lost e he hlost => cases hbody.symm.trans hlost
  | off hk => exact absurd rfl hk
  | stopped e he ha hmoved =>
    rw [bind_of_error ha]
    rw [final_of_ok hbody] at hmoved
    refine ⟨fun e' a' herror he' => ?_, fun a' hok => nomatch hok⟩
    cases herror
    simp [off_level.mp (hmoved he')]
  | @ok x m1 a1 hok ha htwin =>
    cases hbody.symm.trans hok
    rw [bind_of_ok ha]
    refine ⟨fun e a' herror he => absurd he (lookBack_assembling hc.mode herror), fun a' hok => ?_⟩
    have hfixups : a1.fixups = u.fixups := congrArg Layout.fixups htwin.layout
    unfold lookBack at hok
    rw [hc.mode] at hok
    dsimp only at hok
    rw [get_bind, hfixups] at hok
    split at hok
    · cases hok
    · next hnone =>
      have hempty : u.fixups = #[] := by simpa using hnone
      simp [htwin.still, hempty]

/-- If every name is known where it is read, a measuring pass that ends with nothing moved has found
    the values that stand in the assembling pass. -/
theorem not_moved_of_known {ending : String → Option (SymbolKind × Int32)}
    (hknows : ∀ x ∈ passArrivals cm program m, x.Knows ending)
    (hending : ∀ name, (ending name).map Prod.snd = m'.globals.valueOf name)
    (hstill : m'.changed = false) (h : (Outlook.ahead ending).Off cm m ∨
      Twin (.ahead ending) NoName cm ca m a) {e : Stop} {a' : State}
    (herror : pass ca program a = .error e a') : ¬ moved e := by
  rw [pass_eq] at hpass herror
  obtain ⟨⟨⟩, u, hbody, hend⟩ := bind_ok hpass
  have hlook := lookBack_measuring hm hend
  have habreast := abreast_passBody (passing_ahead hc hm ending) program hscope
  have hmeets : (Outlook.ahead ending).Meets (passArrivals cm program m) := by
    rintro _ ⟨⟩
    exact hknows
  have hon : ¬ (Outlook.ahead ending).Off cm u := by
    rw [hlook] at hstill hending
    rintro (hchanged | ⟨_, ⟨⟩, -, hu, name, value, hvalue, hne⟩)
    · simp [hchanged] at hstill
    · rw [hu.heldTo, passBody_outside hscope hbody] at hvalue
      exact hne ((hending name).trans hvalue)
  rcases h with hoff | htwin
  · exact absurd (Following.off ((habreast.kept hmeets).of_ok hbody) hoff) hon
  · cases habreast.run hmeets a htwin with
    | error e he => exact he.elim
    | lost e he hlost => cases hbody.symm.trans hlost
    | off hk hoff =>
      rw [final_of_ok hbody] at hoff
      exact absurd hoff hon
    | stopped e he ha hmoved =>
      cases (bind_of_error ha).symm.trans herror
      rw [final_of_ok hbody] at hmoved
      exact fun he => hon (hmoved he)
    | ok x hok ha htwin => exact lookBack_assembling hc.mode ((bind_of_ok ha).symm.trans herror)

end Outlooks

/-- A measuring pass dates its symbols. -/
theorem carried_pass {cx : Context} (hm : cx.mode = .measuring) (program : Program) {s t : State}
    (hscope : s.scope = none) (h : pass cx program s = .ok () t) : Carried cx s t := by
  rw [pass_eq] at h
  obtain ⟨⟨⟩, u, hbody, hend⟩ := bind_ok h
  have hpair : Pairing cx { cx with mode := .assembling } := ⟨rfl, rfl⟩
  have habreast := abreast_passBody (passing_level hpair hm) program hscope
  have hkept : Carried cx s u := (habreast.kept fun _ hk => nomatch hk).of_ok hbody
  rw [lookBack_measuring hm hend]
  exact hkept.trans ⟨fun hu => by simp [hu], rfl, id⟩

/-! ## Runs -/

/-- The kinds and values of the symbols that are defined. -/
def State.meanings (s : State) (name : String) : Option (SymbolKind × Int32) :=
  (s.globals.defined name).map fun x => (x.kind, x.value)

/-- The symbols that are defined have the same kinds and values. -/
def SameSymbols (s t : State) : Prop := ∀ name, t.meanings name = s.meanings name

/-- The measuring pass from state `r` to state `t` opens no block, and each node of it finds the
    names that it reads of the kinds that they have at its end. -/
def KnownWhereRead (o : Options) (program : Program) (v : Version) (r t : State) : Prop :=
  ∀ x ∈ passArrivals (r.nextContext o v .measuring) program (r.beginPass o v .measuring),
    x.Knows t.meanings

instance (o : Options) (program : Program) (v : Version) (r t : State) :
    Decidable (KnownWhereRead o program v r t) :=
  inferInstanceAs (Decidable (∀ x ∈ passArrivals _ program _, x.Knows t.meanings))

/-- No symbol comes from a pass that has not begun. -/
def State.Dated (s : State) : Prop := DefinedBefore (s.counts.passes + 1) (fun _ => True) s.globals

/-- The assembling pass that follows state `s` is given up because a value has changed. -/
def ValueChanges (o : Options) (program : Program) (v : Version) (s : State) : Prop :=
  ∃ old new name t, onePass o program v .assembling s =
    .error (.failed (.valueChanged old new name)) t

def Stop.isValueChange : Stop → Bool
  | .failed (.valueChanged _ _ _) => true
  | _ => false

theorem Stop.isValueChange_iff {e : Stop} :
    e.isValueChange = true ↔ ∃ old new name, e = .failed (.valueChanged old new name) := by
  unfold Stop.isValueChange
  split
  · next old new name => exact iff_of_true rfl ⟨old, new, name, rfl⟩
  · next hne =>
    refine iff_of_false Bool.false_ne_true ?_
    rintro ⟨old, new, name, rfl⟩
    exact hne old new name rfl

instance (o : Options) (program : Program) (v : Version) (s : State) :
    Decidable (ValueChanges o program v s) :=
  match h : onePass o program v .assembling s with
  | .ok _ _ => isFalse (by
    rintro ⟨old, new, name, t, hstop⟩
    cases h.symm.trans hstop)
  | .error e t => decidable_of_iff (e.isValueChange = true) (by
    unfold ValueChanges
    rw [Stop.isValueChange_iff, h]
    constructor
    · rintro ⟨old, new, name, rfl⟩
      exact ⟨old, new, name, t, rfl⟩
    · rintro ⟨old, new, name, _, hstop⟩
      cases hstop
      exact ⟨old, new, name, rfl⟩)

/-- The measuring passes that came to their end, each with the states before and after it. -/
def measurings (o : Options) (program : Program) (v : Version) : (left : Nat) → State →
    List (State × State)
  | 0, _ => []
  | left + 1, s =>
    match onePass o program v .measuring s with
    | .ok () t => (s, t) :: if t.changed then measurings o program v left (t.measured left) else []
    | .error _ _ => []

/-- The versions that are tried from version `v` on, each with the state in which its passes
    begin. -/
def attemptsFrom (o : Options) (program : Program) (left : Nat) (tried : List Version) (v : Version)
    (s : State) : List (Version × State) :=
  (v, s) :: match passes o program v s with
    | .error (.restart wanted) t =>
      match left, decide (wanted ∈ tried) with
      | left + 1, false => attemptsFrom o program left (wanted :: tried) wanted (t.restart wanted)
      | _, _ => []
    | _ => []

/-- The versions that the assembly of a program tries. -/
def attempts (o : Options) (nodes : List Node) : List (Version × State) :=
  attemptsFrom o (.ofNodes nodes) (Version.all.length - 1) [o.version] o.version
    (.initial o.version)

section Runs

variable {o : Options} {program : Program} {v : Version}

theorem dated_of_predefined {s : State} (h : s.globals = predefined) : s.Dated := by
  unfold State.Dated
  rw [h]
  refine DefinedBefore.put (t := .empty) (fun _ _ _ _ hlookup => nomatch hlookup) ?_
  exact fun _ _ hsite => nomatch hsite

theorem dated_onePass {s t : State} (hs : s.Dated)
    (h : onePass o program v .measuring s = .ok () t) : t.Dated := by
  rw [onePass_eq] at h
  have hscope : (s.beginPass o v .measuring).scope = none := by simp only [State.beginPass]
  have hcarried := carried_pass rfl program hscope h
  have hglobals : (s.beginPass o v .measuring).globals = s.globals := by simp only [State.beginPass]
  have hsites := hcarried.sites
  rw [hglobals] at hsites
  unfold State.Dated
  rw [hcarried.passes]
  exact hsites (hs.mono (Nat.le_succ _))

theorem dated_of_attempt {left : Nat} {tried : List Version} {s : State} (hs : s.Dated)
    {x : Version × State} (h : x ∈ attemptsFrom o program left tried v s) : x.2.Dated := by
  induction left generalizing tried v s with
  | zero =>
    unfold attemptsFrom at h
    rcases List.mem_cons.mp h with rfl | h
    · exact hs
    · split at h <;> cases h
  | succ left ih =>
    unfold attemptsFrom at h
    rcases List.mem_cons.mp h with rfl | h
    · exact hs
    · split at h
      · next wanted t _ =>
        cases htried : decide (wanted ∈ tried) with
        | true =>
          rw [htried] at h
          cases h
        | false =>
          rw [htried] at h
          exact ih (s := t.restart wanted) (dated_of_predefined rfl) h
      · cases h

theorem State.Dated.measured {s : State} (h : s.Dated) (left : Nat) : (s.measured left).Dated := h

theorem measure_succ {left : Nat} {s u : State} (h : measure o program v (left + 1) s = .ok () u) :
    ∃ t, onePass o program v .measuring s = .ok () t ∧
      (t.changed = false ∧ u = t.measured left ∨
        t.changed = true ∧ measure o program v left (t.measured left) = .ok () u) := by
  obtain ⟨⟨⟩, t, hpass, -⟩ := bind_ok h
  refine ⟨t, hpass, ?_⟩
  rw [measure_of_ok left hpass] at h
  cases hchanged : t.changed with
  | false =>
    rw [hchanged] at h
    cases h
    exact .inl ⟨rfl, rfl⟩
  | true =>
    rw [hchanged] at h
    exact .inr ⟨rfl, h⟩

theorem dated_measure {left : Nat} {s u : State} (hs : s.Dated)
    (h : measure o program v left s = .ok () u) : u.Dated := by
  induction left generalizing s with
  | zero =>
    cases h
    exact hs
  | succ left ih =>
    obtain ⟨t, hpass, hend⟩ := measure_succ h
    have ht := (dated_onePass hs hpass).measured left
    obtain ⟨-, rfl⟩ | ⟨-, hrest⟩ := hend
    · exact ht
    · exact ih ht hrest

/-- The last measuring pass, if it found that nothing changes. -/
theorem last_measuring {left : Nat} {s u : State} (hs : s.Dated)
    (h : measure o program v left s = .ok () u) {r t : State}
    (hlast : (measurings o program v left s).getLast? = some (r, t)) (hstill : t.changed = false) :
    r.Dated ∧ onePass o program v .measuring r = .ok () t ∧ u.globals = t.globals := by
  induction left generalizing s with
  | zero => cases hlast
  | succ left ih =>
    obtain ⟨t1, hpass, hend⟩ := measure_succ h
    unfold measurings at hlast
    rw [hpass] at hlast
    dsimp only at hlast
    rw [List.getLast?_cons] at hlast
    rcases hend with ⟨hchanged, rfl⟩ | ⟨hchanged, hrest⟩
    · rw [hchanged] at hlast
      cases hlast
      exact ⟨hs, hpass, rfl⟩
    · rw [hchanged, if_pos rfl] at hlast
      cases htail : (measurings o program v left (t1.measured left)).getLast? with
      | none =>
        rw [htail] at hlast
        cases hlast
        cases hchanged.symm.trans hstill
      | some pair =>
        rw [htail] at hlast
        cases hlast
        exact ih ((dated_onePass hs hpass).measured left) hrest htail

theorem twin_beginPass {r u : State} (hr : r.Dated) (hu : u.Dated) (hsame : SameSymbols r u) :
    Twin .level NoName (r.nextContext o v .measuring) (u.nextContext o v .assembling)
      (r.beginPass o v .measuring) (u.beginPass o v .assembling) := by
  have hrglobals : (r.beginPass o v .measuring).globals = r.globals := by
    simp only [State.beginPass]
  have huglobals : (u.beginPass o v .assembling).globals = u.globals := by
    simp only [State.beginPass]
  refine ⟨rfl, fun name => .inl ?_, rfl, .inl rfl⟩
  rw [hrglobals, huglobals]
  exact matching_of_before hr hu hsame name

/-- A measuring pass that begins with the symbols of the assembling pass tells whether a value
    changes in it. -/
theorem measuring_tells {r u t : State} (hr : r.Dated) (hu : u.Dated) (hsame : SameSymbols r u)
    (h : onePass o program v .measuring r = .ok () t) :
    (ValueChanges o program v u → t.changed = true) ∧
      ∀ t', onePass o program v .assembling u = .ok () t' → t.changed = false := by
  rw [onePass_eq] at h
  have hpair : Pairing (r.nextContext o v .measuring) (u.nextContext o v .assembling) := ⟨rfl, rfl⟩
  have hscope : (r.beginPass o v .measuring).scope = none := by simp only [State.beginPass]
  obtain ⟨hmoved, hsettled⟩ :=
    changed_iff_moved hpair rfl program hscope h (twin_beginPass hr hu hsame)
  refine ⟨?_, hsettled⟩
  rintro ⟨old, new, name, t', hstop⟩
  exact hmoved _ t' hstop ⟨old, new, name, rfl⟩

theorem valueOf_meanings (s : State) (name : String) :
    (s.meanings name).map Prod.snd = s.globals.valueOf name := by
  unfold State.meanings
  rw [Option.map_map]
  rfl

/-- What a pass begins with, if the next one begins with what it ends with: it is off at once if it
    knows another value of a symbol. -/
theorem twin_or_off {r u t : State} (hr : r.Dated) (hu : u.Dated)
    (hglobals : u.globals = t.globals) :
    (Outlook.ahead t.meanings).Off (r.nextContext o v .measuring) (r.beginPass o v .measuring) ∨
      Twin (.ahead t.meanings) NoName (r.nextContext o v .measuring) (u.nextContext o v .assembling)
        (r.beginPass o v .measuring) (u.beginPass o v .assembling) := by
  have hrglobals : (r.beginPass o v .measuring).globals = r.globals := by
    simp only [State.beginPass]
  have huglobals : (u.beginPass o v .assembling).globals = u.globals := by
    simp only [State.beginPass]
  have hscope : (r.beginPass o v .measuring).scope = none := by simp only [State.beginPass]
  have horderly : (r.beginPass o v .measuring).Orderly := by
    refine ⟨by simp only [State.beginPass], ?_⟩
    rw [hscope]
    intro changes hchanges
    cases hchanges
  by_cases hstray : ∃ name value, r.globals.valueOf name = some value ∧
      (t.meanings name).map Prod.snd ≠ some value
  · obtain ⟨name, value, hvalue, hne⟩ := hstray
    refine .inl (.inr ⟨_, rfl, rfl, horderly, name, value, ?_, hne⟩)
    rw [horderly.heldTo, hscope, hrglobals]
    exact hvalue
  · refine .inr ⟨rfl, fun name => .inr ⟨id, _, rfl, ?_⟩, rfl, .inr horderly⟩
    rw [hrglobals, huglobals]
    refine ⟨by rw [hglobals]; rfl, fun value hvalue => ?_, fun x node hx => hr.fresh hx node,
      fun y node hy => hu.fresh hy node⟩
    rw [hglobals, ← valueOf_meanings]
    exact Classical.byContradiction fun hne => hstray ⟨name, value, hvalue, hne⟩

/-- A measuring pass in which nothing moves and in which every name is known where it is read tells
    that no value changes in the assembling pass. -/
theorem known_tells {r u t : State} (hr : r.Dated) (hu : u.Dated) (hglobals : u.globals = t.globals)
    (h : onePass o program v .measuring r = .ok () t) (hstill : t.changed = false)
    (hknows : KnownWhereRead o program v r t) : ¬ ValueChanges o program v u := by
  rw [onePass_eq] at h
  rintro ⟨old, new, name, t', hstop⟩
  rw [onePass_eq] at hstop
  have hpair : Pairing (r.nextContext o v .measuring) (u.nextContext o v .assembling) := ⟨rfl, rfl⟩
  have hscope : (r.beginPass o v .measuring).scope = none := by simp only [State.beginPass]
  exact not_moved_of_known hpair rfl program hscope h hknows (valueOf_meanings t) hstill
    (twin_or_off hr hu hglobals) hstop ⟨old, new, name, rfl⟩

end Runs

/-- Measuring is over when nothing changes in a pass. If that pass began with the symbols that it
    ended with, or if every name was known in it where it was read, no value changes in the
    assembling pass. Whatever the pass began with, another measuring pass would tell: its flag is
    set if a value changes in the assembling pass, and not set if the assembling pass comes to its
    end. -/
theorem measuring_settles (o : Options) (nodes : List Node) {v : Version} {s u : State}
    (hattempt : (v, s) ∈ attempts o nodes)
    (hmeasure : measure o (.ofNodes nodes) v maxMeasuringPasses s = .ok () u) :
    (∀ r t, (measurings o (.ofNodes nodes) v maxMeasuringPasses s).getLast? = some (r, t) →
      t.changed = false → SameSymbols r t ∨ KnownWhereRead o (.ofNodes nodes) v r t →
      ¬ ValueChanges o (.ofNodes nodes) v u) ∧
    ∀ t, onePass o (.ofNodes nodes) v .measuring u = .ok () t →
      (ValueChanges o (.ofNodes nodes) v u → t.changed = true) ∧
      ∀ t', onePass o (.ofNodes nodes) v .assembling u = .ok () t' → t.changed = false := by
  have hs : s.Dated := dated_of_attempt (dated_of_predefined rfl) hattempt
  have hu : u.Dated := dated_measure hs hmeasure
  refine ⟨fun r t hlast hstill hknown => ?_, fun t hpass => measuring_tells hu hu
    (fun _ => rfl) hpass⟩
  obtain ⟨hr, hpass, hglobals⟩ := last_measuring hs hmeasure hlast hstill
  rcases hknown with hsame | hknown
  · have hsame' : SameSymbols r u := by
      intro name
      unfold State.meanings
      rw [hglobals]
      exact hsame name
    intro hmoves
    have hchanged := (measuring_tells hr hu hsame' hpass).1 hmoves
    cases hchanged.symm.trans hstill
  · exact known_tells hr hu hglobals hpass hstill hknown

theorem mem_attempts_self (o : Options) (nodes : List Node) :
    (o.version, .initial o.version) ∈ attempts o nodes := by
  unfold attempts attemptsFrom
  exact List.mem_cons_self

theorem sameSymbols_of_symbols {s t : State}
    (h : t.globals.symbols.map (fun x => (x.name, x.kind, x.value)) =
      s.globals.symbols.map fun x => (x.name, x.kind, x.value)) : SameSymbols s t := by
  intro name
  have hview : ∀ table : SymbolTable, (table.defined name).map (fun x => (x.kind, x.value)) =
      (((table.symbols.map fun x => (x.name, x.kind, x.value)).find? (·.1 == name)).filter
        (·.2.1 != .unknown)).map Prod.snd := by
    intro table
    rw [List.find?_map]
    unfold SymbolTable.defined SymbolTable.lookup
    show _ = (((table.symbols.find? (·.name == name)).map _).filter _).map _
    cases table.symbols.find? (·.name == name) with
    | none => rfl
    | some x =>
      rw [Option.map_some, Option.filter_some, Option.filter_some]
      show Option.map _ (if x.isDefined = true then _ else _) =
        .map _ (if x.isDefined = true then _ else _)
      split <;> rfl
  unfold State.meanings
  rw [hview, hview, h]

/-- What evaluating the first measuring passes of a program shows of them. -/
theorem exists_measured (o : Options) (nodes : List Node) (b : State → List (State × State) → Bool)
    (h : (match measure o (.ofNodes nodes) o.version maxMeasuringPasses (.initial o.version) with
      | .ok _ u =>
        b u (measurings o (.ofNodes nodes) o.version maxMeasuringPasses (.initial o.version))
      | .error _ _ => false) = true) :
    ∃ u, measure o (.ofNodes nodes) o.version maxMeasuringPasses (.initial o.version) = .ok () u ∧
      b u (measurings o (.ofNodes nodes) o.version maxMeasuringPasses (.initial o.version)) =
      true := by
  split at h
  · next u hmeasure => exact ⟨u, hmeasure, h⟩
  · cases h

theorem exists_problem (o : Options) (nodes : List Node) (b : Problem → Bool)
    (h : (match (assemble o nodes).result with
      | .ok _ => false
      | .error problem => b problem) = true) :
    ∃ problem, (assemble o nodes).result = .error problem ∧ b problem = true := by
  split at h
  · cases h
  · next problem hresult => exact ⟨problem, hresult, h⟩

/-- The constant that comes last lets the instruction shrink, and the label moves with it. -/
def shrinking : List Node :=
  [⟨.instruction { opcode := "PRINTN", operands := [.symbol "X"] }, {}⟩, ⟨.globalLabel "L", {}⟩,
    ⟨.directive (.equal "X" (.number 5)), {}⟩]

def shrinkingOptions : Options := { version := .v3, identity := { serial := "000000" } }

/-- Every name is defined before it is read. -/
def backward : List Node :=
  [⟨.directive (.equal "X" (.number 5)), {}⟩,
    ⟨.instruction { opcode := "PRINTN", operands := [.symbol "X"] }, {}⟩, ⟨.globalLabel "L", {}⟩,
    ⟨.directive (.word [.add (.symbol "L") (.symbol "X")]), {}⟩]

/-- The third measuring pass of the first program begins and ends with the same symbols; the second
    program needs one, which begins with none of them. -/
theorem both_settle :
    (∃ s u r t, (.v3, s) ∈ attempts shrinkingOptions shrinking ∧
      measure shrinkingOptions (.ofNodes shrinking) .v3 maxMeasuringPasses s = .ok () u ∧
      (measurings shrinkingOptions (.ofNodes shrinking) .v3 maxMeasuringPasses s).getLast? =
      some (r, t) ∧
      (measurings shrinkingOptions (.ofNodes shrinking) .v3 maxMeasuringPasses s).length = 3 ∧
      t.changed = false ∧ SameSymbols r t ∧
      ¬ ValueChanges shrinkingOptions (.ofNodes shrinking) .v3 u) ∧
    ∃ s u r t, (.v3, s) ∈ attempts shrinkingOptions backward ∧
      measure shrinkingOptions (.ofNodes backward) .v3 maxMeasuringPasses s = .ok () u ∧
      measurings shrinkingOptions (.ofNodes backward) .v3 maxMeasuringPasses s = [(r, t)] ∧
      t.changed = false ∧ r.meanings "X" = none ∧ t.meanings "X" = some (.constant, 5) ∧
      KnownWhereRead shrinkingOptions (.ofNodes backward) .v3 r t ∧
      ¬ ValueChanges shrinkingOptions (.ofNodes backward) .v3 u := by
  constructor
  · obtain ⟨u, hmeasure, hrun⟩ := exists_measured shrinkingOptions shrinking
      (fun _ passes => decide (passes.length = 3) && passes.getLast?.any
        fun (last : State × State) =>
        decide (last.2.changed = false ∧
          last.2.globals.symbols.map (fun x => (x.name, x.kind, x.value)) =
          last.1.globals.symbols.map fun x => (x.name, x.kind, x.value))) (by decide +kernel)
    simp only [Bool.and_eq_true, decide_eq_true_eq, Option.any_eq_true] at hrun
    obtain ⟨hlength, ⟨r, t⟩, hlast, hstill, hsymbols⟩ := hrun
    have hattempt := mem_attempts_self shrinkingOptions shrinking
    have hsame := sameSymbols_of_symbols hsymbols
    exact ⟨_, u, r, t, hattempt, hmeasure, hlast, hlength, hstill, hsame,
      (measuring_settles shrinkingOptions shrinking hattempt hmeasure).1 r t hlast hstill
      (.inl hsame)⟩
  · obtain ⟨u, hmeasure, hrun⟩ := exists_measured shrinkingOptions backward
      (fun _ passes => decide (passes.length = 1) && passes.all fun (pair : State × State) =>
        decide (pair.2.changed = false ∧ pair.1.meanings "X" = none ∧
          pair.2.meanings "X" = some (.constant, 5) ∧
          KnownWhereRead shrinkingOptions (.ofNodes backward) .v3 pair.1 pair.2))
      (by decide +kernel)
    simp only [Bool.and_eq_true, decide_eq_true_eq, List.all_eq_true] at hrun
    obtain ⟨hlength, hpasses⟩ := hrun
    obtain ⟨⟨r, t⟩, hsingle⟩ := List.length_eq_one_iff.mp hlength
    obtain ⟨hstill, hbefore, hafter, hknown⟩ :=
      hpasses (r, t) (by rw [hsingle]; exact List.mem_cons_self)
    have hattempt := mem_attempts_self shrinkingOptions backward
    have hlast := congrArg List.getLast? hsingle
    exact ⟨_, u, r, t, hattempt, hmeasure, hsingle, hstill, hbefore, hafter, hknown,
      (measuring_settles shrinkingOptions backward hattempt hmeasure).1 r t hlast hstill
      (.inr hknown)⟩

/-- The block forgets, when it ends, that it had to wait for the constant. -/
def forgetful : List Node :=
  [⟨.directive (.vocbeg (.number 3) (.number 1)), {}⟩,
    ⟨.instruction { opcode := "PRINTN", operands := [.symbol "X"] }, {}⟩,
    ⟨.directive (.equal "X" (.number 5)), {}⟩, ⟨.directive .vocend, {}⟩, ⟨.globalLabel "L", {}⟩]

def forgetfulOptions : Options := { version := .v3, identity := { serial := "000000" } }

/-- Nothing changes in the only measuring pass, and yet the label moves in the assembling pass. -/
theorem forgetful_moves :
    (.v3, .initial .v3) ∈ attempts forgetfulOptions forgetful ∧
    ∃ u r t, measure forgetfulOptions (.ofNodes forgetful) .v3 maxMeasuringPasses (.initial .v3) =
    .ok () u ∧
      measurings forgetfulOptions (.ofNodes forgetful) .v3 maxMeasuringPasses (.initial .v3) =
      [(r, t)] ∧
      t.changed = false ∧ errorCount t.diagnostics.toList = 0 ∧
      ValueChanges forgetfulOptions (.ofNodes forgetful) .v3 u ∧
      (assemble forgetfulOptions forgetful).result = .error (.valueChanged 0x44 0x43 "L") := by
  obtain ⟨u, hmeasure, hrun⟩ := exists_measured forgetfulOptions forgetful
    (fun u passes => decide (passes.length = 1) && passes.all (fun (pair : State × State) =>
      decide (pair.2.changed = false ∧ errorCount pair.2.diagnostics.toList = 0)) &&
      decide (ValueChanges forgetfulOptions (.ofNodes forgetful) .v3 u)) (by decide +kernel)
  simp only [Bool.and_eq_true, decide_eq_true_eq, List.all_eq_true] at hrun
  obtain ⟨⟨hlength, hpasses⟩, hchanges⟩ := hrun
  obtain ⟨⟨r, t⟩, hsingle⟩ := List.length_eq_one_iff.mp hlength
  obtain ⟨hstill, hclean⟩ := hpasses (r, t) (by rw [hsingle]; exact List.mem_cons_self)
  obtain ⟨problem, hresult, hproblem⟩ := exists_problem forgetfulOptions forgetful
    (fun problem => decide (problem = .valueChanged 0x44 0x43 "L")) (by decide +kernel)
  obtain rfl := of_decide_eq_true hproblem
  exact ⟨mem_attempts_self _ _, u, r, t, hmeasure, hsingle, hstill, hclean, hchanges, hresult⟩

end ZAssembler.Assembly
