import ZAssembler.Proofs.Change

/-
  The two modes of evaluation. While layout is measured an evaluation may wait for a name; on the
  final pass it may not. Two relations of results are kept by the operators, and so hold of every
  expression: `Foretells` leads from an evaluation that may wait to one that may not, `Carries` from
  a table to one in which more names have values.
-/

namespace ZAssembler

/-- Every name that has a value keeps it, and its kind; names without a value may have got one. -/
def Scoping.Extends (sc sc' : Scoping) : Prop :=
  ∀ name kind value, sc.meaning name = some (kind, value) → sc'.meaning name = some (kind, value)

namespace Expr

/-! ## An evaluation that may wait and one that may not -/

/-- What a result of an evaluation that may wait tells of the one that may not: a value stays, a
    name waited for is an error, and a failure, which is never for want of a value, is a failure. -/
inductive Foretells : Except EvalError Resolved → Except EvalError Resolved → Prop
  | known (kind : SymbolKind) (value : Int32) :
    Foretells (.ok (.known kind value)) (.ok (.known kind value))
  | waits (name : String) : Foretells (.ok (.unknown name)) (.error (.undefined name))
  | fails {error final : EvalError} (h : ∀ name, error ≠ .undefined name) :
    Foretells (.error error) (.error final)

namespace Foretells

variable {measured final left left' right right' : Except EvalError Resolved}

theorem of_resolve (lookup : String → Option Symbol) (name : String) :
    Foretells (resolve { lookup, final := false } name)
      (resolve { lookup, final := true } name) := by
  unfold resolve
  cases (lookup name).filter Symbol.isDefined with
  | none => exact .waits name
  | some symbol => exact .known symbol.kind symbol.value

theorem unquote (h : Foretells measured final) (name : String) :
    Foretells (unquote name measured) (unquote name final) := by
  cases h with
  | known kind value =>
    cases kind with
    | var => exact .known .constant value
    | _ => exact .fails fun other h => by cases h
  | waits other => exact .waits other
  | fails h => exact .fails h

theorem of_sum (lk : SymbolKind) (lv : Int32) (rk : SymbolKind) (rv : Int32) :
    Foretells (sum lk lv rk rv) (sum lk lv rk rv) := by
  rcases sum_cases lk lv rk rv with ⟨kind, -, heq⟩ | ⟨kind, heq⟩
  · rw [heq]
    exact .known kind (lv + rv)
  · rw [heq]
    exact .fails fun name h => by cases h

/-- The left side decides first in both modes, so the name waited for is the name complained of. -/
theorem combine (hl : Foretells left left') (hr : Foretells right right') :
    Foretells (combine left right) (combine left' right') := by
  cases hl with
  | known lk lv =>
    cases hr with
    | known rk rv => exact of_sum lk lv rk rv
    | waits name => exact .waits name
    | fails h => exact .fails h
  | waits name =>
    cases hr with
    | known rk rv => exact .waits name
    | waits other => exact .waits name
    | fails h => exact .fails h
  | fails h => exact .fails h

theorem congruent : Congruent Foretells where
  number value := .known .constant value
  unquote name h := h.unquote name
  combine := combine

/-- Measuring an expression foretells its final evaluation. -/
theorem of_eval (lookup : String → Option Symbol) (e : Expr) :
    Foretells (e.eval { lookup, final := false }) (e.eval { lookup, final := true }) :=
  congruent.eval e fun name _ => of_resolve lookup name

theorem known_iff (h : Foretells measured final) (kind : SymbolKind) (value : Int32) :
    final = .ok (.known kind value) ↔ measured = .ok (.known kind value) := by
  cases h with
  | known => rfl
  | waits => constructor <;> intro h <;> cases h
  | fails => constructor <;> intro h <;> cases h

theorem undefined (h : Foretells measured final) {name : String}
    (hwaits : measured = .ok (.unknown name)) : final = .error (.undefined name) := by
  cases h with
  | known => cases hwaits
  | waits =>
    cases hwaits
    rfl
  | fails => cases hwaits

theorem ne_undefined (h : Foretells measured final) (name : String) :
    measured ≠ .error (.undefined name) := by
  cases h with
  | known => exact fun h => by cases h
  | waits => exact fun h => by cases h
  | fails hne =>
    intro h
    cases h
    exact hne name rfl

theorem failing (h : Foretells measured final) {error : EvalError}
    (hfails : measured = .error error) : ∃ error', final = .error error' := by
  cases h with
  | known => cases hfails
  | waits => cases hfails
  | fails => exact ⟨_, rfl⟩

end Foretells

/-! ## More names with values -/

/-- What is left of a result once more names have values: a value stays, a failure stays a
    failure. -/
inductive Carries : Except EvalError Resolved → Except EvalError Resolved → Prop
  | known (kind : SymbolKind) (value : Int32) :
    Carries (.ok (.known kind value)) (.ok (.known kind value))
  | waits (name : String) (result : Except EvalError Resolved) :
      Carries (.ok (.unknown name)) result
  | fails (error error' : EvalError) : Carries (.error error) (.error error')

namespace Carries

variable {before after left left' right right' : Except EvalError Resolved} {sc sc' : Scoping}

theorem of_resolve (hextends : sc.Extends sc') (hfinal : sc.final = false) (name : String) :
    Carries (resolve sc name) (resolve sc' name) := by
  rw [resolve_eq, resolve_eq]
  cases hmeaning : sc.meaning name with
  | none =>
    dsimp only
    rw [hfinal]
    exact .waits name _
  | some pair =>
    rw [hextends name pair.1 pair.2 hmeaning]
    exact .known pair.1 pair.2

theorem unquote (h : Carries before after) (name : String) :
    Carries (unquote name before) (unquote name after) := by
  cases h with
  | known kind value =>
    cases kind with
    | var => exact .known .constant value
    | _ => exact .fails _ _
  | waits other => exact .waits other _
  | fails => exact .fails _ _

theorem of_sum (lk : SymbolKind) (lv : Int32) (rk : SymbolKind) (rv : Int32) :
    Carries (sum lk lv rk rv) (sum lk lv rk rv) := by
  rcases sum_cases lk lv rk rv with ⟨kind, -, heq⟩ | ⟨kind, heq⟩
  · rw [heq]
    exact .known kind (lv + rv)
  · rw [heq]
    exact .fails _ _

/-- A failure on the right stays one behind a left side that no longer waits. -/
theorem combine_fails (left : Except EvalError Resolved) (error : EvalError) :
    ∃ error', Expr.combine left (.error error) = .error error' := by
  cases left with
  | error error' => exact ⟨error', rfl⟩
  | ok => exact ⟨error, rfl⟩

theorem combine (hl : Carries left left') (hr : Carries right right') :
    Carries (combine left right) (combine left' right') := by
  cases hl with
  | known lk lv =>
    cases hr with
    | known rk rv => exact of_sum lk lv rk rv
    | waits name => exact .waits name _
    | fails => exact .fails _ _
  | waits name =>
    cases hr with
    | known => exact .waits name _
    | waits => exact .waits name _
    | fails error error' =>
      obtain ⟨other, heq⟩ := combine_fails left' error'
      rw [heq]
      exact .fails _ _
  | fails => exact .fails _ _

theorem congruent : Congruent Carries where
  number value := .known .constant value
  unquote name h := h.unquote name
  combine := combine

theorem of_eval (hextends : sc.Extends sc') (hfinal : sc.final = false) (e : Expr) :
    Carries (e.eval sc) (e.eval sc') :=
  congruent.eval e fun name _ => of_resolve hextends hfinal name

theorem value (h : Carries before after) {kind : SymbolKind} {value : Int32}
    (hknown : before = .ok (.known kind value)) : after = .ok (.known kind value) := by
  cases h with
  | known =>
    cases hknown
    rfl
  | waits => cases hknown
  | fails => cases hknown

theorem failing (h : Carries before after) {error : EvalError} (hfails : before = .error error) :
    ∃ error', after = .error error' := by
  cases h with
  | known => cases hfails
  | waits => cases hfails
  | fails => exact ⟨_, rfl⟩

end Carries

end Expr

/-! ## Tables with further definitions -/

/-- Names as a pass looks them up: locals hide globals. -/
def Scoping.within (locals globals : SymbolTable) (final : Bool) : Scoping :=
  { lookup := fun name => (locals.lookup name).or (globals.lookup name), final }

example (s : Assembly.State) (cx : Assembly.Context) :
    s.scoping cx = .within s.locals s.globals (cx.mode = .assembling) := rfl

/-- Defining a global without a value takes nothing from the names that have one, and nothing from a
    local that hides it. -/
theorem extends_define (locals : SymbolTable) {globals : SymbolTable} {name : String}
    (h : globals.valueOf name = none) (kind : SymbolKind) (value : Int32) (site : Site)
    (final : Bool) :
    (Scoping.within locals globals final).Extends
      (.within locals (globals.define name kind value site).2 final) := by
  intro other kind' value' hmeaning
  rcases Assembly.define_cases globals name kind value site with
    ⟨-, old, heq⟩ | ⟨-, symbol, hsymbol, heq⟩
  · rw [heq]
    exact hmeaning
  · rw [heq]
    unfold Scoping.meaning Scoping.within at hmeaning ⊢
    dsimp only at hmeaning ⊢
    cases hlocal : locals.lookup other with
    | some x =>
      rw [hlocal, Option.some_or] at hmeaning
      rw [Option.some_or]
      exact hmeaning
    | none =>
      rw [hlocal, Option.none_or] at hmeaning
      rw [Option.none_or, SymbolTable.lookup_put, hsymbol.name, if_neg]
      · exact hmeaning
      · -- `name` has no value, and `other` has one
        rintro rfl
        rw [SymbolTable.valueOf, Option.map_eq_none_iff] at h
        rw [h] at hmeaning
        cases hmeaning

/-- The two modes agree. An expression has a kind and a value on the final pass exactly if it has
    them while layout is measured; a name waited for while measuring is the name that is undefined
    on the final pass; measuring never fails for an undefined name, and where it fails the final
    pass fails. Giving values to names that had none takes back no value and mends no failure. -/
theorem Expr.modes_agree (lookup : String → Option Symbol) (e : Expr) :
    (∀ kind value, e.eval { lookup, final := true } = .ok (.known kind value) ↔
      e.eval { lookup, final := false } = .ok (.known kind value)) ∧
    (∀ name, e.eval { lookup, final := false } = .ok (.unknown name) →
      e.eval { lookup, final := true } = .error (.undefined name)) ∧
    (∀ name, e.eval { lookup, final := false } ≠ .error (.undefined name)) ∧
    (∀ error, e.eval { lookup, final := false } = .error error →
      ∃ error', e.eval { lookup, final := true } = .error error') ∧
    ∀ lookup', Scoping.Extends { lookup, final := false } { lookup := lookup', final := false } →
      (∀ kind value, e.eval { lookup, final := false } = .ok (.known kind value) →
        e.eval { lookup := lookup', final := false } = .ok (.known kind value)) ∧
      ∀ error, e.eval { lookup, final := false } = .error error →
        ∃ error', e.eval { lookup := lookup', final := false } = .error error' := by
  have hmodes := Foretells.of_eval lookup e
  refine ⟨hmodes.known_iff, fun _ => hmodes.undefined, hmodes.ne_undefined,
    fun _ => hmodes.failing, fun lookup' hextends => ?_⟩
  have hcarries := Carries.of_eval hextends rfl e
  exact ⟨fun _ _ => hcarries.value, fun _ => hcarries.failing⟩

/-- A lamp at 64, and a way north that is referred to and not defined. -/
def lampTable : SymbolTable :=
  { symbols := [{ name := "LAMP", kind := .label, value := 64 },
      { name := "NORTH", kind := .unknown, value := 0 }] }

/-- The lamp and the way north cannot be added yet. Once the way north is 3, two bytes past the lamp
    are where they were, and the lamp is still no variable. -/
theorem lampTable_agrees :
    Expr.eval (.within {} lampTable true) (.add (.symbol "LAMP") (.symbol "NORTH")) =
      .error (.undefined "NORTH") ∧
    Expr.eval (.within {} (lampTable.define "NORTH" .constant 3 ⟨1, 0⟩).2 false)
      (.add (.symbol "LAMP") (.number 2)) = .ok (.known .label 66) ∧
    ∃ error, Expr.eval (.within {} (lampTable.define "NORTH" .constant 3 ⟨1, 0⟩).2 false)
      (.add (.symbol "NORTH") (.quote "LAMP")) = .error error := by
  have hwaits : lampTable.valueOf "NORTH" = none := rfl
  have hextends := extends_define {} hwaits .constant 3 ⟨1, 0⟩ false
  refine ⟨(Expr.modes_agree _ _).2.1 "NORTH" rfl, ?_, ?_⟩
  · exact ((Expr.modes_agree _ _).2.2.2.2 _ hextends).1 .label 66 rfl
  · exact ((Expr.modes_agree _ _).2.2.2.2 _ hextends).2 (.notVariable "LAMP") rfl

end ZAssembler
