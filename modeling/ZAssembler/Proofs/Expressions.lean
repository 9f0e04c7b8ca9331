import ZAssembler.Expr

/-
  Evaluation by results. An operator of an expression is a function of its parts' results
  (`unquote`, `combine`), and each of these functions has its inversions here. A relation of results
  that both functions keep is carried from the names of an expression to the expression
  (`Congruent.eval`), so what two evaluations have in common is said of one name and of each
  operator.

  A result hangs on what the names mean (`Scoping.meaning`) and on whether it may wait for a name.
-/

namespace ZAssembler

/-- The kind and the value of a name, if it has one. -/
def Scoping.meaning (sc : Scoping) (name : String) : Option (SymbolKind × Int32) :=
  ((sc.lookup name).filter Symbol.isDefined).map fun x => (x.kind, x.value)

namespace Expr

/-- The names that an expression mentions. -/
def names : Expr → List String
  | number _ => []
  | symbol name | quote name => [name]
  | add left right => left.names ++ right.names

/-! ## Operators on results -/

/-- The result of a quoted name, from the result of the name. -/
def unquote (name : String) : Except EvalError Resolved → Except EvalError Resolved
  | .ok (.known .var value) => .ok (.known .constant value)
  | .ok (.known _ _) => .error (.notVariable name)
  | other => other

theorem eval_quote (sc : Scoping) (name : String) :
    (quote name).eval sc = unquote name (resolve sc name) := rfl

/-- The result of a sum, from the results of its sides. -/
def combine : Except EvalError Resolved → Except EvalError Resolved → Except EvalError Resolved
  | .error e, _ => .error e
  | .ok _, .error e => .error e
  | .ok (.unknown name), .ok _ => .ok (.unknown name)
  | .ok (.known _ _), .ok (.unknown name) => .ok (.unknown name)
  | .ok (.known lk lv), .ok (.known rk rv) => sum lk lv rk rv

theorem eval_add (sc : Scoping) (left right : Expr) :
    (add left right).eval sc = combine (left.eval sc) (right.eval sc) := by
  rw [eval]
  rcases left.eval sc with _ | _ | _ <;> rcases right.eval sc with _ | _ | _ <;> rfl

/-- A sum of known values has a value, or one of the kinds cannot be added. -/
theorem sum_cases (lk : SymbolKind) (lv : Int32) (rk : SymbolKind) (rv : Int32) :
    (∃ kind, kind ≠ .unknown ∧ sum lk lv rk rv = .ok (.known kind (lv + rv))) ∨
      ∃ kind, sum lk lv rk rv = .error (.notAddable kind) := by
  unfold sum
  split
  · exact .inr ⟨lk, rfl⟩
  · split
    · exact .inr ⟨rk, rfl⟩
    · exact .inl ⟨_, by split <;> decide, rfl⟩

section Inversions

variable {name : String} {r left right : Except EvalError Resolved} {kind : SymbolKind}
    {value : Int32}

/-- Only a variable can be quoted. -/
theorem unquote_known (h : unquote name r = .ok (.known kind value)) :
    kind = .constant ∧ r = .ok (.known .var value) := by
  unfold unquote at h
  split at h
  · cases h
    exact ⟨rfl, rfl⟩
  · cases h
  · next hne => exact absurd h (hne kind value)

theorem unquote_unknown {other : String} (h : unquote name r = .ok (.unknown other)) :
    r = .ok (.unknown other) := by
  unfold unquote at h
  split at h
  · cases h
  · cases h
  · exact h

/-- A sum with a value has sides with values, and adds them. -/
theorem combine_known (h : combine left right = .ok (.known kind value)) :
    ∃ lk lv rk rv, left = .ok (.known lk lv) ∧ right = .ok (.known rk rv) ∧
      sum lk lv rk rv = .ok (.known kind value) ∧ kind ≠ .unknown ∧ value = lv + rv := by
  unfold combine at h
  split at h
  · cases h
  · cases h
  · cases h
  · cases h
  · next lk lv rk rv =>
    obtain ⟨kind', hkind, heq⟩ | ⟨kind', heq⟩ := sum_cases lk lv rk rv
    · cases heq.symm.trans h
      exact ⟨lk, lv, rk, rv, rfl, rfl, h, hkind, rfl⟩
    · cases heq.symm.trans h

/-- A sum that waits has a side that waits. -/
theorem combine_unknown (h : combine left right = .ok (.unknown name)) :
    left = .ok (.unknown name) ∨ right = .ok (.unknown name) := by
  unfold combine at h
  split at h
  · cases h
  · cases h
  · cases h
    exact .inl rfl
  · cases h
    exact .inr rfl
  · next lk lv rk rv =>
    obtain ⟨kind, -, heq⟩ | ⟨kind, heq⟩ := sum_cases lk lv rk rv <;> cases heq.symm.trans h

end Inversions

/-! ## Names -/

theorem resolve_eq (sc : Scoping) (name : String) :
    resolve sc name = match sc.meaning name with
      | some (kind, value) => .ok (.known kind value)
      | none => if sc.final then .error (.undefined name) else .ok (.unknown name) := by
  unfold resolve Scoping.meaning
  cases (sc.lookup name).filter Symbol.isDefined <;> rfl

/-- A name has its meaning for its result, and no other. -/
theorem resolve_known_iff {sc : Scoping} {name : String} {kind : SymbolKind} {value : Int32} :
    resolve sc name = .ok (.known kind value) ↔ sc.meaning name = some (kind, value) := by
  rw [resolve_eq]
  cases sc.meaning name with
  | none =>
    refine ⟨fun h => ?_, fun h => by cases h⟩
    dsimp only at h
    split at h <;> cases h
  | some pair => simp [Prod.ext_iff]

theorem resolve_ne_unknown {sc : Scoping} (h : sc.final = true) (name other : String) :
    resolve sc name ≠ .ok (.unknown other) := by
  rw [resolve_eq, h]
  cases sc.meaning name with
  | none => exact fun h => by cases h
  | some pair => exact fun h => by cases h

theorem kind_of_meaning {sc : Scoping} {name : String} {kind : SymbolKind} {value : Int32}
    (h : sc.meaning name = some (kind, value)) : kind ≠ .unknown := by
  obtain ⟨symbol, hsymbol, heq⟩ := Option.map_eq_some_iff.mp h
  cases heq
  simpa [Symbol.isDefined] using (Option.filter_eq_some_iff.mp hsymbol).2

/-! ## One evaluation -/

/-- A value is of a kind that symbols with a value have. -/
theorem kind_of_eval {sc : Scoping} {e : Expr} {kind : SymbolKind} {value : Int32}
    (h : e.eval sc = .ok (.known kind value)) : kind ≠ .unknown := by
  cases e with
  | number n =>
    cases h
    decide
  | symbol name => exact kind_of_meaning (resolve_known_iff.mp h)
  | quote name =>
    rw [eval_quote] at h
    rw [(unquote_known h).1]
    decide
  | add left right =>
    rw [eval_add] at h
    obtain ⟨-, -, -, -, -, -, -, hkind, -⟩ := combine_known h
    exact hkind

/-- A value takes a meaning of every name. -/
theorem meaning_of_eval {sc : Scoping} {e : Expr} {kind : SymbolKind} {value : Int32}
    (h : e.eval sc = .ok (.known kind value)) :
    ∀ name ∈ e.names, (sc.meaning name).isSome = true := by
  induction e generalizing kind value with
  | number n => simp [names]
  | symbol name => simp [names, resolve_known_iff.mp h]
  | quote name => simp [names, resolve_known_iff.mp (unquote_known h).2]
  | add left right ihl ihr =>
    rw [eval_add] at h
    obtain ⟨lk, lv, rk, rv, hl, hr, -⟩ := combine_known h
    intro name hname
    exact (List.mem_append.mp hname).elim (ihl hl name) (ihr hr name)

/-- Where a name without value is an error, no evaluation waits. -/
theorem eval_ne_unknown {sc : Scoping} (h : sc.final = true) (e : Expr) (name : String) :
    e.eval sc ≠ .ok (.unknown name) := by
  intro hwaits
  induction e with
  | number n => cases hwaits
  | symbol other => exact resolve_ne_unknown h other name hwaits
  | quote other => exact resolve_ne_unknown h other name (unquote_unknown hwaits)
  | add left right ihl ihr =>
    rw [eval_add] at hwaits
    exact (combine_unknown hwaits).elim ihl ihr

/-! ## Two evaluations -/

/-- A relation of results that the operators keep. -/
structure Congruent (R : Except EvalError Resolved → Except EvalError Resolved → Prop) : Prop where
  number (value : Int32) : R (.ok (.known .constant value)) (.ok (.known .constant value))
  unquote {r r' : Except EvalError Resolved} (name : String) (h : R r r') :
    R (unquote name r) (unquote name r')
  combine {left left' right right' : Except EvalError Resolved} (hl : R left left')
    (hr : R right right') : R (combine left right) (combine left' right')

/-- The results of an expression are related if those of its names are. -/
theorem Congruent.eval {R : Except EvalError Resolved → Except EvalError Resolved → Prop}
    (hR : Congruent R) {sc sc' : Scoping} (e : Expr)
    (h : ∀ name ∈ e.names, R (resolve sc name) (resolve sc' name)) :
    R (e.eval sc) (e.eval sc') := by
  induction e with
  | number value => exact hR.number value
  | symbol name => exact h name (by simp [names])
  | quote name =>
    rw [eval_quote, eval_quote]
    exact hR.unquote name (h name (by simp [names]))
  | add left right ihl ihr =>
    rw [eval_add, eval_add]
    exact hR.combine (ihl fun name hname => h name (by simp [names, hname]))
      (ihr fun name hname => h name (by simp [names, hname]))

/-! ## Names that mean the same -/

/-- Where the one has a value the other has the same. -/
def SameValue (r r' : Except EvalError Resolved) : Prop :=
  ∀ kind value, r' = .ok (.known kind value) ↔ r = .ok (.known kind value)

/-- The second result is the first, which does not wait; or it is an error for want of a value, and
    the first is no value. -/
def Decided (r r' : Except EvalError Resolved) : Prop :=
  r' = r ∧ (∀ name, r ≠ .ok (.unknown name)) ∨
    (∃ name, r' = .error (.undefined name)) ∧ ∀ kind value, r ≠ .ok (.known kind value)

theorem congruent_eq : Congruent Eq where
  number _ := rfl
  unquote name h := by rw [h]
  combine hl hr := by rw [hl, hr]

theorem congruent_sameValue : Congruent SameValue where
  number _ _ _ := Iff.rfl
  unquote name h kind value := by
    constructor
    · intro hknown
      obtain ⟨rfl, hr⟩ := unquote_known hknown
      rw [(h _ _).mp hr]
      rfl
    · intro hknown
      obtain ⟨rfl, hr⟩ := unquote_known hknown
      rw [(h _ _).mpr hr]
      rfl
  combine hl hr kind value := by
    constructor
    · intro hknown
      obtain ⟨lk, lv, rk, rv, hleft, hright, hsum, -⟩ := combine_known hknown
      rw [(hl _ _).mp hleft, (hr _ _).mp hright]
      exact hsum
    · intro hknown
      obtain ⟨lk, lv, rk, rv, hleft, hright, hsum, -⟩ := combine_known hknown
      rw [(hl _ _).mpr hleft, (hr _ _).mpr hright]
      exact hsum

theorem Decided.combine {left left' right right' : Except EvalError Resolved}
    (hl : Decided left left') (hr : Decided right right') :
    Decided (combine left right) (combine left' right') := by
  rcases hl with ⟨rfl, hlwaits⟩ | ⟨⟨name, rfl⟩, hlknown⟩
  · rcases left' with error | l
    · exact .inl ⟨rfl, fun name h => by cases h⟩
    · rcases hr with ⟨rfl, hrwaits⟩ | ⟨⟨name, rfl⟩, hrknown⟩
      · refine .inl ⟨rfl, fun name h => ?_⟩
        exact (combine_unknown h).elim (hlwaits name) (hrwaits name)
      · refine .inr ⟨⟨name, rfl⟩, fun kind value h => ?_⟩
        obtain ⟨-, -, rk, rv, -, hright, -⟩ := combine_known h
        exact hrknown rk rv hright
  · refine .inr ⟨⟨name, rfl⟩, fun kind value h => ?_⟩
    obtain ⟨lk, lv, -, -, hleft, -⟩ := combine_known h
    exact hlknown lk lv hleft

theorem congruent_decided : Congruent Decided where
  number _ := .inl ⟨rfl, fun _ h => by cases h⟩
  unquote name h := by
    rcases h with ⟨rfl, hwaits⟩ | ⟨⟨other, rfl⟩, hknown⟩
    · exact .inl ⟨rfl, fun other h => hwaits other (unquote_unknown h)⟩
    · exact .inr ⟨⟨other, rfl⟩, fun _ value h => hknown .var value (unquote_known h).2⟩
  combine := Decided.combine

section Meaning

variable {sc sc' : Scoping}

/-- An evaluation hangs on what the names of its expression mean. -/
theorem eval_of_meaning (hfinal : sc'.final = sc.final) (e : Expr)
    (hmeaning : ∀ name ∈ e.names, sc'.meaning name = sc.meaning name) : e.eval sc' = e.eval sc := by
  refine congruent_eq.eval e fun name hname => ?_
  rw [resolve_eq, resolve_eq, hmeaning name hname, hfinal]

/-- Its value hangs on nothing else. -/
theorem eval_known_iff (e : Expr) (hmeaning : ∀ name ∈ e.names, sc'.meaning name = sc.meaning name)
    (kind : SymbolKind) (value : Int32) :
    e.eval sc' = .ok (.known kind value) ↔ e.eval sc = .ok (.known kind value) := by
  refine congruent_sameValue.eval e (fun name hname kind value => ?_) kind value
  rw [resolve_known_iff, resolve_known_iff, hmeaning name hname]

/-- An evaluation that may not wait gives what one that may gives, or it finds a name undefined that
    the other waits for. -/
theorem eval_of_final (hfinal : sc'.final = true) (e : Expr)
    (hmeaning : ∀ name ∈ e.names, sc'.meaning name = sc.meaning name) :
    e.eval sc' = e.eval sc ∧ (∀ name, e.eval sc ≠ .ok (.unknown name)) ∨
      (∃ name, e.eval sc' = .error (.undefined name)) ∧
        ∀ kind value, e.eval sc ≠ .ok (.known kind value) := by
  refine congruent_decided.eval e fun name hname => ?_
  unfold Decided
  rw [resolve_eq, resolve_eq, hmeaning name hname, hfinal]
  cases sc.meaning name with
  | none =>
    refine .inr ⟨⟨name, rfl⟩, fun kind value h => ?_⟩
    dsimp only at h
    split at h <;> cases h
  | some pair => exact .inl ⟨rfl, fun _ h => by cases h⟩

end Meaning

/-! ## Operands -/

theorem needsLong_symbol (sc : Scoping) (name : String) :
    (symbol name).needsLong sc = match sc.meaning name with
      | some (kind, value) => kind != .var && !fitsByte value
      | none => true := by
  unfold needsLong Scoping.meaning
  cases (sc.lookup name).filter Symbol.isDefined <;> rfl

/-- The size of an operand hangs on what the names mean, and not on whether an evaluation may wait:
    a sum without a value takes a word, whatever the reason. -/
theorem needsLong_of_meaning {sc sc' : Scoping} (e : Expr)
    (hmeaning : ∀ name ∈ e.names, sc'.meaning name = sc.meaning name) :
    e.needsLong sc' = e.needsLong sc := by
  induction e with
  | number value => rfl
  | quote name => rfl
  | symbol name => rw [needsLong_symbol, needsLong_symbol, hmeaning name (by simp [names])]
  | add left right ihl ihr =>
    have hvalue := eval_known_iff (left.add right) hmeaning
    unfold needsLong
    rw [ihl fun name hname => hmeaning name (by simp [names, hname]),
      ihr fun name hname => hmeaning name (by simp [names, hname])]
    refine congrArg _ ?_
    split
    · next kind value h => rw [(hvalue kind value).mp h]
    · next hnone =>
      split
      · next kind value h => exact absurd ((hvalue kind value).mpr h) (hnone kind value)
      · rfl

end Expr

end ZAssembler
