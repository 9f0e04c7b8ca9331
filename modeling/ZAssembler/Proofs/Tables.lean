import ZAssembler.Proofs.DataValues

/-
  Symbol tables from pass to pass. A symbol remembers the pass that defined it; `DefinedBefore`
  bounds these passes. The tables of two passes match (`Matching`) if the same names are defined,
  with the same kinds and values, and the symbols that each pass has defined itself come from the
  same nodes. What a definition does then is the same in both passes.
-/

namespace ZAssembler

/-! ## Sites -/

namespace Assembly

theorem lookup_mention (t : SymbolTable) (name other : String) :
    (t.mention name).lookup other = t.lookup other ∨
      t.lookup other = none ∧ ∃ symbol, (t.mention name).lookup other = some symbol ∧
        symbol.isDefined = false ∧ symbol.site = none := by
  unfold SymbolTable.mention
  cases hl : t.lookup name with
  | some symbol => exact .inl rfl
  | none =>
    dsimp only
    rw [SymbolTable.lookup_put]
    by_cases heq : name = other
    · subst heq
      exact .inr ⟨hl, _, if_pos rfl, rfl, rfl⟩
    · exact .inl (if_neg heq)

/-- The symbols with the names in question were defined in passes before `pass`, if at all. -/
def DefinedBefore (pass : Nat) (among : String → Prop) (t : SymbolTable) : Prop :=
  ∀ name, among name → ∀ symbol site, t.lookup name = some symbol → symbol.site = some site →
    site.pass < pass

section Sites

variable {pass : Nat} {among : String → Prop} {t : SymbolTable}

theorem DefinedBefore.mono (h : DefinedBefore pass among t) {later : Nat} (hle : pass ≤ later) :
    DefinedBefore later among t := fun name hname symbol site hlookup hsite =>
  Nat.lt_of_lt_of_le (h name hname symbol site hlookup hsite) hle

theorem DefinedBefore.mention (h : DefinedBefore pass among t) (name : String) :
    DefinedBefore pass among (t.mention name) := by
  intro other hother symbol site hlookup hsite
  rcases lookup_mention t name other with heq | ⟨-, fresh, heq, -, hnone⟩
  · exact h other hother symbol site (heq.symm.trans hlookup) hsite
  · cases heq.symm.trans hlookup
    cases hnone.symm.trans hsite

theorem DefinedBefore.put (h : DefinedBefore pass among t) {symbol : Symbol}
    (hsymbol : among symbol.name → ∀ site, symbol.site = some site → site.pass < pass) :
    DefinedBefore pass among (t.put symbol) := by
  intro other hother found site hlookup hsite
  rw [SymbolTable.lookup_put] at hlookup
  split at hlookup
  · next heq =>
    cases hlookup
    exact hsymbol (heq ▸ hother) site hsite
  · exact h other hother found site hlookup hsite

/-- Names that were not defined before the pass are not taken in it. -/
theorem DefinedBefore.not_taken (h : DefinedBefore pass among t) {name : String}
    (hname : among name) {site : Site} (hsite : site.pass = pass) : ¬ Taken t name site := by
  rintro ⟨symbol, other, hlookup, -, hother, hpass, -⟩
  have hlt := h name hname symbol other hlookup hother
  omega

theorem DefinedBefore.define (h : DefinedBefore pass among t) (name : String) (kind : SymbolKind)
    (value : Int32) {site : Site} (hsite : site.pass < pass) :
    DefinedBefore pass among (t.define name kind value site).2 := by
  obtain ⟨-, old, heq⟩ | ⟨-, symbol, hentered, heq⟩ := define_cases t name kind value site
  · rw [heq]
    exact h
  · rw [heq]
    refine h.put fun _ other hother => ?_
    cases hentered.site.symm.trans hother
    exact hsite

theorem DefinedBefore.relocate (h : DefinedBefore pass among t) (name : String) (value : Int32) :
    DefinedBefore pass among (t.relocate name value) := by
  unfold SymbolTable.relocate
  split
  · next symbol hlookup =>
    refine h.put fun hname site hsite => ?_
    exact h _ hname symbol site (name_of_lookup hlookup ▸ hlookup) hsite
  · exact h

end Sites

end Assembly

/-! ## Definitions in two passes -/

/-- The symbol of a name, if it is defined. -/
def SymbolTable.defined (t : SymbolTable) (name : String) : Option Symbol :=
  (t.lookup name).filter Symbol.isDefined

namespace Assembly

/-- Symbols of the same kind and value. The one has its site in pass `p` if the other has the same
    one in pass `q`. -/
structure Alike (p q : Nat) (x y : Symbol) : Prop where
  kind : y.kind = x.kind
  value : y.value = x.value
  site : ∀ node, y.site = some ⟨q, node⟩ ↔ x.site = some ⟨p, node⟩

/-- The tables of passes `p` and `q` hold the same definition of a name. -/
def MatchingAt (p q : Nat) (g h : SymbolTable) (name : String) : Prop :=
  Option.Rel (Alike p q) (g.defined name) (h.defined name)

/-- The tables of passes `p` and `q` hold the same definitions. -/
def Matching (p q : Nat) (g h : SymbolTable) : Prop := ∀ name, MatchingAt p q g h name

section Matching

variable {p q : Nat} {g h : SymbolTable} {name : String}

theorem valueOf_eq (t : SymbolTable) (name : String) :
    t.valueOf name = (t.defined name).map Symbol.value := rfl

theorem MatchingAt.cases (hm : MatchingAt p q g h name) :
    g.defined name = none ∧ h.defined name = none ∨
      ∃ x y, g.defined name = some x ∧ h.defined name = some y ∧ Alike p q x y := by
  unfold MatchingAt at hm
  generalize g.defined name = x, h.defined name = y at hm
  cases hm with
  | none => exact .inl ⟨rfl, rfl⟩
  | some hxy => exact .inr ⟨_, _, rfl, rfl, hxy⟩

theorem MatchingAt.valueOf (hm : MatchingAt p q g h name) : h.valueOf name = g.valueOf name := by
  rw [valueOf_eq, valueOf_eq]
  obtain ⟨hg, hh⟩ | ⟨x, y, hg, hh, hxy⟩ := hm.cases
  · rw [hg, hh]
  · rw [hg, hh, Option.map_some, Option.map_some, hxy.value]

theorem defined_put (t : SymbolTable) (x : Symbol) (name : String) :
    (t.put x).defined name =
      if x.name = name then (some x).filter Symbol.isDefined else t.defined name := by
  unfold SymbolTable.defined
  rw [SymbolTable.lookup_put]
  split <;> rfl

/-- A name that is remembered has no value yet. -/
theorem defined_mention (t : SymbolTable) (name other : String) :
    (t.mention name).defined other = t.defined other := by
  unfold SymbolTable.defined
  rcases lookup_mention t name other with heq | ⟨hnone, symbol, heq, hdefined, -⟩
  · rw [heq]
  · rw [heq, hnone, Option.filter_some, hdefined]
    rfl

theorem matchingAt_put {x y : Symbol} (hname : y.name = x.name) (hxy : Alike p q x y) :
    MatchingAt p q (g.put x) (h.put y) x.name := by
  unfold MatchingAt
  have hdefined : y.isDefined = x.isDefined := by simp [Symbol.isDefined, hxy.kind]
  rw [defined_put, defined_put, if_pos rfl, if_pos hname, Option.filter_some,
    Option.filter_some, hdefined]
  split
  · exact .some hxy
  · exact .none

theorem taken_iff (t : SymbolTable) (name : String) (site : Site) :
    Taken t name site ↔ ∃ x, t.defined name = some x ∧ ∃ node, x.site = some ⟨site.pass, node⟩ ∧
      node ≠ site.node := by
  unfold SymbolTable.defined
  constructor
  · rintro ⟨x, ⟨pass, node⟩, hlookup, hdefined, hsite, rfl, hnode⟩
    exact ⟨x, Option.filter_eq_some_iff.mpr ⟨hlookup, hdefined⟩, node, hsite, hnode⟩
  · rintro ⟨x, hx, node, hsite, hnode⟩
    obtain ⟨hlookup, hdefined⟩ := Option.filter_eq_some_iff.mp hx
    exact ⟨x, _, hlookup, hdefined, hsite, rfl, hnode⟩

theorem MatchingAt.taken (hm : MatchingAt p q g h name) (node : Nat) :
    Taken h name ⟨q, node⟩ ↔ Taken g name ⟨p, node⟩ := by
  rw [taken_iff, taken_iff]
  obtain ⟨hg, hh⟩ | ⟨x, y, hg, hh, hxy⟩ := hm.cases <;> rw [hg, hh]
  · simp
  · simp [hxy.site]

/-- The kind that a refused definition reports. -/
theorem define_of_taken {t : SymbolTable} {name : String} {site : Site} (htaken : Taken t name site)
    (kind : SymbolKind) (value : Int32) :
    ∃ x, t.defined name = some x ∧ t.define name kind value site = (.duplicate x.kind, t) := by
  obtain ⟨x, other, hlookup, hdefined, hsite, hpass, hnode⟩ := htaken
  refine ⟨x, Option.filter_eq_some_iff.mpr ⟨hlookup, hdefined⟩, ?_⟩
  unfold SymbolTable.define
  simp [hlookup, hdefined, hsite, hpass, hnode]

theorem defined_define (t : SymbolTable) (kind : SymbolKind) (value : Int32) (site : Site)
    {other : String} (hne : other ≠ name) :
    (t.define name kind value site).2.defined other = t.defined other := by
  obtain ⟨-, _, heq⟩ | ⟨-, x, hx, heq⟩ := define_cases t name kind value site
  · rw [heq]
  · rw [heq, defined_put, if_neg fun h => hne (h.symm.trans hx.name)]

/-- The symbols that the same node enters in two passes. -/
theorem alike_entered {x y : Symbol} {kind : SymbolKind} {value : Int32} {node : Nat}
    (hx : Entered x name kind value ⟨p, node⟩) (hy : Entered y name kind value ⟨q, node⟩) :
    Alike p q x y := by
  refine ⟨hy.kind.trans hx.kind.symm, hy.value.trans hx.value.symm, fun other => ?_⟩
  rw [hx.site, hy.site]
  simp

/-- A node that defines a symbol does the same in both passes. -/
theorem MatchingAt.define (hm : MatchingAt p q g h name) (kind : SymbolKind) (value : Int32)
    (node : Nat) : (h.define name kind value ⟨q, node⟩).1 = (g.define name kind value ⟨p, node⟩).1 ∧
      MatchingAt p q (g.define name kind value ⟨p, node⟩).2
        (h.define name kind value ⟨q, node⟩).2 name := by
  obtain ⟨htaken, -⟩ | ⟨hfree, x, hx, hg⟩ := define_cases g name kind value ⟨p, node⟩
  · obtain ⟨x, hx, hg⟩ := define_of_taken htaken kind value
    obtain ⟨y, hy, hh⟩ := define_of_taken ((hm.taken node).mpr htaken) kind value
    rw [hg, hh]
    refine ⟨?_, hm⟩
    unfold MatchingAt at hm
    rw [hx, hy] at hm
    cases hm with
    | some hxy => rw [hxy.kind]
  · obtain ⟨htaken, -⟩ | ⟨-, y, hy, hh⟩ := define_cases h name kind value ⟨q, node⟩
    · exact absurd ((hm.taken node).mp htaken) hfree
    · rw [hg, hh, hm.valueOf]
      have hmatch : MatchingAt p q (g.put x) (h.put y) x.name :=
        matchingAt_put (hy.name.trans hx.name.symm) (alike_entered hx hy)
      exact ⟨rfl, hx.name ▸ hmatch⟩

theorem defined_relocate (t : SymbolTable) (name other : String) (value : Int32) :
    (t.relocate name value).defined other =
      if name = other then (t.defined name).map ({ · with value }) else t.defined other := by
  unfold SymbolTable.relocate
  cases hlookup : t.lookup name with
  | none =>
    dsimp only
    split
    · next heq =>
      subst heq
      unfold SymbolTable.defined
      rw [hlookup]
      rfl
    · rfl
  | some x =>
    dsimp only
    rw [defined_put]
    show (if x.name = other then _ else _) = _
    rw [name_of_lookup hlookup]
    split
    · unfold SymbolTable.defined
      rw [hlookup, Option.filter_some, Option.filter_some]
      show (if x.isDefined = true then _ else _) = _
      split
      · rw [Option.map_some, name_of_lookup hlookup]
      · rfl
    · rfl

theorem Matching.relocate (hm : Matching p q g h) (name : String) (value : Int32) :
    Matching p q (g.relocate name value) (h.relocate name value) := by
  intro other
  unfold MatchingAt
  rw [defined_relocate, defined_relocate]
  split
  · obtain ⟨hg, hh⟩ | ⟨x, y, hg, hh, hxy⟩ := (hm name).cases <;> rw [hg, hh]
    · exact .none
    · exact .some ⟨hxy.kind, rfl, hxy.site⟩
  · exact hm other

theorem DefinedBefore.fresh {t : SymbolTable} {pass : Nat}
    (ht : DefinedBefore pass (fun _ => True) t) {x : Symbol} (hx : t.defined name = some x)
    (node : Nat) : x.site ≠ some ⟨pass, node⟩ := fun hsite =>
  Nat.lt_irrefl _ (ht name trivial x _ (Option.filter_eq_some_iff.mp hx).1 hsite)

/-- Tables of the same kinds and values match before either pass has defined anything. -/
theorem matching_of_before (hg : DefinedBefore p (fun _ => True) g)
    (hh : DefinedBefore q (fun _ => True) h)
    (hsame : ∀ name, (h.defined name).map (fun x => (x.kind, x.value)) =
      (g.defined name).map fun x => (x.kind, x.value)) : Matching p q g h := by
  intro name
  have heq := hsame name
  unfold MatchingAt
  cases hx : g.defined name with
  | none =>
    rw [hx, Option.map_none, Option.map_eq_none_iff] at heq
    rw [heq]
    exact .none
  | some x =>
    rw [hx, Option.map_some, Option.map_eq_some_iff] at heq
    obtain ⟨y, hy, hxy⟩ := heq
    rw [hy]
    obtain ⟨hkind, hvalue⟩ := Prod.mk.inj hxy
    exact .some ⟨hkind, hvalue, fun node => iff_of_false (hh.fresh hy node) (hg.fresh hx node)⟩

end Matching

end Assembly

end ZAssembler
