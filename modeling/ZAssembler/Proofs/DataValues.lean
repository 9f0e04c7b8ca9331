import ZAssembler.Proofs.GlobalValues

/-
  Data values. A node that writes data does its work in pieces, of which some write the value of an
  expression. The story holds what a settled walk wrote outside the vocabulary blocks, and that is
  the value which the expression had when it was written. Its globals may be held to another value
  at that time, which is then the one that they end with: this is how a story can hold a value that
  is out of date.
-/

namespace ZAssembler

/-! ## Expressions -/

namespace Expr

/-- The number that an expression stands for, where `value` gives the numbers of its names. -/
def total (value : String → Option Int32) : Expr → Option Int32
  | number n => some n
  | symbol name | quote name => value name
  | add left right =>
    match left.total value, right.total value with
    | some l, some r => some (l + r)
    | _, _ => none

/-- The value of an expression whose names are those of a table. -/
def valueIn (t : SymbolTable) (e : Expr) : Option Int32 :=
  match e.eval { lookup := t.lookup, final := true } with
  | .ok (.known _ value) => some value
  | _ => none

/-- An evaluation looks up the names of its expression only. -/
theorem eval_congr {sc sc' : Scoping} (hfinal : sc.final = sc'.final) (e : Expr)
    (h : ∀ name ∈ e.names, sc.lookup name = sc'.lookup name) : e.eval sc = e.eval sc' := by
  refine eval_of_meaning hfinal e fun name hname => ?_
  unfold Scoping.meaning
  rw [h name hname]

theorem total_congr {value value' : String → Option Int32} (e : Expr)
    (h : ∀ name ∈ e.names, value name = value' name) : e.total value = e.total value' := by
  induction e with
  | number n => rfl
  | symbol name => exact h name (by simp [names])
  | quote name => exact h name (by simp [names])
  | add left right ihl ihr =>
    unfold total
    rw [ihl fun name hname => h name (by simp [names, hname]),
      ihr fun name hname => h name (by simp [names, hname])]

theorem isSome_total_iff {value : String → Option Int32} (e : Expr) :
    (e.total value).isSome = true ↔ ∀ name ∈ e.names, (value name).isSome = true := by
  induction e with
  | number n => simp [total, names]
  | symbol name => simp [total, names]
  | quote name => simp [total, names]
  | add left right ihl ihr =>
    have hadd : ((add left right).total value).isSome = true ↔
        (left.total value).isSome = true ∧ (right.total value).isSome = true := by
      rw [total]
      cases left.total value <;> cases right.total value <;> simp
    rw [hadd, ihl, ihr, names]
    simp only [List.mem_append, or_imp, forall_and]

theorem valueOf_of_resolve {t : SymbolTable} {final : Bool} {name : String} {kind : SymbolKind}
    {value : Int32} (h : resolve { lookup := t.lookup, final } name = .ok (.known kind value)) :
    t.valueOf name = some value := by
  obtain ⟨symbol, hsymbol, heq⟩ := Option.map_eq_some_iff.mp (resolve_known_iff.mp h)
  cases heq
  exact Option.map_eq_some_iff.mpr ⟨symbol, hsymbol, rfl⟩

/-- A value is the sum of the values of the names. -/
theorem total_of_eval {t : SymbolTable} (e : Expr) {kind : SymbolKind} {value : Int32}
    (h : e.eval { lookup := t.lookup, final := true } = .ok (.known kind value)) :
    e.total t.valueOf = some value := by
  induction e generalizing kind value with
  | number n =>
    cases h
    rfl
  | symbol name => exact valueOf_of_resolve h
  | quote name => exact valueOf_of_resolve (unquote_known h).2
  | add left right ihl ihr =>
    rw [eval_add] at h
    obtain ⟨lk, lv, rk, rv, hl, hr, -, -, rfl⟩ := combine_known h
    rw [total, ihl hl, ihr hr]

theorem total_of_valueIn {t : SymbolTable} {e : Expr} {value : Int32}
    (h : e.valueIn t = some value) : e.total t.valueOf = some value := by
  unfold valueIn at h
  split at h
  · next he =>
    cases h
    exact total_of_eval e he
  · cases h

end Expr

namespace Assembly

/-! ## The pieces of a node's work -/

/-- A piece of a node's work: a value that is written, or anything else. -/
inductive Piece
  | value (width : Width) (e : Expr)
  | other (step : Step Unit)

def Piece.run (cx : Context) : Piece → Step Unit
  | .value width e => writeValue cx width e
  | .other step => step

/-- The default of a variable or a local. -/
def Piece.ofDefault : Option Expr → Piece
  | some e => .value .word e
  | none => .other (storeWord 0)

/-- The pieces of a directive that writes values: the elements of `.BYTE` and `.WORD`, the default
    of a global variable, the fields of an object, the defaults of a routine's locals. -/
def directivePieces (cx : Context) : Directive → List Piece
  | .byte es => es.map (.value .byte)
  | .word es => es.map (.value .word)
  | .gvar name default => [.other (variableHead cx name), .ofDefault default]
  | .object entry =>
    let layout := objectLayout cx.version
    .other (objectHead cx entry) :: (entry.flags.map (.value .word) ++
      .other (pad (2 * (layout.flagWords - entry.flags.length))) ::
        ([entry.parent, entry.sibling, entry.child].map (.value layout.linkWidth) ++
          [.value .word entry.properties]))
  | .funct name locals =>
    .other (do let _ ← headOpening cx name locals) ::
      if cx.version.hasLocalDefaults then (locals.take maxLocals).map (.ofDefault ·.default) else []
  | _ => []

def nodePieces (cx : Context) (n : Node) : List Piece :=
  match n.kind with
  | .directive d => directivePieces cx d
  | _ => []

section Pieces

variable {cx : Context} {n : Node} {s t : State}

theorem run_ofDefault (default : Option Expr) :
    (Piece.ofDefault default).run cx = writeDefault cx default := by
  cases default <;> rfl

theorem forM_values (width : Width) (es : List Expr) :
    forM (es.map (.value width)) (Piece.run cx) = values cx width es :=
  List.forM_map

theorem globalVariable_pieces (name : String) (default : Option Expr) :
    globalVariable cx name default =
      forM (directivePieces cx (.gvar name default)) (Piece.run cx) := by
  rw [globalVariable_eq, directivePieces, List.forM_cons, List.forM_cons, List.forM_nil,
    run_ofDefault, bind_pure_unit]
  rfl

theorem object_pieces (entry : ObjectEntry) :
    object cx entry = forM (directivePieces cx (.object entry)) (Piece.run cx) := by
  rw [object_eq, directivePieces]
  simp only [List.forM_cons, List.forM_append, forM_values, List.forM_nil, bind_pure_unit]
  rfl

/-- The head of a routine goes on after its pieces. -/
theorem routineHead_pieces (hm : cx.mode = .assembling) {name : String} {locals : List LocalDecl}
    (hnode : n.kind = .directive (.funct name locals))
    (h : routineHead cx name locals s = .ok () t) :
    ∃ u, forM (directivePieces cx (.funct name locals)) (Piece.run cx) s = .ok () u ∧
      Changes cx n u t := by
  rw [routineHead_eq] at h
  obtain ⟨start, u, hopening, h⟩ := bind_ok h
  have hhead : (Piece.other (do let _ ← headOpening cx name locals)).run cx s = .ok () u :=
    bind_of_ok hopening
  rw [directivePieces, List.forM_cons, bind_of_ok hhead]
  have hlabels (v : State) : Work n 0 cx cx .changing v (predeclareLabels start)
      (predeclareLabels start) := work_predeclareLabels hnode start v
  by_cases hversion : cx.version.hasLocalDefaults = true
  · obtain ⟨⟨⟩, v, hdefaults, hrest⟩ := bind_ok h
    unfold localDefaults at hdefaults
    rw [if_pos hversion] at hdefaults
    refine ⟨v, ?_, ((hlabels v).does hm).of_ok hrest⟩
    rw [if_pos hversion, List.forM_map]
    simp only [run_ofDefault]
    exact hdefaults
  · rw [if_neg hversion]
    have hrest := (work_localDefaults (.refl cx) name (locals.take maxLocals) u).bind
      fun _ v _ => hlabels v
    exact ⟨u, rfl, (hrest.does hm).of_ok h⟩

/-- A node does its pieces first. -/
theorem node_pieces (hm : cx.mode = .assembling) (h : node cx n s = .ok () t) :
    ∃ u, forM (nodePieces cx n) (Piece.run cx) s = .ok () u ∧ Changes cx n u t := by
  have hnone : ∃ u, forM [] (Piece.run cx) s = .ok () u ∧ Changes cx n u t :=
    ⟨s, rfl, (node_does hm s).of_ok h⟩
  unfold node at h
  unfold nodePieces
  cases hnode : n.kind with
  | directive d =>
    rw [hnode] at h
    dsimp only at h ⊢
    cases d with
    | byte es =>
      rw [directivePieces, forM_values]
      exact ⟨t, h, .refl⟩
    | word es =>
      rw [directivePieces, forM_values]
      exact ⟨t, h, .refl⟩
    | gvar name default => exact ⟨t, globalVariable_pieces name default ▸ h, .refl⟩
    | object entry => exact ⟨t, object_pieces entry ▸ h, .refl⟩
    | funct name locals => exact routineHead_pieces hm hnode h
    | _ => exact hnone
  | _ => exact hnone

theorem work_ofDefault (default : Option Expr) (s : State) :
    Work n 0 cx cx .changing s ((Piece.ofDefault default).run cx)
      ((Piece.ofDefault default).run cx) := by
  rw [run_ofDefault]
  exact work_writeDefault (.refl cx) default s

theorem work_piece {piece : Piece} (h : piece ∈ nodePieces cx n) (s : State) :
    Work n 0 cx cx .changing s (piece.run cx) (piece.run cx) := by
  have hvalues : ∀ {width} {es : List Expr}, piece ∈ es.map (.value width) →
      Work n 0 cx cx .changing s (piece.run cx) (piece.run cx) := by
    intro width es hmem
    obtain ⟨e, -, rfl⟩ := List.mem_map.mp hmem
    exact work_writeValue (.refl cx) width e s
  unfold nodePieces at h
  cases hnode : n.kind with
  | directive d =>
    have hlabel : ∀ label, n.kind ≠ .globalLabel label := by simp [hnode]
    rw [hnode] at h
    dsimp only at h
    cases d with
    | byte es => exact hvalues h
    | word es => exact hvalues h
    | gvar name default =>
      simp only [directivePieces, List.mem_cons, List.not_mem_nil, or_false] at h
      rcases h with rfl | rfl
      · exact work_variableHead (.refl cx) hlabel (by simp [Node.globalVar?, hnode]) name s
      · exact work_ofDefault default s
    | object entry =>
      simp only [directivePieces, List.mem_cons, List.mem_append, List.not_mem_nil, or_false] at h
      rcases h with rfl | h | rfl | h | rfl
      · exact work_objectHead (.refl cx) hlabel entry (by simp [Node.object?, hnode]) s
      · exact hvalues h
      · exact work_store _ s
      · exact hvalues h
      · exact work_writeValue (.refl cx) _ _ s
    | funct name locals =>
      rw [directivePieces] at h
      rcases List.mem_cons.mp h with rfl | h
      · exact (work_headOpening (.refl cx) hnode s).bind fun _ _ _ => .pure _
      · split at h
        · obtain ⟨decl, -, rfl⟩ := List.mem_map.mp h
          exact work_ofDefault _ s
        · cases h
    | _ => cases h
  | _ =>
    rw [hnode] at h
    cases h

end Pieces

/-! ## Values that are written -/

/-- A value that was written: its width and expression, and the state in which it was. -/
structure Write where
  width : Width
  expr : Expr
  before : State

/-- The values that pieces write. -/
def pieceWrites (cx : Context) : List Piece → State → List Write
  | [], _ => []
  | piece :: rest, s =>
    match piece.run cx s with
    | .ok () t =>
      match piece with
      | .value width e => ⟨width, e, s⟩ :: pieceWrites cx rest t
      | .other _ => pieceWrites cx rest t
    | .error _ _ => []

/-- The values that a visit wrote. -/
def Visit.writes (v : Visit) (cx : Context) : List Write :=
  pieceWrites cx (nodePieces cx v.node) v.before

section Writes

variable {cx : Context} {n : Node} {s t : State}

/-- A value is written between two changes of its node. -/
theorem mem_pieceWrites {R : State → State → Prop} [Std.Refl R] [IsTrans State R]
    {pieces : List Piece} (hpieces : ∀ piece ∈ pieces, ∀ s, Does R (piece.run cx) s)
    (h : forM pieces (Piece.run cx) s = .ok () t) {w : Write} (hw : w ∈ pieceWrites cx pieces s) :
    ∃ u, R s w.before ∧ writeValue cx w.width w.expr w.before = .ok () u ∧ R u t := by
  induction pieces generalizing s with
  | nil => cases hw
  | cons piece rest ih =>
    obtain ⟨u, hpiece, hrest⟩ := forM_cons_ok h
    have hnext := fun p hp => hpieces p (List.mem_cons_of_mem _ hp)
    have hlater : w ∈ pieceWrites cx rest u →
        ∃ u, R s w.before ∧ writeValue cx w.width w.expr w.before = .ok () u ∧ R u t := by
      intro hw
      obtain ⟨v, hbefore, hwrite, hafter⟩ := ih hnext hrest hw
      have hfirst := (hpieces piece List.mem_cons_self s).of_ok hpiece
      exact ⟨v, trans_of R hfirst hbefore, hwrite, hafter⟩
    unfold pieceWrites at hw
    rw [hpiece] at hw
    cases piece with
    | value width e =>
      rcases List.mem_cons.mp hw with rfl | hw
      · exact ⟨u, refl_of R s, hpiece, (does_forM rest _ hnext u).of_ok hrest⟩
      · exact hlater hw
    | other step => exact hlater hw

theorem mem_writes (hm : cx.mode = .assembling) {v : Visit}
    (h : node cx v.node v.before = .ok () v.after) {w : Write} (hw : w ∈ v.writes cx) :
    ∃ u, Changes cx v.node v.before w.before ∧ writeValue cx w.width w.expr w.before = .ok () u ∧
      Changes cx v.node u v.after := by
  obtain ⟨t, hpieces, hrest⟩ := node_pieces hm h
  obtain ⟨u, hbefore, hwrite, hafter⟩ :=
    mem_pieceWrites (fun piece hp s => (work_piece hp s).does hm) hpieces hw
  exact ⟨u, hbefore, hwrite, hafter.trans hrest⟩

/-- The end of a block writes no value. -/
theorem writes_close {v : Visit} {w : Write} (hw : w ∈ v.writes cx) :
    v.node.kind ≠ .directive .vocend := by
  intro hclose
  unfold Visit.writes nodePieces at hw
  rw [hclose] at hw
  cases hw

/-- Outside a block a value is evaluated and stored. -/
theorem writeValue_ok (hm : cx.mode = .assembling) {width : Width} {e : Expr}
    (hblock : s.vocabulary = none) (h : writeValue cx width e s = .ok () t) :
    ∃ kind value, e.eval (s.scoping cx) = .ok (.known kind value) ∧
      t = { s with image := s.image.store (width.bytes value) } := by
  unfold writeValue at h
  obtain ⟨addr, u, hposition, h⟩ := bind_ok h
  cases hposition
  obtain ⟨r, u, heval, h⟩ := bind_ok h
  obtain ⟨rfl, kind, value, rfl, -, he⟩ := evaluate_ok hm heval
  refine ⟨kind, value, he, ?_⟩
  dsimp only at h
  rw [get_bind, hblock] at h
  cases h
  rfl

/-- Names that no local hides are those of the globals. -/
theorem valueIn_of_eval (hm : cx.mode = .assembling) {e : Expr} {kind : SymbolKind} {value : Int32}
    (h : e.eval (s.scoping cx) = .ok (.known kind value))
    (hlocals : ∀ name ∈ e.names, s.locals.lookup name = none) :
    e.valueIn s.globals = some value := by
  have heval : e.eval { lookup := s.globals.lookup, final := true } = e.eval (s.scoping cx) := by
    refine Expr.eval_congr (by simp [State.scoping, hm]) e fun name hname => ?_
    simp [State.scoping, hlocals name hname]
  unfold Expr.valueIn
  rw [heval, h]

end Writes

/-! ## The values at the end -/

theorem length_bytes (width : Width) (x y : Int32) :
    (width.bytes x).length = (width.bytes y).length := by
  cases width with
  | byte => simp only [Width.bytes, List.length_singleton]
  | word => simp only [Width.bytes, length_wordBytes]

/-- At one place stand the bytes of one value. -/
theorem bytes_at_iff {width : Width} {x y : Int32} {bytes : List UInt8}
    (h : width.bytes x <+: bytes) : width.bytes y <+: bytes ↔ width.bytes y = width.bytes x := by
  constructor
  · intro hy
    have hle := Nat.le_of_eq (length_bytes width y x)
    exact (List.prefix_of_prefix_length_le hy h hle).eq_of_length (length_bytes width y x)
  · intro heq
    rw [heq]
    exact h

section Settled

variable {p : FinalPass} {o : Options} {nodes : List Node} {story : AssembledStory}
  (h : p.Makes o nodes story) {w : Walk} (hw : w ∈ p.walks) (hset : w.settled = true) {v : Visit}
  (hv : v ∈ w.visits)

include h hw hset hv

/-- What a global is held to on the way through a settled visit it is held to up to the next break,
    and it ends with what it is held to after the last one. -/
theorem settled_ends_held (hclose : v.node.kind ≠ .directive .vocend) :
    ∃ earlier later, p.moments = earlier ++ .visit v :: later ∧ ∀ u name,
      u.index = v.index → Changes p.context v.node u v.after → Traced p.context p.LabelAt name u →
      (p.finish.globals.valueOf name).isSome = true ∧
        p.finish.globals.valueOf name = (lastBreak p.context u later).heldTo name := by
  obtain ⟨t, hcourse⟩ := h.course
  obtain ⟨place, front, rest, s, hcut⟩ := hcourse.cut hw hset hv
  obtain ⟨earlier, later, hmoments, hmoves, -⟩ := hcut.onward
  have hmem : ∀ x, .visit x ∈ Moment.visit v :: later → x ∈ p.visits := by
    intro x hx
    apply FinalPass.mem_visits
    rw [hmoments]
    exact List.mem_append_right _ hx
  refine ⟨earlier, later, hmoments, fun u name hindex hchanges htraced => ?_⟩
  have hlabel : p.LabelAt u.index ↔ ∃ label, v.node.kind = .globalLabel label := by
    rw [hindex]
    exact FinalPass.labelAt_iff (hmem v List.mem_cons_self)
  obtain ⟨hend, hheld⟩ := hchanges.held h.mode hclose hlabel htraced
  obtain ⟨hsome, hfinal⟩ := hcourse.final_value h hmoves
    (fun x hx => hmem x (List.mem_cons_of_mem _ hx)) hend
  exact ⟨hsome, hfinal.trans (heldTo_lastBreak_of_eq p.context hheld later)⟩

theorem settled_index : v.before.index = v.index := by
  obtain ⟨t, hcourse⟩ := h.course
  obtain ⟨place, front, rest, s, hcut⟩ := hcourse.cut hw hset hv
  rw [hcut.before]
  rfl

variable {d : Write} (hd : d ∈ v.writes p.context) (hblock : d.before.vocabulary = none)
  (hlocals : ∀ name ∈ d.expr.names, d.before.locals.lookup name = none)

include hd hblock hlocals

/-- A settled walk writes the value that the expression has in the table of that time, and the story
    holds it. -/
theorem settled_write (hfit : p.Fits) :
    ∃ value, d.expr.valueIn d.before.globals = some value ∧
      d.width.bytes value <+: story.bytes.drop d.before.image.cursor := by
  obtain ⟨u, hbefore, hwrite, hafter⟩ := mem_writes h.mode (settled_ok h hw hset hv) hd
  obtain ⟨kind, value, heval, rfl⟩ := writeValue_ok h.mode hblock hwrite
  exact ⟨value, valueIn_of_eval h.mode heval hlocals,
    settled_bytes h hfit hw hset hv hbefore hblock hafter⟩

/-- The names of the expression end with the values that they are held to after the last break. -/
theorem settled_names :
    ∃ earlier later, p.moments = earlier ++ .visit v :: later ∧ ∀ name ∈ d.expr.names,
      (p.finish.globals.valueOf name).isSome = true ∧
        p.finish.globals.valueOf name = (lastBreak p.context d.before later).heldTo name := by
  obtain ⟨u, hbefore, hwrite, hafter⟩ := mem_writes h.mode (settled_ok h hw hset hv) hd
  obtain ⟨kind, value, heval, rfl⟩ := writeValue_ok h.mode hblock hwrite
  have hvalue := Expr.total_of_valueIn (valueIn_of_eval h.mode heval hlocals)
  have hindex : d.before.index = v.index :=
    (hbefore.index h.mode).trans (settled_index h hw hset hv)
  obtain ⟨earlier, later, hmoments, hends⟩ := settled_ends_held h hw hset hv (writes_close hd)
  refine ⟨earlier, later, hmoments, fun name hname => ?_⟩
  have hknown : (d.before.globals.valueOf name).isSome = true :=
    (Expr.isSome_total_iff d.expr).mp (Option.isSome_iff_exists.mpr ⟨value, hvalue⟩) name hname
  let u : State := { d.before with image := d.before.image.store (d.width.bytes value) }
  have htraced : Traced p.context p.LabelAt name u :=
    ⟨hknown, fun b hb => (nomatch hblock.symm.trans hb), fun b hb => nomatch hblock.symm.trans hb⟩
  have hheld : u.heldTo name = d.before.heldTo name := rfl
  obtain ⟨hsome, hfinal⟩ := hends u name hindex hafter htraced
  exact ⟨hsome, hfinal.trans (heldTo_lastBreak_of_eq p.context hheld later)⟩

end Settled

/-- What a settled walk writes outside a block is the value that the expression has at that time,
    and the story holds it. Where the expression can be evaluated in the table at the end, the story
    holds that value exactly when it has the same bytes as the total of what the names are held
    to. -/
theorem data_values_at_end {o : Options} {nodes : List Node} {story : AssembledStory}
    (h : (assemble o nodes).result = .ok story) :
    ∃ p, finalPass? o nodes = some p ∧
      (∀ x ∈ p.visits, ∃ w ∈ p.walks, w.settled = true ∧
        ∃ v ∈ w.visits, v.index = x.index ∧ v.node = x.node) ∧
      (p.Fits → ∀ w ∈ p.walks, w.settled = true → ∀ v ∈ w.visits, ∀ d ∈ v.writes p.context,
        d.before.vocabulary = none → (∀ name ∈ d.expr.names, d.before.locals.lookup name = none) →
        ∃ value held earlier later, p.moments = earlier ++ .visit v :: later ∧
          d.expr.valueIn d.before.globals = some value ∧
          d.expr.total (lastBreak p.context d.before later).heldTo = some held ∧
          d.width.bytes value <+: story.bytes.drop d.before.image.cursor ∧
          ((∃ final, d.expr.valueIn p.finish.globals = some final ∧
              d.width.bytes final <+: story.bytes.drop d.before.image.cursor) ↔
            (d.expr.valueIn p.finish.globals).isSome = true ∧
              d.width.bytes held = d.width.bytes value)) := by
  obtain ⟨p, hp, hmakes⟩ := exists_finalPass h
  obtain ⟨t, hcourse⟩ := hmakes.course
  refine ⟨p, hp, hcourse.reaches, fun hfit w hw hset v hv d hd hblock hlocals => ?_⟩
  obtain ⟨value, hvalue, hbytes⟩ := settled_write hmakes hw hset hv hd hblock hlocals hfit
  obtain ⟨earlier, later, hmoments, hnames⟩ := settled_names hmakes hw hset hv hd hblock hlocals
  obtain ⟨held, hheld⟩ := Option.isSome_iff_exists.mp
    ((Expr.isSome_total_iff d.expr).mpr fun name hname => (hnames name hname).1)
  have hfinal : ∀ final, d.expr.valueIn p.finish.globals = some final → final = held := by
    intro final hf
    have htotal := (Expr.total_of_valueIn hf).symm.trans hheld
    exact Option.some.inj htotal
  have hlast : d.expr.total (lastBreak p.context d.before later).heldTo = some held := by
    rw [← hheld]
    exact Expr.total_congr d.expr fun name hname => ((hnames name hname).2).symm
  refine ⟨value, held, earlier, later, hmoments, hvalue, hlast, hbytes, ?_⟩
  constructor
  · rintro ⟨final, hf, hplace⟩
    rw [hf, ← hfinal final hf]
    exact ⟨rfl, (bytes_at_iff hbytes).mp hplace⟩
  · rintro ⟨hsome, heq⟩
    obtain ⟨final, hf⟩ := Option.isSome_iff_exists.mp hsome
    refine ⟨final, hf, (bytes_at_iff hbytes).mpr ?_⟩
    rw [hfinal final hf]
    exact heq

/-- A word that refers to a label behind it. -/
def referring : List Node :=
  [⟨.directive (.word [.add (.symbol "DATA") (.number 1)]), {}⟩, ⟨.globalLabel "DATA", {}⟩,
    ⟨.directive (.byte [.number 7, .number 8]), {}⟩, ⟨.directive (.funct "MAIN" []), {}⟩,
    ⟨.instruction { opcode := "RTRUE" }, {}⟩]

def referringOptions : Options := { version := .v3, identity := { serial := "260101" } }

theorem referring_holds :
    ∃ story p, (assemble referringOptions referring).result = .ok story ∧
      finalPass? referringOptions referring = some p ∧ p.Fits ∧
      ∃ w ∈ p.walks, w.settled = true ∧ ∃ v ∈ w.visits, ∃ d ∈ v.writes p.context,
        d.expr = .add (.symbol "DATA") (.number 1) ∧ d.before.vocabulary = none ∧
        (∀ name ∈ d.expr.names, d.before.locals.lookup name = none) ∧
        ∃ value, d.expr.valueIn d.before.globals = some value ∧
          d.width.bytes value <+: story.bytes.drop d.before.image.cursor := by
  obtain ⟨story, p, hresult, hp, hrun⟩ := exists_run referringOptions referring
    (fun p => decide p.Fits && p.walks.any fun w => w.settled && w.visits.any fun v =>
      (v.writes p.context).any fun d => decide (d.expr = .add (.symbol "DATA") (.number 1) ∧
        d.before.vocabulary.isNone ∧ ∀ name ∈ d.expr.names, d.before.locals.lookup name = none))
    (by decide +kernel)
  simp only [List.any_eq_true, Bool.and_eq_true, decide_eq_true_eq, Option.isNone_iff_eq_none]
    at hrun
  obtain ⟨hfits, w, hw, hset, v, hv, d, hd, hexpr, hblock, hlocals⟩ := hrun
  obtain ⟨p', hp', -, hwrites⟩ := data_values_at_end hresult
  cases hp.symm.trans hp'
  obtain ⟨value, -, -, -, -, hvalue, -, hbytes, -⟩ :=
    hwrites hfits w hw hset v hv d hd hblock hlocals
  exact ⟨story, p, hresult, hp, hfits, w, hw, hset, v, hv, d, hd, hexpr, hblock, hlocals, value,
    hvalue, hbytes⟩

/-- A word that refers to a label of its own routine. The first walk leaves the label where a long
    branch puts it; the second, which is the last, writes the word before it moves the label. -/
def lagging : List Node :=
  let skipPadding : Branch := { onTrue := true, target := .label "L" }
  [⟨.directive (.funct "R" []), {}⟩, ⟨.directive (.word [.symbol "G"]), {}⟩,
    ⟨.directive (.byte [.number 0]), {}⟩,
    ⟨.instruction { opcode := "ZERO?", operands := [.number 1], branch := skipPadding }, {}⟩,
    ⟨.globalLabel "G", {}⟩, ⟨.directive .pdef, {}⟩, ⟨.localLabel "L", {}⟩,
    ⟨.instruction { opcode := "RTRUE" }, {}⟩, ⟨.directive (.word [.symbol "G"]), {}⟩]

def laggingOptions : Options := { version := .v3, identity := { serial := "000000" } }

theorem lagging_differs :
    ∃ story p, (assemble laggingOptions lagging).result = .ok story ∧
      finalPass? laggingOptions lagging = some p ∧ p.Fits ∧
      ∃ w ∈ p.walks, w.settled = true ∧ ∃ v ∈ w.visits, ∃ d ∈ v.writes p.context,
        d.width = .word ∧ d.expr = .symbol "G" ∧ d.before.vocabulary = none ∧
        d.before.locals.lookup "G" = none ∧ d.expr.valueIn p.finish.globals = some 0x47 ∧
        Width.word.bytes 0x48 <+: story.bytes.drop d.before.image.cursor := by
  obtain ⟨story, p, hresult, hp, hrun⟩ := exists_run laggingOptions lagging
    (fun p => decide p.Fits && p.walks.any fun w => w.settled && w.visits.any fun v =>
      (v.writes p.context).any fun d => decide (d.width = .word ∧ d.expr = .symbol "G" ∧
        d.before.vocabulary.isNone ∧ d.before.locals.lookup "G" = none ∧
        d.before.globals.valueOf "G" = some 0x48 ∧ d.expr.valueIn p.finish.globals = some 0x47))
    (by decide +kernel)
  simp only [List.any_eq_true, Bool.and_eq_true, decide_eq_true_eq, Option.isNone_iff_eq_none]
    at hrun
  obtain ⟨hfits, w, hw, hset, v, hv, d, hd, hwidth, hexpr, hblock, hlocal, hold, hfinal⟩ := hrun
  obtain ⟨p', hp', hmakes⟩ := exists_finalPass hresult
  cases hp.symm.trans hp'
  have hlocals : ∀ name ∈ d.expr.names, d.before.locals.lookup name = none := by
    rw [hexpr]
    intro name hname
    rw [List.mem_singleton.mp hname]
    exact hlocal
  obtain ⟨value, hvalue, hbytes⟩ := settled_write hmakes hw hset hv hd hblock hlocals hfits
  have hwritten := Expr.total_of_valueIn hvalue
  rw [hexpr] at hwritten
  cases hwritten.symm.trans hold
  rw [hwidth] at hbytes
  exact ⟨story, p, hresult, hp, hfits, w, hw, hset, v, hv, d, hd, hwidth, hexpr, hblock, hlocal,
    hfinal, hbytes⟩

end Assembly

end ZAssembler
