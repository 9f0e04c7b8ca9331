import Mathlib.Algebra.GroupWithZero.Nat
import ZAssembler.Proofs.PackedAddresses
import ZAssembler.Proofs.Rewinding
import ZAssembler.Proofs.Tables

/-
  Programs of labels and data. A plain assembler reads such a program twice: it adds up the sizes of
  the nodes, which gives every label its address, and then writes the nodes with these addresses.
  `data_programs_assemble`: the passes of the assembler make the same story, and they measure once,
  or twice if a value refers to a label behind it.

  In a pass each value is written at once if its labels are known, and else as a zero that waits
  (`Emits`). Sizes do not hang on values, so the labels are right from the first pass on
  (`Reading`).
-/

namespace ZAssembler

/-! ## A plain assembler -/

namespace Expr

/-- Made of numbers, symbols and sums. -/
def isPlain : Expr → Bool
  | number _ | symbol _ => true
  | quote _ => false
  | add left right => left.isPlain && right.isPlain

/-- The sum that an expression stands for, where `value` gives the values of its names. -/
def sumOf (value : String → Int32) : Expr → Int32
  | number n => n
  | symbol name | quote name => value name
  | add left right => left.sumOf value + right.sumOf value

end Expr

namespace Node

def globalLabel? (n : Node) : Option String :=
  match n.kind with
  | .globalLabel name => some name
  | _ => none

def isData (n : Node) : Bool :=
  match n.kind with
  | .globalLabel _ | .directive (.byte _) | .directive (.word _) | .directive (.str _) => true
  | _ => false

/-- The expressions whose values a node writes. -/
def dataExprs (n : Node) : List Expr :=
  match n.kind with
  | .directive (.byte es) | .directive (.word es) => es
  | _ => []

/-- How many bytes a node writes. -/
def dataSize (v : Version) (n : Node) : Nat :=
  match n.kind with
  | .directive (.byte es) => es.length
  | .directive (.word es) => 2 * es.length
  | .directive (.str text) => (ZText.Encoder.encodePlain { version := v } text).length
  | _ => 0

/-- The bytes that a node writes, where `value` gives the values of the labels. -/
def emission (v : Version) (value : String → Int32) (n : Node) : List UInt8 :=
  match n.kind with
  | .directive (.byte es) => es.flatMap fun e => Width.byte.bytes (e.sumOf value)
  | .directive (.word es) => es.flatMap fun e => Width.word.bytes (e.sumOf value)
  | .directive (.str text) => ZText.Encoder.encodePlain { version := v } text
  | _ => []

end Node

namespace Data

def labels (nodes : List Node) : List String := nodes.filterMap Node.globalLabel?

def size (v : Version) (nodes : List Node) : Nat := (nodes.map (Node.dataSize v)).sum

/-- The value of a label: the address after the header and the nodes before it. -/
def value (v : Version) (nodes : List Node) (name : String) : Int32 :=
  Int32.ofNat (Story.headerSize + size v (nodes.takeWhile (·.globalLabel? != some name)))

/-- What the story holds after its header. -/
def bytes (v : Version) (nodes : List Node) : List UInt8 :=
  nodes.flatMap (Node.emission v (value v nodes))

/-- A program of labels and data. Its labels differ, none has the name of a predefined variable, and
    its expressions are sums of numbers and labels. -/
structure Program (nodes : List Node) : Prop where
  data : ∀ n ∈ nodes, n.isData = true
  distinct : (labels nodes).Nodup
  notStack : "STACK" ∉ labels nodes
  plain : ∀ n ∈ nodes, ∀ e ∈ n.dataExprs, e.isPlain = true
  names : ∀ n ∈ nodes, ∀ e ∈ n.dataExprs, ∀ name ∈ e.names, name ∈ labels nodes

/-- A value refers to a label that a later node defines. -/
def RefersAhead (nodes : List Node) : Prop :=
  ∃ front n back, nodes = front ++ n :: back ∧
    ∃ e ∈ n.dataExprs, ∃ name ∈ e.names, name ∈ labels back

theorem labels_append (xs ys : List Node) : labels (xs ++ ys) = labels xs ++ labels ys :=
  List.filterMap_append

theorem labels_cons (n : Node) (rest : List Node) :
    labels (n :: rest) = n.globalLabel?.toList ++ labels rest := by
  unfold labels
  cases h : n.globalLabel? <;> simp [h]

theorem size_append (v : Version) (xs ys : List Node) :
    size v (xs ++ ys) = size v xs + size v ys := by
  simp [size]

theorem size_cons (v : Version) (n : Node) (rest : List Node) :
    size v (n :: rest) = n.dataSize v + size v rest := by
  simp [size]

theorem mem_labels {nodes : List Node} {n : Node} {name : String} (hn : n ∈ nodes)
    (hname : n.globalLabel? = some name) : name ∈ labels nodes :=
  List.mem_filterMap.mpr ⟨n, hn, hname⟩

/-- A label has one value: the nodes before it are those before its node. -/
theorem value_of_split {v : Version} {nodes front back : List Node} {n : Node} {name : String}
    (h : (labels nodes).Nodup) (hnodes : nodes = front ++ n :: back)
    (hname : n.globalLabel? = some name) :
    value v nodes name = Int32.ofNat (Story.headerSize + size v front) := by
  have hfront : ∀ m ∈ front, (m.globalLabel? != some name) = true := by
    intro m hm
    refine bne_iff_ne.mpr fun heq => ?_
    rw [hnodes, labels_append, List.nodup_append] at h
    exact h.2.2 name (mem_labels hm heq) name (mem_labels List.mem_cons_self hname) rfl
  have hstop : (n :: back).takeWhile (·.globalLabel? != some name) = [] :=
    List.takeWhile_cons_of_neg (by simp [hname])
  unfold value
  rw [hnodes, List.takeWhile_append_of_pos hfront, hstop, List.append_nil]

end Data

theorem Node.length_emission (v : Version) (value : String → Int32) (n : Node) :
    (n.emission v value).length = n.dataSize v := by
  unfold emission dataSize
  split
  · exact (List.length_flatMap ..).trans (by simp [Width.bytes])
  · exact (List.length_flatMap ..).trans (by simp [Width.bytes, Nat.mul_comm])
  · rfl
  · rfl

theorem Data.length_bytes (v : Version) (nodes : List Node) :
    (bytes v nodes).length = size v nodes := by
  simp [bytes, size, List.length_flatMap, Node.length_emission]

/-! ## Strings without abbreviations -/

namespace ZText.Encoder

theorem zcharsFrom_of_none {e : Encoder} (h : e.abbreviations = []) (skip : Nat)
    (text : List Char) : e.zcharsFrom true skip text = e.zcharsFrom false skip text := by
  induction text generalizing skip with
  | nil => cases skip <;> rfl
  | cons c rest ih =>
    cases skip with
    | zero => simp [zcharsFrom, longest, h, longestFrom, ih]
    | succ skip => exact ih skip

theorem encode_of_none {e : Encoder} (h : e.abbreviations = []) (text : String) :
    e.encode text = e.encodePlain text := by
  unfold encode encodePlain zchars
  cases decide (0 < e.version.abbreviationBanks) with
  | false => rfl
  | true => rw [zcharsFrom_of_none h]

end ZText.Encoder

/-! ## Expressions of labels -/

namespace Expr

/-- The name is a label with its value. -/
def Tells (sc : Scoping) (value : String → Int32) (name : String) : Prop :=
  ∃ symbol, sc.lookup name = some symbol ∧ symbol.kind = .label ∧ symbol.value = value name

/-- The name has no value. -/
def Lacks (sc : Scoping) (name : String) : Prop :=
  (sc.lookup name).filter Symbol.isDefined = none

variable {sc : Scoping} {value : String → Int32} {e : Expr}

theorem Tells.meaning {name : String} (h : Tells sc value name) :
    sc.meaning name = some (.label, value name) := by
  obtain ⟨symbol, hlookup, hkind, hvalue⟩ := h
  simp [Scoping.meaning, hlookup, Symbol.isDefined, hkind, hvalue]

theorem Lacks.meaning {name : String} (h : Lacks sc name) : sc.meaning name = none :=
  Option.map_eq_none_iff.mpr h

/-- An expression is the sum of its labels, or one of them has no value; then it waits, if it
    may. -/
theorem eval_of_told (he : e.isPlain = true)
    (h : ∀ name ∈ e.names, Tells sc value name ∨ Lacks sc name) :
    (∃ kind, kind.isAddable = true ∧ e.eval sc = .ok (.known kind (e.sumOf value))) ∨
      (∃ name ∈ e.names, Lacks sc name) ∧
        (sc.final = false → ∃ name, e.eval sc = .ok (.unknown name)) := by
  induction e with
  | number n => exact .inl ⟨.constant, rfl, rfl⟩
  | symbol name =>
    rcases h name (by simp [names]) with htells | hlacks
    · exact .inl ⟨.label, rfl, resolve_known_iff.mpr htells.meaning⟩
    · refine .inr ⟨⟨name, by simp [names], hlacks⟩, fun hfinal => ⟨name, ?_⟩⟩
      rw [eval, resolve_eq, hlacks.meaning, hfinal]
      rfl
  | quote name => cases he
  | add left right ihl ihr =>
    simp only [isPlain, Bool.and_eq_true] at he
    simp only [names, List.mem_append] at h ⊢
    rw [eval_add]
    rcases ihl he.1 fun name hname =>
      h name (.inl hname) with ⟨lk, hlk, hl⟩ | ⟨⟨name, hname, hnone⟩, hl⟩
    · rcases ihr he.2 fun name hname =>
        h name (.inr hname) with ⟨rk, hrk, hr⟩ | ⟨⟨name, hname, hnone⟩, hr⟩
      · refine .inl ⟨if lk = .label ∨ rk = .label then .label else .constant, by split <;> rfl, ?_⟩
        rw [hl, hr]
        simp [combine, sum, hlk, hrk, sumOf]
      · refine .inr ⟨⟨name, .inr hname, hnone⟩, fun hfinal => ?_⟩
        obtain ⟨other, hother⟩ := hr hfinal
        rw [hl, hother]
        exact ⟨other, rfl⟩
    · refine .inr ⟨⟨name, .inl hname, hnone⟩, fun hfinal => ?_⟩
      obtain ⟨other, hother⟩ := hl hfinal
      rw [hother]
      rcases ihr he.2 fun name hname => h name (.inr hname) with ⟨rk, -, hr⟩ | ⟨-, hr⟩
      · rw [hr]
        exact ⟨other, rfl⟩
      · obtain ⟨another, hr⟩ := hr hfinal
        rw [hr]
        exact ⟨other, rfl⟩

theorem eval_of_tells (he : e.isPlain = true) (h : ∀ name ∈ e.names, Tells sc value name) :
    ∃ kind, kind.isAddable = true ∧ e.eval sc = .ok (.known kind (e.sumOf value)) := by
  refine (eval_of_told he fun name hname => .inl (h name hname)).resolve_right ?_
  rintro ⟨⟨name, hname, hlacks⟩, -⟩
  cases (h name hname).meaning.symm.trans hlacks.meaning

/-- While layout is measured, an expression with a name that has no value waits for such a name. -/
theorem eval_of_lacks (hfinal : sc.final = false) (he : e.isPlain = true)
    (h : ∀ name ∈ e.names, Tells sc value name ∨ Lacks sc name)
    (hlacks : ∃ name ∈ e.names, Lacks sc name) : ∃ name, e.eval sc = .ok (.unknown name) := by
  refine ((eval_of_told he h).resolve_left ?_).2 hfinal
  rintro ⟨kind, -, hknown⟩
  obtain ⟨name, hname, hnone⟩ := hlacks
  have hmeaning := meaning_of_eval hknown name hname
  rw [hnone.meaning] at hmeaning
  cases hmeaning

end Expr

namespace Assembly

/-! ## Tables of labels -/

/-- Of `names`, those in `known` are labels with their values, and the others have none. -/
structure Knows (value : String → Int32) (names known : List String) (t : SymbolTable) : Prop where
  label : ∀ name ∈ names, name ∈ known →
    ∃ symbol, t.lookup name = some symbol ∧ symbol.kind = .label ∧ symbol.value = value name
  lacking : ∀ name ∈ names, name ∉ known → t.valueOf name = none

section Tables

variable {value : String → Int32} {names known : List String} {t : SymbolTable}

theorem Knows.mention (h : Knows value names known t) (name : String) :
    Knows value names known (t.mention name) := by
  refine ⟨fun other hother hknown => ?_, fun other hother hknown => ?_⟩
  · obtain ⟨symbol, hlookup, hkind, hvalue⟩ := h.label other hother hknown
    rcases lookup_mention t name other with heq | ⟨hnone, -⟩
    · exact ⟨symbol, heq.trans hlookup, hkind, hvalue⟩
    · cases hnone.symm.trans hlookup
  · rcases lookup_mention t name other with heq | ⟨-, symbol, heq, hdefined, -⟩
    · unfold SymbolTable.valueOf
      rw [heq]
      exact h.lacking other hother hknown
    · rw [valueOf_of_lookup heq, hdefined]
      rfl

theorem Knows.put (h : Knows value names known t) {symbol : Symbol} {name : String} {site : Site}
    (hentered : Entered symbol name .label (value name) site) :
    Knows value names (name :: known) (t.put symbol) := by
  refine ⟨fun other hother hknown => ?_, fun other hother hknown => ?_⟩
  · rw [SymbolTable.lookup_put, hentered.name]
    by_cases heq : name = other
    · subst heq
      exact ⟨symbol, if_pos rfl, hentered.kind, hentered.value⟩
    · rw [if_neg heq]
      exact h.label other hother ((List.mem_cons.mp hknown).resolve_left (Ne.symm heq))
  · have hne : name ≠ other := fun heq => hknown (heq ▸ List.mem_cons_self)
    have hkind : symbol.kind ≠ .unknown := by
      rw [hentered.kind]
      decide
    rw [valueOf_put _ _ hkind, hentered.name, if_neg hne]
    exact h.lacking other hother fun hmem => hknown (List.mem_cons_of_mem _ hmem)

end Tables

/-! ## Writing values -/

/-- Bytes were stored and fixups added, and nothing else happened but to the symbols, the collected
    text and the place. -/
structure Written (bytes : List UInt8) (added : List Fixup) (s t : State) : Prop where
  image : t.image = s.image.store bytes
  fixups : t.fixups.toList = s.fixups.toList ++ added
  rest : t = { s with
    image := t.image, fixups := t.fixups, globals := t.globals, text := t.text, index := t.index,
    location := t.location }

theorem Written.trans {bytes bytes' : List UInt8} {added added' : List Fixup} {s t u : State}
    (hst : Written bytes added s t) (htu : Written bytes' added' t u) :
    Written (bytes ++ bytes') (added ++ added') s u where
  image := by rw [htu.image, hst.image, Image.store_append]
  fixups := by rw [htu.fixups, hst.fixups, List.append_assoc]
  rest := by
    have hs := hst.rest
    have ht := htu.rest
    rw [hs] at ht
    exact ht

/-- The values of `es` were written. If the labels are `known` the bytes are those of the values; if
    not, zeros stand for some of them and wait. -/
structure Emits (known : Prop) (es : List Expr) (bytes : List UInt8) (s t : State) : Prop where
  ends : ∃ stored added, Written stored added s t ∧ stored.length = bytes.length ∧
    (∀ f ∈ added, f.expr ∈ es) ∧ (known → stored = bytes ∧ added = []) ∧ (¬ known → added ≠ [])

theorem emits_nothing {s t : State} {known : Prop} (hknown : known) {bytes : List UInt8}
    (h : Written bytes [] s t) : Emits known [] bytes s t :=
  ⟨bytes, [], h, rfl, fun _ hf => (nomatch hf), fun _ => ⟨rfl, rfl⟩, fun hnot => absurd hknown hnot⟩

theorem Emits.append {known known' : Prop} {es es' : List Expr} {bytes bytes' : List UInt8}
    {s t u : State} (hst : Emits known es bytes s t) (htu : Emits known' es' bytes' t u) :
    Emits (known ∧ known') (es ++ es') (bytes ++ bytes') s u := by
  obtain ⟨stored, added, hw, hlength, hsource, hwhole, hwaits⟩ := hst.ends
  obtain ⟨stored', added', hw', hlength', hsource', hwhole', hwaits'⟩ := htu.ends
  refine ⟨stored ++ stored', added ++ added', hw.trans hw', ?_, ?_, ?_, ?_⟩
  · rw [List.length_append, List.length_append, hlength, hlength']
  · intro f hf
    rcases List.mem_append.mp hf with hf | hf
    · exact List.mem_append_left _ (hsource f hf)
    · exact List.mem_append_right _ (hsource' f hf)
  · rintro ⟨hknown, hknown'⟩
    rw [(hwhole hknown).1, (hwhole hknown).2, (hwhole' hknown').1, (hwhole' hknown').2]
    exact ⟨rfl, rfl⟩
  · intro hnot hnil
    obtain ⟨hnil, hnil'⟩ := List.append_eq_nil_iff.mp hnil
    exact hnot ⟨Classical.byContradiction fun hk => hwaits hk hnil,
      Classical.byContradiction fun hk => hwaits' hk hnil'⟩

theorem Emits.imp {known known' : Prop} {es : List Expr} {bytes : List UInt8} {s t : State}
    (h : Emits known es bytes s t) (hiff : known' ↔ known) : Emits known' es bytes s t := by
  rwa [propext hiff]

/-- How far the reading of a program of data has come: nothing is open, `known` are the labels that
    have a value, and those in `ahead` are yet to be defined in the pass. -/
structure Reading (value : String → Int32) (names known ahead : List String) (cx : Context)
    (s : State) : Prop where
  locals : s.locals = .empty
  vocabulary : s.vocabulary = none
  scope : s.scope = none
  encoder : s.encoder = { version := cx.version }
  knows : Knows value names known s.globals
  fresh : DefinedBefore cx.pass (· ∈ ahead) s.globals
  sites : DefinedBefore (cx.pass + 1) (· ∈ names) s.globals

section Values

variable {cx : Context} {value : String → Int32} {names known ahead : List String} {s t : State}

theorem Reading.written {bytes : List UInt8} {added : List Fixup}
    (h : Reading value names known ahead cx s) (hw : Written bytes added s t)
    {known' ahead' : List String} (hknows : Knows value names known' t.globals)
    (hfresh : DefinedBefore cx.pass (· ∈ ahead') t.globals)
    (hsites : DefinedBefore (cx.pass + 1) (· ∈ names) t.globals) :
    Reading value names known' ahead' cx t := by
  have hrest := hw.rest
  refine ⟨?_, ?_, ?_, ?_, hknows, hfresh, hsites⟩
  · rw [hrest]; exact h.locals
  · rw [hrest]; exact h.vocabulary
  · rw [hrest]; exact h.scope
  · rw [hrest]; exact h.encoder

theorem Reading.mention {bytes : List UInt8} {added : List Fixup} {name : String}
    (h : Reading value names known ahead cx s) (hw : Written bytes added s t)
    (hglobals : t.globals = s.globals.mention name) : Reading value names known ahead cx t :=
  h.written hw (hglobals ▸ h.knows.mention name) (hglobals ▸ h.fresh.mention name)
    (hglobals ▸ h.sites.mention name)

theorem Reading.lookup (h : Reading value names known ahead cx s) (name : String) :
    (s.scoping cx).lookup name = s.globals.lookup name := by
  unfold State.scoping
  rw [h.locals]
  rfl

theorem Reading.tells (h : Reading value names known ahead cx s) {name : String}
    (hname : name ∈ names) (hknown : name ∈ known) : Expr.Tells (s.scoping cx) value name := by
  obtain ⟨symbol, hlookup, hkind, hvalue⟩ := h.knows.label name hname hknown
  exact ⟨symbol, (h.lookup name).trans hlookup, hkind, hvalue⟩

theorem Reading.lacks (h : Reading value names known ahead cx s) {name : String}
    (hname : name ∈ names) (hknown : name ∉ known) : Expr.Lacks (s.scoping cx) name := by
  have hnone := h.knows.lacking name hname hknown
  unfold Expr.Lacks
  rw [h.lookup]
  exact Option.map_eq_none_iff.mp hnone

/-- A zero is written for a value that waits for `name`. -/
def State.await (s : State) (width : Width) (e : Expr) (name : String) : State :=
  { s with
    globals := s.globals.mention name
    fixups := s.fixups.push { symbol := name, expr := e, target := .image s.image.cursor width }
    image := s.image.store (width.bytes 0) }

/-- A value is written at once, or as a zero that waits. -/
theorem writeValue_emits (h : Reading value names known ahead cx s) (width : Width) {e : Expr}
    (he : e.isPlain = true) (hnames : ∀ name ∈ e.names, name ∈ names)
    (hmode : cx.mode = .assembling → ∀ name ∈ e.names, name ∈ known) :
    ∃ t, writeValue cx width e s = .ok () t ∧ Reading value names known ahead cx t ∧
      Emits (∀ name ∈ e.names, name ∈ known) [e] (width.bytes (e.sumOf value)) s t := by
  have hposition : position s = .ok s.image.cursor s := rfl
  by_cases hknown : ∀ name ∈ e.names, name ∈ known
  · obtain ⟨kind, -, heval⟩ := Expr.eval_of_tells he fun name hname =>
      h.tells (hnames name hname) (hknown name hname)
    have hrun : writeValue cx width e s =
        .ok () { s with image := s.image.store (width.bytes (e.sumOf value)) } := by
      have hevaluate : evaluate cx e s = .ok (.known kind (e.sumOf value)) s := by
        rw [evaluate_get, heval]
        rfl
      unfold writeValue
      rw [bind_of_ok hposition, bind_of_ok hevaluate]
      dsimp only
      rw [get_bind, if_neg (by simp [h.vocabulary])]
      rfl
    have hw : Written (width.bytes (e.sumOf value)) [] s
        { s with image := s.image.store (width.bytes (e.sumOf value)) } :=
      ⟨rfl, (List.append_nil _).symm, rfl⟩
    refine ⟨_, hrun, h.written hw h.knows h.fresh h.sites, ?_⟩
    exact ⟨_, [], hw, rfl, fun _ hf => (nomatch hf), fun _ => ⟨rfl, rfl⟩,
      fun hnot => absurd hknown hnot⟩
  · have hmeasuring : cx.mode ≠ .assembling := fun hm => hknown (hmode hm)
    have hfinal : (s.scoping cx).final = false := by simp [State.scoping, hmeasuring]
    have hlacks : ∃ name ∈ e.names, Expr.Lacks (s.scoping cx) name := by
      obtain ⟨name, hname⟩ := Classical.not_forall.mp hknown
      obtain ⟨hmem, hnot⟩ := Classical.not_imp.mp hname
      exact ⟨name, hmem, h.lacks (hnames name hmem) hnot⟩
    have htold : ∀ name ∈ e.names,
        Expr.Tells (s.scoping cx) value name ∨ Expr.Lacks (s.scoping cx) name := by
      intro name hname
      by_cases hmem : name ∈ known
      · exact .inl (h.tells (hnames name hname) hmem)
      · exact .inr (h.lacks (hnames name hname) hmem)
    obtain ⟨name, heval⟩ := Expr.eval_of_lacks hfinal he htold hlacks
    have hrun : writeValue cx width e s = .ok () (s.await width e name) := by
      have hevaluate : evaluate cx e s =
          .ok (.unknown name) { s with globals := s.globals.mention name } := by
        rw [evaluate_get, heval]
        rfl
      unfold writeValue
      rw [bind_of_ok hposition, bind_of_ok hevaluate]
      rfl
    have hw : Written (width.bytes 0)
        [{ symbol := name, expr := e, target := .image s.image.cursor width }] s
        (s.await width e name) := ⟨rfl, Array.toList_push, rfl⟩
    refine ⟨_, hrun, h.mention hw rfl, ?_⟩
    refine ⟨_, _, hw, length_bytes width _ _, fun f hf => ?_, fun hk => absurd hk hknown,
      fun _ => by simp⟩
    rw [List.mem_singleton.mp hf]
    exact List.mem_singleton_self e

theorem values_emit (width : Width) (es : List Expr) (h : Reading value names known ahead cx s)
    (hplain : ∀ e ∈ es, e.isPlain = true) (hnames : ∀ e ∈ es, ∀ name ∈ e.names, name ∈ names)
    (hmode : cx.mode = .assembling → ∀ e ∈ es, ∀ name ∈ e.names, name ∈ known) :
    ∃ t, values cx width es s = .ok () t ∧ Reading value names known ahead cx t ∧
      Emits (∀ e ∈ es, ∀ name ∈ e.names, name ∈ known) es
        (es.flatMap fun e => width.bytes (e.sumOf value)) s t := by
  induction es generalizing s with
  | nil =>
    refine ⟨s, rfl, h, emits_nothing (fun _ he => nomatch he) ?_⟩
    exact ⟨rfl, (List.append_nil _).symm, rfl⟩
  | cons e rest ih =>
    obtain ⟨t, hfirst, ht, hemits⟩ := writeValue_emits h width (hplain e List.mem_cons_self)
      (hnames e List.mem_cons_self) (fun hm => hmode hm e List.mem_cons_self)
    obtain ⟨u, hrest, hu, hemits'⟩ := ih ht (fun e he => hplain e (List.mem_cons_of_mem _ he))
      (fun e he => hnames e (List.mem_cons_of_mem _ he))
      (fun hm e he => hmode hm e (List.mem_cons_of_mem _ he))
    refine ⟨u, (forM_cons_of_ok hfirst).trans hrest, hu, ?_⟩
    exact (hemits.append hemits').imp List.forall_mem_cons

/-! ## Reading the nodes -/

theorem written_reach (s : State) (index : Nat) (n : Node) : Written [] [] s (s.reach index n) :=
  ⟨rfl, (List.append_nil _).symm, rfl⟩

theorem Reading.reach (h : Reading value names known ahead cx s) (index : Nat) (n : Node) :
    Reading value names known ahead cx (s.reach index n) :=
  h.written (written_reach s index n) h.knows h.fresh h.sites

/-- A label gets its value, or keeps it. -/
theorem globalLabel_emits {name : String} (h : Reading value names known (name :: ahead) cx s)
    (hname : name ∈ names) (hnew : name ∉ ahead)
    (hvalue : value name = Int32.ofNat s.image.cursor) :
    ∃ t, globalLabel cx name s = .ok () t ∧ Reading value names (name :: known) ahead cx t ∧
      Emits True [] [] s t := by
  have hrun : globalLabel cx name s = defineGlobal cx name .label (value name) s := by
    unfold globalLabel
    rw [get_bind, h.vocabulary, hvalue]
  have hfree : ¬ Taken s.globals name (s.site cx) := h.fresh.not_taken List.mem_cons_self rfl
  obtain ⟨htaken, old, hdefine⟩ | ⟨-, symbol, hentered, hdefine⟩ :=
    define_cases s.globals name .label (value name) (s.site cx)
  · exact absurd htaken hfree
  · have hsame : report (s.globals.valueOf name) (value name) = .defined ∨
        report (s.globals.valueOf name) (value name) = .unchanged := by
      by_cases hknown : name ∈ known
      · obtain ⟨found, hlookup, hkind, hfound⟩ := h.knows.label name hname hknown
        have hdefined : found.isDefined = true := by simp [Symbol.isDefined, hkind]
        right
        rw [valueOf_of_lookup hlookup, if_pos hdefined, hfound]
        exact if_pos rfl
      · left
        rw [h.knows.lacking name hname hknown]
        rfl
    have hok : globalLabel cx name s = .ok () { s with globals := s.globals.put symbol } := by
      rw [hrun, defineGlobal_get, hdefine]
      rcases hsame with heq | heq <;> rw [heq] <;> rfl
    have hw : Written [] [] s { s with globals := s.globals.put symbol } :=
      ⟨rfl, (List.append_nil _).symm, rfl⟩
    refine ⟨_, hok, h.written hw (h.knows.put hentered) ?_ ?_, emits_nothing trivial hw⟩
    · refine DefinedBefore.put
        (fun other hother => h.fresh other (List.mem_cons_of_mem _ hother)) ?_
      intro hmem
      exact absurd (hentered.name ▸ hmem) hnew
    · refine h.sites.put fun _ site hsite => ?_
      rw [hentered.site] at hsite
      cases hsite
      exact Nat.lt_succ_self _

theorem stringData_emits (h : Reading value names known ahead cx s) (text : String) :
    ∃ t, stringData text s = .ok () t ∧ Reading value names known ahead cx t ∧
      Emits True [] (ZText.Encoder.encodePlain { version := cx.version } text) s t := by
  have hw : Written (ZText.Encoder.encodePlain { version := cx.version } text) [] s
      { s with
        image := s.image.store (ZText.Encoder.encodePlain { version := cx.version } text)
        text := s.text.map (·.add text) } := ⟨rfl, (List.append_nil _).symm, rfl⟩
  refine ⟨_, ?_, h.written hw h.knows h.fresh h.sites, emits_nothing trivial hw⟩
  have hencode : encodeText text s =
      .ok (ZText.Encoder.encodePlain { version := cx.version } text) s := by
    show EStateM.Result.ok (s.encoder.encode text) s = _
    rw [h.encoder, ZText.Encoder.encode_of_none rfl]
  unfold stringData
  rw [bind_of_ok hencode]
  rfl

/-- The labels of a node are known. -/
def LabelsKnown (known : List String) (n : Node) : Prop :=
  ∀ e ∈ n.dataExprs, ∀ name ∈ e.names, name ∈ known

theorem node_emits {n : Node} {rest : List Node}
    (h : Reading value names known (Data.labels (n :: rest)) cx s) (hdata : n.isData = true)
    (hplain : ∀ e ∈ n.dataExprs, e.isPlain = true)
    (hnames : ∀ e ∈ n.dataExprs, ∀ name ∈ e.names, name ∈ names)
    (hmode : cx.mode = .assembling → LabelsKnown known n)
    (hdistinct : (Data.labels (n :: rest)).Nodup)
    (hlabel : ∀ name, n.globalLabel? = some name →
      name ∈ names ∧ value name = Int32.ofNat s.image.cursor) :
    ∃ t, node cx n s = .ok () t ∧
      Reading value names (n.globalLabel?.toList ++ known) (Data.labels rest) cx t ∧
      Emits (LabelsKnown known n) n.dataExprs (n.emission cx.version value) s t := by
  rw [Data.labels_cons] at h hdistinct
  obtain ⟨kind, location⟩ := n
  cases kind with
  | globalLabel name =>
    obtain ⟨hname, hvalue⟩ := hlabel name rfl
    have hnew := (List.nodup_cons.mp hdistinct).1
    obtain ⟨t, hrun, ht, hemits⟩ := globalLabel_emits h hname hnew hvalue
    refine ⟨t, hrun, ht, hemits.imp ?_⟩
    exact iff_of_true (fun _ he => nomatch he) trivial
  | directive d =>
    cases d with
    | byte es => exact values_emit .byte es h hplain hnames hmode
    | word es => exact values_emit .word es h hplain hnames hmode
    | str text =>
      obtain ⟨t, hrun, ht, hemits⟩ := stringData_emits h text
      refine ⟨t, hrun, ht, hemits.imp ?_⟩
      exact iff_of_true (fun _ he => nomatch he) trivial
    | _ => cases hdata
  | instruction i => cases hdata
  | localLabel name => cases hdata

theorem visit_emits {n : Node} {rest : List Node} (index : Nat)
    (h : Reading value names known (Data.labels (n :: rest)) cx s) (hdata : n.isData = true)
    (hplain : ∀ e ∈ n.dataExprs, e.isPlain = true)
    (hnames : ∀ e ∈ n.dataExprs, ∀ name ∈ e.names, name ∈ names)
    (hmode : cx.mode = .assembling → LabelsKnown known n)
    (hdistinct : (Data.labels (n :: rest)).Nodup)
    (hlabel : ∀ name, n.globalLabel? = some name →
      name ∈ names ∧ value name = Int32.ofNat s.image.cursor) :
    ∃ t, visit cx index n s = .ok () t ∧
      Reading value names (n.globalLabel?.toList ++ known) (Data.labels rest) cx t ∧
      Emits (LabelsKnown known n) n.dataExprs (n.emission cx.version value) s t := by
  obtain ⟨t, hrun, ht, hemits⟩ :=
    node_emits (h.reach index n) hdata hplain hnames hmode hdistinct hlabel
  refine ⟨t, visit_of_ok hrun, ht, ?_⟩
  have hreach : Emits True [] [] s (s.reach index n) :=
    emits_nothing trivial (written_reach s index n)
  exact (hreach.append hemits).imp (true_and _).symm.to_iff

end Values

/-- Every value is written when its labels are known, if `known` are those at the beginning. -/
def AllKnown (known : List String) : List Node → Prop
  | [] => True
  | n :: rest => LabelsKnown known n ∧ AllKnown (n.globalLabel?.toList ++ known) rest

theorem allKnown_of_names {known : List String} {nodes : List Node}
    (h : ∀ n ∈ nodes, LabelsKnown known n) : AllKnown known nodes := by
  induction nodes generalizing known with
  | nil => trivial
  | cons n rest ih =>
    refine ⟨h n List.mem_cons_self, ih fun m hm e he name hname => List.mem_append_right _ ?_⟩
    exact h m (List.mem_cons_of_mem _ hm) e he name hname

/-- A value waits if and only if it refers to a label behind it. -/
theorem not_allKnown_iff {known : List String} {nodes : List Node} :
    ¬ AllKnown known nodes ↔ ∃ front n back, nodes = front ++ n :: back ∧
      ∃ e ∈ n.dataExprs, ∃ name ∈ e.names, name ∉ known ∧ name ∉ Data.labels front := by
  induction nodes generalizing known with
  | nil => simp [AllKnown]
  | cons n rest ih =>
    constructor
    · intro h
      by_cases hn : LabelsKnown known n
      · obtain ⟨front, m, back, rfl, e, he, name, hname, hnew, hfront⟩ :=
          ih.mp fun hrest => h ⟨hn, hrest⟩
        rw [List.mem_append, not_or] at hnew
        refine ⟨n :: front, m, back, rfl, e, he, name, hname, hnew.2, ?_⟩
        rw [Data.labels_cons, List.mem_append, not_or]
        exact ⟨hnew.1, hfront⟩
      · simp only [LabelsKnown, not_forall] at hn
        obtain ⟨e, he, name, hname, hnew⟩ := hn
        exact ⟨[], n, rest, rfl, e, he, name, hname, hnew, fun hmem => nomatch hmem⟩
    · rintro ⟨front, m, back, hnodes, e, he, name, hname, hnew, hfront⟩ ⟨hn, hrest⟩
      cases front with
      | nil =>
        cases hnodes
        exact hnew (hn e he name hname)
      | cons first front =>
        cases hnodes
        rw [Data.labels_cons, List.mem_append, not_or] at hfront
        refine ih.mpr ⟨front, m, back, rfl, e, he, name, hname, ?_, hfront.2⟩ hrest
        rw [List.mem_append, not_or]
        exact ⟨hfront.1, hnew⟩

theorem refersAhead_iff {nodes : List Node} (h : Data.Program nodes) :
    Data.RefersAhead nodes ↔ ¬ AllKnown [] nodes := by
  rw [not_allKnown_iff]
  constructor
  · rintro ⟨front, n, back, rfl, e, he, name, hname, hback⟩
    refine ⟨front, n, back, rfl, e, he, name, hname, fun hmem => (nomatch hmem), fun hfront => ?_⟩
    have hdistinct := h.distinct
    rw [Data.labels_append, Data.labels_cons, List.nodup_append] at hdistinct
    exact hdistinct.2.2 name hfront name (List.mem_append_right _ hback) rfl
  · rintro ⟨front, n, back, rfl, e, he, name, hname, -, hfront⟩
    refine ⟨front, n, back, rfl, e, he, name, hname, ?_⟩
    have hmem := h.names n (by simp) e he name hname
    have hown : n.globalLabel? = none := by
      unfold Node.dataExprs at he
      unfold Node.globalLabel?
      split at he <;> simp_all
    rw [Data.labels_append, Data.labels_cons, hown, List.mem_append] at hmem
    exact hmem.resolve_left hfront

/-- Where nothing is open, a pass ends by looking at its fixups. -/
theorem endPass_eq (cx : Context) {s : State} (htable : s.table = none)
    (hblock : s.vocabulary = none) : endPass cx s = (match cx.mode with
      | .measuring =>
        modify fun s => { s with changed := s.changed || s.fixups.any (·.resolves cx s) }
      | .assembling => do
        let fixups := (← get).fixups.toList
        if !fixups.isEmpty then stopWith (.unresolvedReferences (waitingNames fixups)) :
          Pass Unit) s := by
  unfold endPass
  rw [get_bind, htable]
  dsimp only
  rewrite [get_bind, hblock]
  cases cx.mode <;> rfl

section Passes

variable {nodes : List Node} (hprogram : Data.Program nodes) (cx : Context)
  (hsize : Story.headerSize + Data.size cx.version nodes < 2 ^ 32)

include hprogram hsize

theorem visitAll_emits (index : Nat) (front rest : List Node) (hnodes : nodes = front ++ rest)
    {known : List String} {s : State}
    (h : Reading (Data.value cx.version nodes) (Data.labels nodes) known (Data.labels rest) cx s)
    (hcursor : s.image.cursor = Story.headerSize + Data.size cx.version front)
    (hmode : cx.mode = .assembling → AllKnown known rest) :
    ∃ t known', visitAll cx index rest s = .ok () t ∧
      Reading (Data.value cx.version nodes) (Data.labels nodes) known' [] cx t ∧
      (∀ name, name ∈ Data.labels rest ∨ name ∈ known → name ∈ known') ∧
      Emits (AllKnown known rest) (rest.flatMap Node.dataExprs)
        (rest.flatMap (Node.emission cx.version (Data.value cx.version nodes))) s t := by
  induction rest generalizing index front known s with
  | nil =>
    refine ⟨s, known, rfl, h, fun name hname => hname.resolve_left (fun hmem => nomatch hmem), ?_⟩
    exact emits_nothing trivial ⟨rfl, (List.append_nil _).symm, rfl⟩
  | cons n rest ih =>
    have hmem : n ∈ nodes := by
      rw [hnodes]
      exact List.mem_append_right _ List.mem_cons_self
    have hdistinct : (Data.labels (n :: rest)).Nodup := by
      have := hprogram.distinct
      rw [hnodes, Data.labels_append, List.nodup_append] at this
      exact this.2.1
    obtain ⟨u, hfirst, hu, hemits⟩ := visit_emits index h (hprogram.data n hmem)
      (hprogram.plain n hmem) (hprogram.names n hmem) (fun hm => (hmode hm).1) hdistinct
      fun name hname => ⟨Data.mem_labels hmem hname, by
        rw [hcursor, Data.value_of_split hprogram.distinct hnodes hname]⟩
    have hnext : u.image.cursor = Story.headerSize + Data.size cx.version (front ++ [n]) := by
      obtain ⟨stored, added, hw, hlength, -⟩ := hemits.ends
      rw [Node.length_emission] at hlength
      have htotal : Data.size cx.version nodes =
          Data.size cx.version front + (n.dataSize cx.version + Data.size cx.version rest) := by
        rw [hnodes, Data.size_append, Data.size_cons]
      rw [hw.image, Image.cursor_store _ _ (by omega), hcursor, hlength, Data.size_append,
        Data.size_cons]
      simp [Data.size]
      omega
    obtain ⟨t, known', hrest, ht, hknown, hemits'⟩ := ih (index + 1) (front ++ [n])
      (by rw [hnodes, List.append_assoc]; rfl) hu hnext fun hm => (hmode hm).2
    refine ⟨t, known', (bind_of_ok hfirst).trans hrest, ht, fun name hname => hknown name ?_, ?_⟩
    · rw [Data.labels_cons] at hname
      simp only [List.mem_append] at hname ⊢
      tauto
    · rw [List.flatMap_cons, List.flatMap_cons]
      exact hemits.append hemits'

omit cx hsize in
/-- A program of data is one section. -/
theorem ofNodes_data : Program.ofNodes nodes = ⟨nodes, [], none⟩ := by
  have hgoes : ∀ n ∈ nodes, Program.endsProgram n = false := by
    intro n hn
    have hdata := hprogram.data n hn
    unfold Node.isData at hdata
    unfold Program.endsProgram
    split at hdata <;> simp_all
  have hsections : ∀ ns : List Node, (∀ n ∈ ns, n.isData = true) →
      Program.sections ns = (ns, []) := by
    intro ns hns
    induction ns with
    | nil => rfl
    | cons n rest ih =>
      have hdata := hns n List.mem_cons_self
      rw [Program.sections, ih fun m hm => hns m (List.mem_cons_of_mem _ hm)]
      unfold Node.isData at hdata
      split at hdata <;> simp_all
  have hall : nodes.takeWhile (!Program.endsProgram ·) = nodes := by
    have hpos : ∀ n ∈ nodes, (!Program.endsProgram n) = true := fun n hn => by simp [hgoes n hn]
    have happend : (nodes ++ []).takeWhile (!Program.endsProgram ·) =
        nodes ++ [].takeWhile (!Program.endsProgram ·) := List.takeWhile_append_of_pos hpos
    simpa using happend
  unfold Program.ofNodes
  rw [hall, hsections nodes hprogram.data, List.find?_eq_none.mpr fun n hn => by simp [hgoes n hn]]

/-- A pass over a program of data writes its bytes, or finds at its end that values waited. -/
theorem pass_emits {known : List String} {s : State}
    (h : Reading (Data.value cx.version nodes) (Data.labels nodes) known (Data.labels nodes) cx s)
    (hcursor : s.image.cursor = Story.headerSize) (htable : s.table = none)
    (hfixups : s.fixups = #[]) (hchanged : s.changed = false)
    (hmode : cx.mode = .assembling → AllKnown known nodes) :
    ∃ t, pass cx (.ofNodes nodes) s = .ok () t ∧
      Knows (Data.value cx.version nodes) (Data.labels nodes) (Data.labels nodes) t.globals ∧
      DefinedBefore (cx.pass + 1) (· ∈ Data.labels nodes) t.globals ∧ t.counts = s.counts ∧
      t.diagnostics = s.diagnostics ∧
      (cx.mode = .measuring → (t.changed = true ↔ ¬ AllKnown known nodes)) ∧
      (AllKnown known nodes → t.image = s.image.store (Data.bytes cx.version nodes)) := by
  obtain ⟨t, known', hvisits, ht, hknown, hemits⟩ := visitAll_emits hprogram cx hsize 0 [] nodes
    rfl h (by rw [hcursor]; rfl) hmode
  obtain ⟨stored, added, hw, -, hsource, hwhole, hwaits⟩ := hemits.ends
  have hknows :
      Knows (Data.value cx.version nodes) (Data.labels nodes) (Data.labels nodes) t.globals :=
    ⟨fun name hname _ => ht.knows.label name hname (hknown name (.inl hname)),
      fun name hname hnot => absurd hname hnot⟩
  have hadded : t.fixups.toList = added := by
    rw [hw.fixups, hfixups]
    rfl
  have hrest := hw.rest
  have hpass : pass cx (.ofNodes nodes) s = endPass cx t := by
    rw [ofNodes_data hprogram]
    exact (bind_of_ok hvisits).trans rfl
  have htable' : t.table = none := by
    rw [hrest]
    exact htable
  rw [hpass, endPass_eq cx htable' ht.vocabulary]
  have hcounts : t.counts = s.counts := by rw [hrest]
  have hdiagnostics : t.diagnostics = s.diagnostics := by rw [hrest]
  have himage : AllKnown known nodes → t.image = s.image.store (Data.bytes cx.version nodes) := by
    intro hall
    rw [hw.image, (hwhole hall).1]
    rfl
  cases hm : cx.mode with
  | assembling =>
    have hnone : t.fixups.toList = [] := hadded.trans (hwhole (hmode hm)).2
    refine ⟨t, ?_, hknows, ht.sites, hcounts, hdiagnostics, fun hm' => (nomatch hm'), himage⟩
    dsimp only
    rw [get_bind, hnone]
    rfl
  | measuring =>
    refine ⟨_, rfl, hknows, ht.sites, hcounts, hdiagnostics, fun _ => ?_, himage⟩
    have hchanged' : t.changed = false := by
      rw [hrest]
      exact hchanged
    -- at the end every label is known, so that each fixup is
    have hresolves : ∀ f ∈ t.fixups, f.resolves cx t = true := by
      intro f hf
      have hexpr := hsource f (hadded ▸ Array.mem_toList_iff.mpr hf)
      obtain ⟨n, hn, he⟩ := List.mem_flatMap.mp hexpr
      obtain ⟨kind, -, heval⟩ := Expr.eval_of_tells (hprogram.plain n hn _ he) fun name hname =>
        ht.tells (hprogram.names n hn _ he name hname)
          (hknown name (.inl (hprogram.names n hn _ he name hname)))
      unfold Fixup.resolves
      rw [heval]
    show (t.changed || t.fixups.any fun f => f.resolves cx t) = true ↔ _
    rw [hchanged', Bool.false_or, Array.any_eq_true']
    constructor
    · rintro ⟨f, hf, -⟩ hall
      have := Array.mem_toList_iff.mpr hf
      rw [hadded, (hwhole hall).2] at this
      cases this
    · intro hnot
      obtain ⟨f, hf⟩ := List.exists_mem_of_ne_nil _ (hwaits hnot)
      have hmem : f ∈ t.fixups := Array.mem_toList_iff.mp (hadded ▸ hf)
      exact ⟨f, hmem, hresolves f hmem⟩

end Passes

/-! ## Runs -/

/-- The labels in `known` have their values when a pass is to begin. -/
structure Laid (v : Version) (nodes : List Node) (known : List String) (s : State) : Prop where
  knows : Knows (Data.value v nodes) (Data.labels nodes) known s.globals
  before : DefinedBefore (s.counts.passes + 1) (· ∈ Data.labels nodes) s.globals

theorem cursor_beginPass (s : State) (o : Options) (v : Version) (mode : Mode) :
    (s.beginPass o v mode).image.cursor = Story.headerSize :=
  cursor_fill

theorem laid_initial {nodes : List Node} (h : Data.Program nodes) (v : Version) :
    Laid v nodes [] (.initial v) := by
  have hnone : ∀ name ∈ Data.labels nodes, predefined.lookup name = none := by
    intro name hname
    have hne : "STACK" ≠ name := fun heq => h.notStack (heq ▸ hname)
    exact (SymbolTable.lookup_put _ _ _).trans (if_neg hne)
  refine ⟨⟨fun name _ hknown => (nomatch hknown), fun name hname _ => ?_⟩,
    fun name hname symbol site hlookup => ?_⟩
  · exact congrArg (fun found => (found.filter Symbol.isDefined).map Symbol.value)
      (hnone name hname)
  · cases (hnone name hname).symm.trans hlookup

section Runs

variable {nodes : List Node} (hprogram : Data.Program nodes) (o : Options) {v : Version}
  (hsize : Story.headerSize + Data.size v nodes < 2 ^ 32) {known : List String} {s : State}

include hprogram hsize

theorem onePass_data (mode : Mode) (h : Laid v nodes known s)
    (hmode : mode = .assembling → AllKnown known nodes) :
    ∃ t, onePass o (.ofNodes nodes) v mode s = .ok () t ∧ Laid v nodes (Data.labels nodes) t ∧
      t.counts = s.counts.beginPass mode ∧ t.diagnostics = #[] ∧
      (mode = .measuring → (t.changed = true ↔ ¬ AllKnown known nodes)) ∧
      (AllKnown known nodes → t.image =
        (Image.fill {} Story.headerSize 0).store (Data.bytes v nodes)) := by
  have hreading : Reading (Data.value v nodes) (Data.labels nodes) known (Data.labels nodes)
      (s.nextContext o v mode) (s.beginPass o v mode) := by
    have hglobals : (s.beginPass o v mode).globals = s.globals := by simp only [State.beginPass]
    refine ⟨rfl, rfl, rfl, rfl, ?_, ?_, ?_⟩ <;> rw [hglobals]
    · exact h.knows
    · exact h.before
    · exact h.before.mono (Nat.le_succ _)
  obtain ⟨t, hpass, hknows, hbefore, hcounts, hdiagnostics, hchanged, himage⟩ :=
    pass_emits hprogram (s.nextContext o v mode) hsize hreading (cursor_beginPass s o v mode) rfl
      rfl rfl hmode
  rw [onePass_eq]
  refine ⟨t, hpass, ⟨hknows, ?_⟩, hcounts, hdiagnostics, hchanged, himage⟩
  rw [hcounts]
  exact hbefore

theorem measure_known (left : Nat) (h : Laid v nodes known s) (hall : AllKnown known nodes) :
    ∃ t, measure o (.ofNodes nodes) v (left + 1) s = .ok () t ∧ Laid v nodes (Data.labels nodes) t ∧
      t.counts = s.counts.beginPass .measuring := by
  obtain ⟨t, hpass, ht, hcounts, -, hchanged, -⟩ :=
    onePass_data hprogram o hsize .measuring h (fun hm => nomatch hm)
  have hstill : t.changed = false :=
    Bool.eq_false_iff.mpr fun htrue => (hchanged rfl).mp htrue hall
  refine ⟨t.measured left, ?_, ⟨ht.knows, ht.before⟩, hcounts⟩
  rw [measure_of_ok left hpass, if_neg (by simp [hstill])]
  rfl

theorem measure_ahead (left : Nat) (h : Laid v nodes known s) (hnot : ¬ AllKnown known nodes) :
    ∃ t, measure o (.ofNodes nodes) v (left + 2) s = .ok () t ∧ Laid v nodes (Data.labels nodes) t ∧
      t.counts = (s.counts.beginPass .measuring).beginPass .measuring := by
  obtain ⟨t, hpass, ht, hcounts, -, hchanged, -⟩ :=
    onePass_data hprogram o hsize .measuring h (fun hm => nomatch hm)
  have hmoved : t.changed = true := (hchanged rfl).mpr hnot
  have hall : AllKnown (Data.labels nodes) nodes := allKnown_of_names hprogram.names
  obtain ⟨u, hmeasure, hu, hcounts'⟩ := measure_known hprogram o hsize left
    (s := t.measured (left + 1)) ⟨ht.knows, ht.before⟩ hall
  refine ⟨u, ?_, hu, hcounts'.trans ?_⟩
  · rw [measure_of_ok (left + 1) hpass, if_pos hmoved]
    exact hmeasure
  · show t.counts.beginPass .measuring = _
    rw [hcounts]

/-- The measuring passes of a program of data. -/
theorem measure_data :
    ∃ t, measure o (.ofNodes nodes) v maxMeasuringPasses (.initial v) = .ok () t ∧
      Laid v nodes (Data.labels nodes) t ∧
      (¬ Data.RefersAhead nodes → t.counts.measuringPasses = 1) ∧
      (Data.RefersAhead nodes → t.counts.measuringPasses = 2) := by
  have hinitial := laid_initial hprogram v
  rw [refersAhead_iff hprogram]
  by_cases hall : AllKnown [] nodes
  · obtain ⟨t, hmeasure, ht, hcounts⟩ := measure_known hprogram o hsize 15 hinitial hall
    exact ⟨t, hmeasure, ht, fun _ => by rw [hcounts]; rfl, fun hnot => absurd hall hnot⟩
  · obtain ⟨t, hmeasure, ht, hcounts⟩ := measure_ahead hprogram o hsize 14 hinitial hall
    exact ⟨t, hmeasure, ht, fun hnot => absurd hall hnot, fun _ => by rw [hcounts]; rfl⟩

end Runs

/-! ## The story -/

theorem lengthFor_le {v : Version} {size : Nat} (h : size ≤ v.maxStorySize) :
    Story.lengthFor v size ≤ v.maxStorySize := by
  unfold Story.lengthFor Story.minSize alignment wrapAddress
  cases v <;> simp only [Version.maxStorySize, Version.lengthUnit] at h ⊢ <;> omega

theorem size_store (im : Image) (bytes : List UInt8) (hend : im.cursor = im.size)
    (hfit : im.cursor + bytes.length < 4294967296) :
    (im.store bytes).size = im.size + bytes.length := by
  induction bytes generalizing im with
  | nil => rfl
  | cons b rest ih =>
    rw [List.length_cons] at hfit ⊢
    have hsize : (im.storeByte b).size = im.size + 1 := by
      show (im.patchByte im.cursor b).size = _
      rw [Image.size_patchByte]
      omega
    have hcursor : (im.storeByte b).cursor = im.cursor + 1 := wrapAddress_of_lt (by omega)
    rw [Image.store, ih (im.storeByte b) (by omega) (by omega), hsize]
    omega

theorem size_store_fill {bytes : List UInt8} (hfit : Story.headerSize + bytes.length < 2 ^ 32) :
    ((Image.fill {} Story.headerSize 0).store bytes).size = Story.headerSize + bytes.length := by
  rw [size_store _ _ (cursor_fill.trans size_fill.symm) (by rw [cursor_fill]; omega), size_fill]

/-- An image that reads as `bytes` from `start` to its end. -/
theorem drop_of_readByte {im : Image} {start : Nat} {bytes : List UInt8}
    (hsize : im.size = start + bytes.length)
    (h : ∀ i (hi : i < bytes.length), im.readByte (start + i) = bytes[i]) :
    im.bytes.toList.drop start = bytes := by
  have hlength : im.bytes.size = start + bytes.length := hsize
  refine List.ext_getElem (by simp [hlength]) fun i hi hi' => ?_
  have hread := h i hi'
  have hin : start + i < im.bytes.size := by omega
  simp only [Image.readByte, Array.getD_eq_getD_getElem?, Array.getElem?_eq_getElem hin,
    Option.getD_some] at hread
  simpa using hread

/-- The story of an image that holds `bytes` after its header. -/
theorem finish_fill (v : Version) (id : Story.Identity) {s : State} {bytes : List UInt8}
    (himage : s.image = (Image.fill {} Story.headerSize 0).store bytes)
    (hfit : Story.headerSize + bytes.length + v.lengthUnit ≤ 2 ^ 32) :
    (Story.finish v id s).size = Story.lengthFor v (Story.headerSize + bytes.length) ∧
      (Story.finish v id s).bytes.toList.drop Story.headerSize = bytes ++ List.replicate
        ((Story.finish v id s).size - (Story.headerSize + bytes.length)) 0 := by
  have hpos := Story.lengthUnit_pos v
  have hsize : s.image.size = Story.headerSize + bytes.length :=
    himage ▸ size_store_fill (by omega)
  have hlength := Story.size_finish v id (hsize ▸ hfit)
  rw [hsize] at hlength
  have hroom := (Story.lengthFor_ge v hfit).1
  refine ⟨hlength, drop_of_readByte ?_ fun i hi => ?_⟩
  · rw [hlength, List.length_append, List.length_replicate]
    omega
  · rw [(Story.finish_keeps v id s).2 _ (Nat.le_add_right _ _), Story.padded,
      Story.readByte_padTo (by omega), List.getElem_append]
    split
    · next hin =>
      have hstored := Image.readByte_store_at (Image.fill {} Story.headerSize 0) bytes
        (himage ▸ (by omega : s.image.size < 2 ^ 32)) i hin
      rwa [cursor_fill, ← himage] at hstored
    · next hout =>
      have hend : s.image.bytes.size ≤ Story.headerSize + i := by
        show s.image.size ≤ _
        omega
      rw [List.getElem_replicate, Image.readByte, Array.getD_eq_getD_getElem?,
        Array.getElem?_eq_none hend]
      rfl

theorem finishStory_of_fits (o : Options) {v : Version} {s : State} (hreports : s.diagnostics = #[])
    (hfit : s.image.size ≤ v.maxStorySize) :
    ∃ t, finishStory o v s = .ok ⟨(Story.finish v o.identity s).bytes.toList, s.text⟩ t ∧
      t.counts = s.counts := by
  have herrors : ¬ 0 < errorCount s.diagnostics.toList := by
    rw [hreports]
    decide
  have hmax := maxStorySize_le v
  unfold finishStory
  dsimp only
  rw [Image.length_of_lt (by omega), if_neg herrors, if_neg (Nat.not_lt.mpr (lengthFor_le hfit))]
  exact ⟨_, rfl, rfl⟩

/-! ## Programs of data -/

section Assembling

variable {nodes : List Node} (hprogram : Data.Program nodes) (o : Options)
  (hsize : Story.headerSize + Data.size o.version nodes ≤ o.version.maxStorySize)

include hprogram hsize

/-- The passes of a program of data come to their end without a report. -/
theorem passes_data :
    ∃ t, passes o (.ofNodes nodes) o.version (.initial o.version) = .ok () t ∧
      Laid o.version nodes (Data.labels nodes) t ∧ t.diagnostics = #[] ∧
      t.image = (Image.fill {} Story.headerSize 0).store (Data.bytes o.version nodes) ∧
      (¬ Data.RefersAhead nodes → t.counts.measuringPasses = 1) ∧
      (Data.RefersAhead nodes → t.counts.measuringPasses = 2) := by
  have hfits : Story.headerSize + Data.size o.version nodes < 2 ^ 32 := by
    have := maxStorySize_le o.version
    omega
  obtain ⟨s, hmeasure, hlaid, honce, htwice⟩ := measure_data hprogram o hfits
  have hall : AllKnown (Data.labels nodes) nodes := allKnown_of_names hprogram.names
  obtain ⟨t, hpass, ht, hcounts, hdiagnostics, -, himage⟩ :=
    onePass_data hprogram o hfits .assembling hlaid fun _ => hall
  have hsame : t.counts.measuringPasses = s.counts.measuringPasses := by
    rw [hcounts]
    rfl
  rw [← hsame] at honce htwice
  exact ⟨t, (bind_of_ok hmeasure).trans hpass, ht, hdiagnostics, himage hall, honce, htwice⟩

/-- A program of data assembles, and its story holds its bytes. -/
theorem assemble_data :
    ∃ story p, (assemble o nodes).result = .ok story ∧ finalPass? o nodes = some p ∧
      Laid o.version nodes (Data.labels nodes) p.finish ∧
      story.bytes = (Story.finish o.version o.identity p.finish).bytes.toList ∧
      p.finish.image = (Image.fill {} Story.headerSize 0).store (Data.bytes o.version nodes) ∧
      (assemble o nodes).counts = p.finish.counts ∧
      (¬ Data.RefersAhead nodes → p.finish.counts.measuringPasses = 1) ∧
      (Data.RefersAhead nodes → p.finish.counts.measuringPasses = 2) := by
  obtain ⟨t, hpasses, hlaid, hdiagnostics, himage, hcounts⟩ := passes_data hprogram o hsize
  have hattempt : attempt o (.ofNodes nodes) (Version.all.length - 1) [o.version] o.version
      (.initial o.version) = .ok o.version t := by
    unfold attempt
    rw [hpasses]
  obtain ⟨p, hp, hends⟩ := exists_attemptPass hattempt
  have hlength : t.image.size ≤ o.version.maxStorySize := by
    have hmax := maxStorySize_le o.version
    have hbytes := Data.length_bytes o.version nodes
    rw [himage, size_store_fill (by omega), hbytes]
    exact hsize
  obtain ⟨u, hfinish, hucounts⟩ := finishStory_of_fits o hdiagnostics hlength
  have hrun : run o (.ofNodes nodes) (.initial o.version) = _ := (bind_of_ok hattempt).trans hfinish
  have houtcome : (assemble o nodes).result =
      .ok ⟨(Story.finish o.version o.identity t).bytes.toList, t.text⟩ ∧
        (assemble o nodes).counts = t.counts := by
    unfold assemble
    rw [hrun]
    exact ⟨rfl, hucounts⟩
  rw [← hends.finish] at hlaid himage hcounts houtcome
  refine ⟨_, p, houtcome.1, hp, hlaid, ?_, himage, houtcome.2, hcounts⟩
  dsimp only

end Assembling

/-- A program of data that the version has room for assembles. Each label is the address after the
    nodes before it, the story holds the emissions of the nodes one after another and then zeros,
    and the layout is measured twice if a value refers to a label behind it, and else once. -/
theorem data_programs_assemble {nodes : List Node} (hprogram : Data.Program nodes) (o : Options)
    (hsize : Story.headerSize + Data.size o.version nodes ≤ o.version.maxStorySize) :
    ∃ story p, (assemble o nodes).result = .ok story ∧ finalPass? o nodes = some p ∧
      (∀ front n back name, nodes = front ++ n :: back → n.kind = .globalLabel name →
        p.finish.globals.valueOf name =
          some (Int32.ofNat (Story.headerSize + Data.size o.version front))) ∧
      story.bytes.drop Story.headerSize = Data.bytes o.version nodes ++ List.replicate
        (story.bytes.length - (Story.headerSize + Data.size o.version nodes)) 0 ∧
      (¬ Data.RefersAhead nodes → (assemble o nodes).counts.measuringPasses = 1) ∧
      (Data.RefersAhead nodes → (assemble o nodes).counts.measuringPasses = 2) := by
  obtain ⟨story, p, hresult, hp, hlaid, hbytes, himage, hcounts, hpasses⟩ :=
    assemble_data hprogram o hsize
  refine ⟨story, p, hresult, hp, ?_, ?_, hcounts ▸ hpasses⟩
  · intro front n back name hnodes hkind
    have hlabel : n.globalLabel? = some name := by simp [Node.globalLabel?, hkind]
    have hname : name ∈ Data.labels nodes := Data.mem_labels (by simp [hnodes]) hlabel
    obtain ⟨symbol, hlookup, hkind, hvalue⟩ := hlaid.knows.label name hname hname
    rw [valueOf_of_lookup hlookup, if_pos (by simp [Symbol.isDefined, hkind]), hvalue,
      Data.value_of_split hprogram.distinct hnodes hlabel]
  · have hfit :
        Story.headerSize + (Data.bytes o.version nodes).length + o.version.lengthUnit ≤ 2 ^ 32 := by
      have hmax := maxStorySize_le o.version
      have hunit := Story.lengthUnit_le o.version
      rw [Data.length_bytes]
      omega
    have hlength : story.bytes.length = (Story.finish o.version o.identity p.finish).size := by
      rw [hbytes]
      rfl
    rw [hlength, hbytes, (finish_fill o.version o.identity himage hfit).2, Data.length_bytes]

/-- The first word refers to the last label, and the last value to both. -/
def crossing : List Node :=
  [⟨.directive (.word [.add (.symbol "B") (.number (-1))]), {}⟩, ⟨.globalLabel "A", {}⟩,
    ⟨.directive (.str "dusk"), {}⟩, ⟨.globalLabel "B", {}⟩,
    ⟨.directive (.byte [.symbol "A", .add (.symbol "A") (.symbol "B")]), {}⟩]

def crossingOptions : Options := { version := .v5, identity := { serial := "000000" } }

theorem crossing_program : Data.Program crossing where
  data := by decide
  distinct := by decide
  notStack := by decide
  plain := by decide
  names := by decide

theorem crossing_assembles :
    Data.Program crossing ∧ Data.RefersAhead crossing ∧
      Story.headerSize + Data.size crossingOptions.version crossing ≤
      crossingOptions.version.maxStorySize ∧
      ∃ story p, (assemble crossingOptions crossing).result = .ok story ∧
        finalPass? crossingOptions crossing = some p ∧
        p.finish.globals.valueOf "A" = some 66 ∧ p.finish.globals.valueOf "B" = some 70 ∧
        story.bytes.drop Story.headerSize = [0, 69, 39, 88, 192, 165, 66, 136] ++
          List.replicate (story.bytes.length - (Story.headerSize + 8)) 0 ∧
        (assemble crossingOptions crossing).counts.measuringPasses = 2 := by
  have hahead : Data.RefersAhead crossing :=
    ⟨[], _, _, rfl, _, List.mem_singleton_self _, "B", by decide, by decide⟩
  have hsize : Story.headerSize + Data.size crossingOptions.version crossing ≤
      crossingOptions.version.maxStorySize := by decide +kernel
  have htotal : Data.size crossingOptions.version crossing = 8 := by decide +kernel
  have hemitted : Data.bytes crossingOptions.version crossing =
      [0, 69, 39, 88, 192, 165, 66, 136] := by decide +kernel
  obtain ⟨story, p, hresult, hp, hlabels, hbytes, -, htwice⟩ :=
    data_programs_assemble crossing_program crossingOptions hsize
  rw [htotal, hemitted] at hbytes
  exact ⟨crossing_program, hahead, hsize, story, p, hresult, hp,
    hlabels (crossing.take 1) _ (crossing.drop 2) "A" rfl rfl,
    hlabels (crossing.take 3) _ (crossing.drop 4) "B" rfl rfl, hbytes, htwice hahead⟩

end Assembly

end ZAssembler
