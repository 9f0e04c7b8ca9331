import ZAssembler.Proofs.DataValues
import ZAssembler.Proofs.Definitions
import ZAssembler.Proofs.Packing
import ZAssembler.Proofs.Thread

/-
  The packed addresses of routines and strings. A node that places one pads to where it may begin,
  gives its name the packed address and writes it there (`Places`). The settled walks hand on the
  bases, and a base that is fixed stays (`Packs`), so the base that the story's header names is the
  one that the node packed from: unpacking the value of the name leads to where it was placed.
-/

namespace ZAssembler

theorem Image.store_append (im : Image) (bytes bytes' : List UInt8) :
    im.store (bytes ++ bytes') = (im.store bytes).store bytes' := by
  induction bytes generalizing im with
  | nil => rfl
  | cons b rest ih => exact ih (im.storeByte b)

namespace Assembly

/-! ## Bases along a pass -/

/-- The bases are those that were fixed and such as lie at or below the cursor. -/
structure Packs (v : Version) (s t : State) : Prop where
  within : t.image.cursor ≤ t.image.size
  based : t.packing.Based v t.image.cursor
  kept : ∀ kind base, s.packing.bases.get kind = some base →
    t.packing.bases.get kind = some base

section Bases

variable {v : Version} {n : Node} {here : Nat} {s t : State}

theorem packs_of_mark (hmark : t.mark = s.mark) (hsize : s.image.size ≤ t.image.size)
    (hwithin : s.image.cursor ≤ s.image.size) (hs : s.packing.Based v s.image.cursor) :
    Packs v s t := by
  have hpacking : t.packing = s.packing := congrArg Mark.packing hmark
  have hcursor : t.image.cursor = s.image.cursor := congrArg Mark.position hmark
  refine ⟨by omega, ?_, fun kind base hbase => ?_⟩
  · rw [hpacking, hcursor]
    exact hs
  · rw [hpacking, hbase]

theorem Act.packs (h : Act n here s t) (hfit : t.image.size < 2 ^ 32)
    (hwithin : s.image.cursor ≤ s.image.size) (hs : s.packing.Based v s.image.cursor) :
    Packs v s t := by
  cases h with
  | effect h =>
    cases h with
    | quiet h => exact packs_of_mark h.mark (h.image ▸ Nat.le_refl _) hwithin hs
    | store bytes =>
      obtain ⟨hcursor, hinside⟩ := Image.cursor_store_le s.image bytes hfit hwithin
      exact ⟨hinside, hs.mono (hcursor ▸ Nat.le_add_right _ _), fun _ _ => id⟩
    | pack kind => exact ⟨hwithin, hs.padding kind, fun _ _ => Packing.get_padding kind⟩
    | report | fixup | block | openBlock | table | scope | register =>
      exact ⟨hwithin, hs, fun _ _ => id⟩
  | close _ h => exact packs_of_mark h.mark h.size hwithin hs
  | object | globalVar | record | text => exact ⟨hwithin, hs, fun _ _ => id⟩

theorem Acts.packs (h : Acts n here s t) (hfit : t.image.size < 2 ^ 32)
    (hwithin : s.image.cursor ≤ s.image.size) (hs : s.packing.Based v s.image.cursor) :
    Packs v s t := by
  induction h with
  | refl => exact ⟨hwithin, hs, fun _ _ => id⟩
  | tail _ hstep ih =>
    have hbefore := ih (Nat.lt_of_le_of_lt hstep.onward.size hfit)
    have hafter := hstep.packs hfit hbefore.within hbefore.based
    exact ⟨hafter.within, hafter.based, fun kind base h => hafter.kept kind base
      (hbefore.kept kind base h)⟩

end Bases

/-! ## Placing a routine or string -/

/-- The warning that the packed address of a name does not fit a word. -/
def Overflows (diagnostics : List Diagnostic) (name : String) : Prop :=
  ∃ d ∈ diagnostics, d.severity = .warning ∧ ∃ packed, d.problem = .packedOverflow packed name

/-- The padding before a routine or string, and its packed address. -/
structure Placed (kind : PackedKind) (name : String) (packed : Nat) (s t : State) : Prop where
  image : t.image = s.image.store (List.replicate (s.packing.padding kind s.image.cursor).1 0)
  packing : t.packing = (s.packing.padding kind s.image.cursor).2
  address : packed = t.packing.pack kind t.image.cursor
  encoder : t.encoder = s.encoder
  vocabulary : t.vocabulary = s.vocabulary
  warned : 0xFFFF < packed → Overflows t.diagnostics.toList name

/-- Bytes are stored, and what a packed address depends on stays. -/
structure Puts (bytes : List UInt8) (s t : State) : Prop where
  image : t.image = s.image.store bytes
  packing : t.packing = s.packing
  encoder : t.encoder = s.encoder
  vocabulary : s.vocabulary = none → t.vocabulary = none
  diagnostics : s.diagnostics.toList <+: t.diagnostics.toList

/-- Node `n` places a routine or string, gives its name the packed address and writes `bytes`. -/
def Places (cx : Context) (n : Node) (kind : PackedKind) (name : String) (bytes : List UInt8)
    (s t : State) : Prop :=
  ∃ packed u, Placed kind name packed s u ∧ Puts bytes u t ∧
    Gives cx n name (Int32.ofNat (packed % 65536)) s t

section Placing

variable {cx : Context} {n : Node} {bytes bytes' : List UInt8} {s t u : State}

theorem Puts.trans (hst : Puts bytes s t) (htu : Puts bytes' t u) : Puts (bytes ++ bytes') s u where
  image := by rw [htu.image, hst.image, Image.store_append]
  packing := htu.packing.trans hst.packing
  encoder := htu.encoder.trans hst.encoder
  vocabulary h := htu.vocabulary (hst.vocabulary h)
  diagnostics := hst.diagnostics.trans htu.diagnostics

theorem puts_store (s : State) (bytes : List UInt8) :
    Puts bytes s { s with image := s.image.store bytes } :=
  ⟨rfl, rfl, rfl, id, List.prefix_rfl⟩

theorem overflows_report (s : State) (packed : Nat) (name : String) :
    Overflows (s.report .warning (.packedOverflow packed name)).diagnostics.toList name :=
  ⟨s.diagnostic .warning (.packedOverflow packed name), by simp [State.report], rfl, packed, rfl⟩

theorem placePacked_ok {kind : PackedKind} {name : String} {packed : Nat}
    (h : placePacked cx kind name s = .ok packed t) : Placed kind name packed s t := by
  unfold placePacked at h
  rw [get_bind] at h
  dsimp only at h
  rw [set_bind] at h
  obtain ⟨⟨⟩, u, hpad, h⟩ := bind_ok h
  cases hpad
  obtain ⟨addr, u, hposition, h⟩ := bind_ok h
  cases hposition
  split at h
  · obtain ⟨⟨⟩, u, hwarn, h⟩ := bind_ok h
    obtain ⟨log, heq⟩ := warn_eq cx (.packedOverflow _ name) _
    cases heq.symm.trans hwarn
    cases h
    exact ⟨rfl, rfl, rfl, rfl, rfl, fun _ => overflows_report _ _ name⟩
  · next hsmall =>
    cases h
    exact ⟨rfl, rfl, rfl, rfl, rfl, fun hlarge => absurd hlarge hsmall⟩

theorem puts_defineGlobal (hm : cx.mode = .assembling) {name : String} {kind : SymbolKind}
    {value : Int32} (hkind : kind ≠ .unknown) (h : defineGlobal cx name kind value s = .ok () t) :
    Puts [] s t := by
  obtain ⟨-, symbol, u, -, hnoted, rfl⟩ := defineGlobal_ok hm hkind h
  cases hnoted with
  | same => exact ⟨rfl, rfl, rfl, id, List.prefix_rfl⟩
  | inBlock v old _ _ hv =>
    exact ⟨rfl, rfl, rfl, fun hnone => (nomatch hnone.symm.trans hv), List.prefix_rfl⟩
  | inRoutine => exact ⟨rfl, rfl, rfl, id, List.prefix_rfl⟩

theorem puts_writeDefault (hm : cx.mode = .assembling) {default : Option Expr}
    (hblock : s.vocabulary = none) (h : writeDefault cx default s = .ok () t) :
    ∃ bytes : List UInt8, bytes.length = 2 ∧ Puts bytes s t := by
  cases default with
  | none =>
    cases h
    exact ⟨_, rfl, puts_store s _⟩
  | some e =>
    obtain ⟨kind, value, -, rfl⟩ := writeValue_ok hm hblock h
    exact ⟨_, rfl, puts_store s _⟩

theorem puts_defaults (hm : cx.mode = .assembling) {locals : List LocalDecl}
    (hblock : s.vocabulary = none)
    (h : locals.forM (fun decl => writeDefault cx decl.default) s = .ok () t) :
    ∃ bytes : List UInt8, bytes.length = 2 * locals.length ∧ Puts bytes s t := by
  induction locals generalizing s with
  | nil =>
    cases h
    exact ⟨[], rfl, puts_store _ []⟩
  | cons decl rest ih =>
    obtain ⟨u, hfirst, hrest⟩ := forM_cons_ok h
    obtain ⟨bytes, hlength, hputs⟩ := puts_writeDefault hm hblock hfirst
    obtain ⟨bytes', hlength', hputs'⟩ := ih (hputs.vocabulary hblock) hrest
    refine ⟨bytes ++ bytes', ?_, hputs.trans hputs'⟩
    rw [List.length_append, List.length_cons, hlength, hlength']
    omega

/-- The bytes that follow the number of locals. -/
theorem localDefaults_ok (hm : cx.mode = .assembling) {name : String} {locals : List LocalDecl}
    (hblock : s.vocabulary = none) (h : localDefaults cx name locals s = .ok () t) :
    ∃ bytes : List UInt8,
      bytes.length = (if cx.version.hasLocalDefaults then 2 * locals.length else 0) ∧
        Puts bytes s t := by
  unfold localDefaults at h
  split at h
  · next hdefaults =>
    rw [if_pos hdefaults]
    exact puts_defaults hm hblock h
  · next hdefaults =>
    rw [if_neg hdefaults]
    refine ⟨[], rfl, ?_⟩
    split at h
    · obtain ⟨log, heq⟩ := warn_eq cx (.ignoredLocalDefaults cx.version name) s
      cases heq.symm.trans h
      exact ⟨rfl, rfl, rfl, id, prefix_push _ _⟩
    · cases h
      exact puts_store s []

theorem packedString_ok (hm : cx.mode = .assembling) {name text : String}
    (h : packedString cx name text s = .ok () t) :
    Places cx n .string name (s.encoder.encode text) s t := by
  unfold packedString at h
  obtain ⟨packed, u, hplaced, h⟩ := bind_ok h
  obtain ⟨⟨⟩, u', hdefine, h⟩ := bind_ok h
  have hplace := placePacked_ok hplaced
  have hdefined := puts_defineGlobal hm (by decide) hdefine
  cases h
  refine ⟨packed, u, hplace, ?_, .string, u, u', by decide, ?_, hdefine, ⟨rfl, rfl, rfl⟩⟩
  · refine hdefined.trans ⟨?_, rfl, rfl, id, List.prefix_rfl⟩
    rw [← hplace.encoder, ← hdefined.encoder]
    rfl
  · exact (Work.does (a := 0) (work_placePacked _ _ s) hm).of_ok hplaced

theorem plain_localDefaults (hm : cx.mode = .assembling) (name : String) (locals : List LocalDecl)
    (s : State) : Does Plain (localDefaults cx name locals) s := by
  unfold localDefaults
  split
  · exact does_forM _ _ (fun decl _ t => plain_writeDefault hm decl.default t) s
  · split
    · exact plain_warn _ s
    · exact does_of_ok rfl ⟨rfl, rfl, rfl⟩

theorem reportError_ok {problem : Problem} (h : reportError cx problem s = .ok () t) :
    t = s.report .error problem := by
  unfold reportError at h
  rw [modify_bind, get_bind] at h
  cases hmany : (s.report .error problem).tooManyErrors? cx with
  | some tooMany =>
    rw [hmany] at h
    cases h
  | none =>
    rw [hmany] at h
    cases h
    rfl

/-- What the head of a routine does once its name is defined. -/
theorem headRest_ok (hm : cx.mode = .assembling) {name : String} {locals : List LocalDecl}
    {start addr : Nat} {r v : State} (hblock : r.vocabulary = none)
    (hopening : (do
      storeByte (UInt8.ofNat locals.length)
      declareLocals locals
      return addr : Step Nat) r = .ok start u)
    (hdefaults : localDefaults cx name locals u = .ok () v)
    (hlabels : predeclareLabels start v = .ok () t) :
    Plain r t ∧ ∃ defaults : List UInt8,
      defaults.length = (if cx.version.hasLocalDefaults then 2 * locals.length else 0) ∧
        Puts (UInt8.ofNat locals.length :: defaults) r t := by
  cases hopening
  cases (predeclareLabels_eq start v).symm.trans hlabels
  have hplain := (plain_localDefaults hm name locals _).of_ok hdefaults
  obtain ⟨defaults, hlength, hputs⟩ := localDefaults_ok hm (by exact hblock) hdefaults
  refine ⟨⟨hplain.globals, hplain.vocabulary, hplain.index⟩, defaults, hlength, ?_⟩
  exact ⟨hputs.image, hputs.packing, hputs.encoder, hputs.vocabulary, hputs.diagnostics⟩

/-- The head of a routine places the number of its locals and their defaults. -/
theorem routineHead_ok (hm : cx.mode = .assembling) {name : String} {locals : List LocalDecl}
    (hnode : n.kind = .directive (.funct name locals)) (hblock : s.vocabulary = none)
    (h : routineHead cx name locals s = .ok () t) (herrors : errorCount t.diagnostics.toList = 0) :
    ∃ defaults : List UInt8,
      defaults.length = (if cx.version.hasLocalDefaults then 2 * locals.length else 0) ∧
        Places cx n .routine name (UInt8.ofNat locals.length :: defaults) s t := by
  rw [routineHead_eq] at h
  obtain ⟨start, v, hopening, h⟩ := bind_ok h
  obtain ⟨⟨⟩, v', hdefaults, hlabels⟩ := bind_ok h
  unfold headOpening at hopening
  rw [modify_bind] at hopening
  obtain ⟨packed, u, hplaced, hopening⟩ := bind_ok hopening
  obtain ⟨addr, u', hposition, hopening⟩ := bind_ok hopening
  cases hposition
  obtain ⟨⟨⟩, r, hdefine, hopening⟩ := bind_ok hopening
  have hplace := placePacked_ok hplaced
  have hdefined := puts_defineGlobal hm (by decide) hdefine
  have hr : r.vocabulary = none := hdefined.vocabulary (hplace.vocabulary.trans hblock)
  split at hopening
  · -- too many locals are an error, which is not taken back
    obtain ⟨⟨⟩, r', hreport, hopening⟩ := bind_ok hopening
    cases reportError_ok hreport
    obtain ⟨-, defaults, -, hputs⟩ := headRest_ok hm (by exact hr) hopening hdefaults hlabels
    have hpos := errorCount_report_pos r (.tooManyLocals locals.length)
    have hle := errorCount_mono hputs.diagnostics
    omega
  · next hfew =>
    rw [List.take_of_length_le (Nat.le_of_not_lt hfew)] at hopening hdefaults
    obtain ⟨hplain, defaults, hlength, hputs⟩ := headRest_ok hm hr hopening hdefaults hlabels
    have hcleared : Changes cx n s { s with locals := .empty } :=
      .single (.locals s .empty name locals hnode)
    refine ⟨defaults, hlength, packed, u, ?_, hdefined.trans hputs, .routine, u, r, by decide, ?_,
      hdefine, hplain⟩
    · exact ⟨hplace.image, hplace.packing, hplace.address, hplace.encoder, hplace.vocabulary,
        hplace.warned⟩
    · exact hcleared.trans ((Work.does (a := 0) (work_placePacked _ _ _) hm).of_ok hplaced)

end Placing

/-! ## Settled walks -/

section Settled

variable {p : FinalPass} {o : Options} {nodes : List Node} {story : AssembledStory}
  (h : p.Makes o nodes story) {v : Visit} (hv : v ∈ p.settledVisits)

include h hv

theorem settled_acts : Acts v.node v.before.image.cursor v.before v.after := by
  obtain ⟨w, hw, hset, hv⟩ := mem_settledVisits.mp hv
  exact (node_acts p.context v.before rfl).of_ok (settled_ok h hw hset hv)

/-- What a settled visit reported is reported in the end. -/
theorem settled_diagnostics :
    v.after.diagnostics.toList <+: p.finish.diagnostics.toList := by
  obtain ⟨-, back, t, -, hback, hended, -, hmem⟩ := h.thread_at hv
  refine List.IsPrefix.trans ?_ hended.diagnostics
  refine hback.keeps (P := fun m => v.after.diagnostics.toList <+: m.diagnostics.toList)
    (fun w hw hbefore => ?_) List.prefix_rfl
  exact hbefore.trans (settled_acts h (hmem w hw)).onward.grows.diagnostics

theorem settled_no_errors : errorCount v.after.diagnostics.toList = 0 := by
  have hle := errorCount_mono (settled_diagnostics h hv)
  have hnone := no_errors h
  omega

variable (hfit : p.Fits)

include hfit

theorem settled_above : Above Story.headerSize v.before ∧ v.after.image.size < 2 ^ 32 := by
  obtain ⟨w, hw, hset, hv⟩ := mem_settledVisits.mp hv
  obtain ⟨t, hcourse⟩ := h.course
  obtain ⟨place, earlier, later, u, hcut⟩ := hcourse.cut hw hset hv
  exact ⟨hcut.above_before h hfit, (hcut.later_after h hfit).2⟩

theorem settled_packs (hs : v.before.packing.Based p.context.version v.before.image.cursor) :
    Packs p.context.version v.before v.after := by
  obtain ⟨habove, hafter⟩ := settled_above h hv hfit
  exact (settled_acts h hv).packs hafter habove.within hs

omit hv in
/-- Settled visits hand on the bases. -/
theorem thread_packs {a b : Mark} {vs : List Visit} (hthread : Thread a vs b)
    (hvs : ∀ v ∈ vs, v ∈ p.settledVisits) (ha : a.packing.Based p.context.version a.position) :
    b.packing.Based p.context.version b.position ∧ ∀ kind base,
      a.packing.bases.get kind = some base → b.packing.bases.get kind = some base := by
  refine hthread.keeps (P := fun m => m.packing.Based p.context.version m.position ∧
    ∀ kind base, a.packing.bases.get kind = some base → m.packing.bases.get kind = some base)
    (fun v hv hs => ?_) ⟨ha, fun _ _ => id⟩
  have hpacks := settled_packs h (hvs v hv) hfit hs.1
  exact ⟨hpacks.based, fun kind base hbase => hpacks.kept kind base (hs.2 kind base hbase)⟩

omit hv hfit in
theorem start_based : p.start.packing.Based p.context.version p.start.image.cursor := by
  obtain ⟨s, hs⟩ := h.begins
  rw [hs]
  exact ⟨rfl, fun kind base hbase => by cases kind <;> cases hbase⟩

theorem settled_based : v.before.packing.Based p.context.version v.before.image.cursor := by
  obtain ⟨front, -, -, hfront, -, -, hmem, -⟩ := h.thread_at hv
  exact (thread_packs h hfit hfront hmem (start_based h)).1

/-- The bases at the end, and those among them that a settled visit left. -/
theorem finish_packs :
    p.finish.packing.Based p.context.version p.finish.image.cursor ∧ ∀ kind base,
      v.after.packing.bases.get kind = some base →
        p.finish.packing.bases.get kind = some base := by
  obtain ⟨-, back, t, -, hback, hended, -, hmem⟩ := h.thread_at hv
  have hpacks := settled_packs h hv hfit (settled_based h hv hfit)
  rw [hended.packing, hended.image]
  exact thread_packs h hfit hback hmem hpacks.based

/-- The base of what a settled visit placed is the base that the header names. -/
theorem settled_headerOffset {kind : PackedKind}
    (hplaced : v.after.packing = (v.before.packing.padding kind v.before.image.cursor).2)
    (hlt : (v.after.packing.bases.get kind).getD 0 < 2 ^ 19) :
    8 * Story.wordAt story.bytes kind.headerAddress = (v.after.packing.bases.get kind).getD 0 := by
  have hbased := settled_based h hv hfit
  obtain ⟨hfinish, hkept⟩ := finish_packs h hv hfit
  have hsame : p.finish.packing.bases.get kind = v.after.packing.bases.get kind := by
    cases huses : v.before.packing.version.usesPackingOffsets with
    | true =>
      have hfixed := Packing.get_padding_self v.before.packing kind v.before.image.cursor huses
      rw [← hplaced] at hfixed
      rw [hfixed, hkept kind _ hfixed]
    | false =>
      rw [hbased.version] at huses
      have hafter := hbased.padding kind
      rw [← hplaced] at hafter
      rw [hfinish.get_of_no_offsets huses, hafter.get_of_no_offsets huses]
  obtain ⟨s, hs⟩ := h.finishes
  obtain ⟨-, -, hbytes, -⟩ := finishStory_ok hs
  rw [hbytes, Story.wordAt_finish, ← hsame]
  exact hfinish.headerOffset kind (hsame ▸ hlt)

section Places

variable {kind : PackedKind} {name : String} {packed : Nat} {bytes : List UInt8} {u : State}
  (hplaced : Placed kind name packed v.before u) (hputs : Puts bytes u v.after)

include hplaced hputs

/-- Where a settled visit placed something, and how that is packed. -/
theorem settled_placed :
    Story.headerSize ≤ u.image.cursor ∧ u.image.cursor ≤ u.image.size ∧
      u.image.cursor + bytes.length = v.after.image.cursor ∧ 0 < packed ∧
      (u.packing.bases.get kind).getD 0 + p.context.version.packingDivisor * packed =
        u.image.cursor := by
  obtain ⟨habove, hafter⟩ := settled_above h hv hfit
  have hlow := habove.cursor
  have hheader : Story.headerSize = 64 := rfl
  have hstored : (u.image.store bytes).size < 2 ^ 32 := hputs.image ▸ hafter
  have hsize := Image.size_le_store u.image bytes
  have hpadded : (v.before.image.store
      (List.replicate (v.before.packing.padding kind v.before.image.cursor).1 0)).size <
      2 ^ 32 := by
    rw [← hplaced.image]
    omega
  obtain ⟨hcursor, hwithin⟩ := Image.cursor_store_le _ _ hpadded habove.within
  rw [← hplaced.image] at hcursor hwithin
  rw [List.length_replicate] at hcursor
  obtain ⟨hend, -⟩ := Image.cursor_store_le u.image bytes hstored hwithin
  rw [← hputs.image] at hend
  obtain ⟨hpos, hunpack⟩ := (settled_based h hv hfit).unpack kind (by omega) hcursor (by omega)
  rw [← hplaced.packing, ← hplaced.address] at hpos hunpack
  exact ⟨by omega, hwithin, hend.symm, hpos, hunpack⟩

theorem settled_unpack :
    Story.unpack p.context.version story.bytes kind packed = u.image.cursor := by
  obtain ⟨-, -, hend, hpos, hunpack⟩ := settled_placed h hv hfit hplaced hputs
  obtain ⟨w, hw, hset, hvisit⟩ := mem_settledVisits.mp hv
  have hinside := settled_end_le h hfit hw hset hvisit
  have hmax := maxStorySize_le p.context.version
  have hdistance := Nat.mul_pos (packingDivisor_pos p.context.version) hpos
  have hbase : 8 * Story.wordAt story.bytes kind.headerAddress =
      (u.packing.bases.get kind).getD 0 := by
    rw [← hputs.packing]
    refine settled_headerOffset h hv hfit (hputs.packing.trans hplaced.packing) ?_
    rw [hputs.packing]
    omega
  unfold Story.unpack
  rw [← hunpack, ← hbase]
  push_cast
  rfl

end Places

/-- What a settled visit placed is found from the value of its name, unless that does not fit. -/
theorem settled_place {kind : PackedKind} {name : String} {bytes : List UInt8}
    (hplaces : Places p.context v.node kind name bytes v.before v.after)
    (hlabel : ∀ label, v.node.kind ≠ .globalLabel label)
    (hclose : v.node.kind ≠ .directive .vocend) (hblock : v.before.vocabulary = none) :
    Overflows (assemble o nodes).diagnostics name ∨
      ∃ value addr, p.finish.globals.valueOf name = some value ∧ value ≠ 0 ∧
        Story.unpack p.context.version story.bytes kind value.toInt = (addr : Nat) ∧
        addr + bytes.length = v.after.image.cursor ∧ bytes <+: story.bytes.drop addr := by
  obtain ⟨packed, u, hplaced, hputs, hgives⟩ := hplaces
  by_cases hlarge : 0xFFFF < packed
  · left
    obtain ⟨d, hd, hwarning⟩ := hplaced.warned hlarge
    obtain ⟨s, hs, hreported, -⟩ := h.reports
    obtain ⟨-, -, -, -, hdiagnostics, -⟩ := finishStory_ok hs
    rw [hreported, hdiagnostics]
    exact ⟨d, (hputs.diagnostics.trans (settled_diagnostics h hv)).mem hd, hwarning⟩
  · right
    obtain ⟨hlow, hwithin, hend, hpos, -⟩ := settled_placed h hv hfit hplaced hputs
    have hunpack := settled_unpack h hv hfit hplaced hputs
    obtain ⟨w, hw, hset, hvisit⟩ := mem_settledVisits.mp hv
    have hvalue := settled_value h hw hset hvisit hlabel hclose hgives
    rw [Nat.mod_eq_of_lt (by omega)] at hvalue
    have hint : (Int32.ofNat packed).toInt = packed := Int32.toInt_ofNat_of_lt (by omega)
    refine ⟨_, u.image.cursor, hvalue, fun hzero => ?_, hint ▸ hunpack, hend, ?_⟩
    · rw [hzero] at hint
      have hpacked : (0 : Int) = packed := hint
      omega
    · exact settled_image h hfit hw hset hvisit hlow hwithin
        (hputs.vocabulary (hplaced.vocabulary.trans hblock)) hputs.image

end Settled

/-- Packed addresses lead to what they stand for. In every assembly that succeeds and whose
    addresses and length do not wrap, the name of each routine and string that a settled walk puts
    outside a vocabulary block either has a value that is not 0 and that unpacks, with the bases in
    the story's header, to where its first byte was put, or there is the warning that it does not
    fit. The first byte of a routine is the number of its locals, which stands before their
    defaults; that of a string begins its encoded text. Each node that the pass reaches is reached
    by a settled walk.

    Without the bound this fails: at 2^32 the cursor wraps, and what follows is put over the first
    bytes of the image; in the last unit before it the length wraps, and a story is made whose bases
    the words of the header cannot hold. -/
theorem packed_addresses_lead_back {o : Options} {nodes : List Node} {story : AssembledStory}
    (h : (assemble o nodes).result = .ok story) :
    ∃ p, finalPass? o nodes = some p ∧
      (∀ x ∈ p.visits, ∃ w ∈ p.walks, w.settled = true ∧
        ∃ v ∈ w.visits, v.index = x.index ∧ v.node = x.node) ∧
      (p.Fits → ∀ w ∈ p.walks, w.settled = true → ∀ v ∈ w.visits, v.before.vocabulary = none →
        (∀ name locals, v.node.kind = .directive (.funct name locals) →
          Overflows (assemble o nodes).diagnostics name ∨
            ∃ value addr, p.finish.globals.valueOf name = some value ∧ value ≠ 0 ∧
              Story.unpack p.context.version story.bytes .routine value.toInt = (addr : Nat) ∧
              addr + 1 + (if p.context.version.hasLocalDefaults then 2 * locals.length else 0) =
                v.after.image.cursor ∧
              story.bytes[addr]? = some (UInt8.ofNat locals.length)) ∧
        ∀ name text, v.node.kind = .directive (.gstr name text) →
          Overflows (assemble o nodes).diagnostics name ∨
            ∃ value addr, p.finish.globals.valueOf name = some value ∧ value ≠ 0 ∧
              Story.unpack p.context.version story.bytes .string value.toInt = (addr : Nat) ∧
              addr + (v.before.encoder.encode text).length = v.after.image.cursor ∧
              v.before.encoder.encode text <+: story.bytes.drop addr) := by
  obtain ⟨p, hp, hmakes⟩ := exists_finalPass h
  obtain ⟨t, hcourse⟩ := hmakes.course
  refine ⟨p, hp, hcourse.reaches, fun hfit w hw hset v hvisit hblock => ?_⟩
  have hv : v ∈ p.settledVisits := mem_settledVisits.mpr ⟨w, hw, hset, hvisit⟩
  have hok := settled_ok hmakes hw hset hvisit
  unfold node at hok
  refine ⟨fun name locals hkind => ?_, fun name text hkind => ?_⟩
  · rw [hkind] at hok
    obtain ⟨defaults, hlength, hplaces⟩ := routineHead_ok hmakes.mode hkind hblock hok
      (settled_no_errors hmakes hv)
    refine (settled_place hmakes hv hfit hplaces (by simp [hkind]) (by simp [hkind])
      hblock).imp_right
      fun ⟨value, addr, hvalue, hne, hunpack, hend, hbytes⟩ =>
      ⟨value, addr, hvalue, hne, hunpack, ?_, ?_⟩
    · rw [← hend, List.length_cons, hlength]
      omega
    · have hfirst := List.prefix_iff_getElem?.mp hbytes 0 (Nat.zero_lt_succ _)
      rw [List.getElem?_drop] at hfirst
      exact hfirst
  · rw [hkind] at hok
    exact settled_place hmakes hv hfit (packedString_ok hmakes.mode hok) (by simp [hkind])
      (by simp [hkind]) hblock

/-- A string in a routine. The first walk comes to it at 80 and the settled one at 79, so the base
    of the strings is fixed twice. -/
def shifting : List Node :=
  [⟨.directive (.funct "R" []), {}⟩,
    ⟨.instruction
      { opcode := "ZERO?", operands := [.number 1], branch := some ⟨true, .label "L"⟩ }, {}⟩,
    ⟨.directive (.word [.number 1, .number 2, .number 3]), {}⟩,
    ⟨.directive (.byte [.number 4]), {}⟩,
    ⟨.directive (.gstr "S" "dusk"), {}⟩, ⟨.localLabel "L", {}⟩,
    ⟨.instruction { opcode := "RTRUE" }, {}⟩]

def shiftingOptions : Options := { version := .v7, identity := { serial := "000000" } }

theorem shifting_leads_back :
    ∃ story p, (assemble shiftingOptions shifting).result = .ok story ∧
      finalPass? shiftingOptions shifting = some p ∧ p.Fits ∧
      (∃ v ∈ p.visits, v.node.kind = .directive (.gstr "S" "dusk") ∧
        v.after.packing.bases.string = some 80) ∧
      p.finish.packing.bases.string = some 72 ∧
      ∃ w ∈ p.walks, w.settled = true ∧ ∃ v ∈ w.visits,
        v.node.kind = .directive (.gstr "S" "dusk") ∧ v.before.vocabulary = none ∧
        ∃ value addr, p.finish.globals.valueOf "S" = some value ∧ value ≠ 0 ∧
          Story.unpack p.context.version story.bytes .string value.toInt = (addr : Nat) ∧
          addr + (v.before.encoder.encode "dusk").length = v.after.image.cursor ∧
          v.before.encoder.encode "dusk" <+: story.bytes.drop addr := by
  have hquiet : (assemble shiftingOptions shifting).diagnostics = [] := by decide +kernel
  obtain ⟨story, p, hresult, hp, hrun⟩ := exists_run shiftingOptions shifting
    (fun p => decide p.Fits && p.visits.any (fun v =>
        decide (v.node.kind = .directive (.gstr "S" "dusk") ∧
          v.after.packing.bases.string = some 80)) &&
      decide (p.finish.packing.bases.string = some 72) &&
      p.walks.any fun w => w.settled && w.visits.any fun v =>
        decide (v.node.kind = .directive (.gstr "S" "dusk") ∧ v.before.vocabulary = none))
    (by decide +kernel)
  simp only [Bool.and_eq_true, List.any_eq_true, decide_eq_true_eq] at hrun
  obtain ⟨⟨⟨hfit, hfirst⟩, hbase⟩, w, hw, hset, v, hv, hkind, hblock⟩ := hrun
  obtain ⟨p', hp', -, hlead⟩ := packed_addresses_lead_back hresult
  cases hp.symm.trans hp'
  refine ⟨story, p, hresult, hp, hfit, hfirst, hbase, w, hw, hset, v, hv, hkind, hblock, ?_⟩
  refine ((hlead hfit w hw hset v hv hblock).2 "S" "dusk" hkind).resolve_left ?_
  rintro ⟨d, hd, -⟩
  rw [hquiet] at hd
  cases hd

end Assembly

end ZAssembler
