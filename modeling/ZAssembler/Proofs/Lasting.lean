import Mathlib.Data.List.Infix
import ZAssembler.Proofs.Settled
import ZAssembler.Proofs.Story

/-
  What a settled walk leaves lasts to the end of the pass. A later routine that is walked again goes
  back to where it began and not behind that: an error stays reported, the cursor stays above, and
  the bytes below it stay as they are. `settled_ok` says that in an assembly that succeeds every
  node of a settled walk did its work, and `settled_bytes` that the story holds what it stored
  outside a vocabulary block.
-/

namespace ZAssembler.Assembly

theorem Later.within {s t : State} (h : Later s t) {b : RoutineScope} (hb : t.scope = some b) :
    ∃ a, s.scope = some a ∧ Continues a b := by
  cases ha : s.scope with
  | none =>
    have hn := h.outside ha
    rw [hb] at hn
    cases hn
  | some a =>
    obtain ⟨c, hc, hac⟩ := h.inside a ha
    rw [hb] at hc
    cases hc
    exact ⟨a, rfl, hac⟩

/-! ## Errors -/

/-- An error was reported, and no walk that is under way goes back behind it. -/
structure Marred (s : State) : Prop where
  error : 0 < errorCount s.diagnostics.toList
  mark : ∀ scope, s.scope = some scope →
    0 < errorCount (s.diagnostics.toList.take scope.snapshot.diagnostics)

theorem Later.marred {s t : State} (h : Later s t) (hs : Marred s) : Marred t := by
  refine ⟨Nat.lt_of_lt_of_le hs.error (errorCount_mono h.diagnostics), fun b hb => ?_⟩
  obtain ⟨a, ha, hab⟩ := h.within hb
  rw [hab.snapshot]
  exact Nat.lt_of_lt_of_le (hs.mark a ha) (errorCount_mono (h.diagnostics.take _))

theorem Marred.enter {s : State} (hs : Marred s) (start : Nat) (r : Routine) :
    Marred (s.enter start r) := by
  refine ⟨hs.error, fun scope hscope => ?_⟩
  cases hscope
  have herror := hs.error
  rwa [← List.take_length (l := Array.toList _)] at herror

theorem Marred.walkAgain {s : State} (hs : Marred s) {scope next : RoutineScope}
    (hscope : s.scope = some scope) (hnext : scope.nextWalk? = some next) :
    Marred (s.walkAgain next) := by
  have hmark := hs.mark scope hscope
  rw [← (nextWalk_continues hnext).1] at hmark
  have hcut : (s.walkAgain next).diagnostics.toList =
      s.diagnostics.toList.take next.snapshot.diagnostics := by
    simp [State.walkAgain, State.rewind]
  refine ⟨hcut ▸ hmark, fun scope hscope => ?_⟩
  cases hscope
  rw [hcut, List.take_take, Nat.min_self]
  exact hmark

theorem Marred.left {s t : State} (hs : Marred s) {scope : RoutineScope} (h : Left scope s t) :
    Marred t := by
  refine ⟨h.diagnostics ▸ hs.error, fun scope hscope => ?_⟩
  rw [h.outside] at hscope
  cases hscope

theorem Moves.marred {cx : Context} (hm : cx.mode = .assembling) {s t : State} {l : List Moment}
    (h : Moves cx s l t) (hs : Marred s) : Marred t :=
  h.keeps hm (fun _ hv hs => (visit_later hm hv).marred hs)
    (fun start r _ hs => hs.enter start r) (fun hscope hnext hs => hs.walkAgain hscope hnext)
    (fun _ hleft hs => hs.left hleft) hs

/-! ## Positions -/

/-- The cursor is at `p` or above, within the image, and no walk that is under way goes back behind
    `p`. -/
structure Above (p : Nat) (s : State) : Prop where
  cursor : p ≤ s.image.cursor
  within : s.image.cursor ≤ s.image.size
  mark : ∀ scope, s.scope = some scope →
    p ≤ scope.snapshot.position ∧ scope.snapshot.position ≤ s.image.cursor

theorem Later.above {p : Nat} {s t : State} (h : Later s t) (hfit : t.image.size < 2 ^ 32)
    (hs : Above p s) : Above p t := by
  obtain ⟨hle, hwithin⟩ := h.cursor hfit hs.within
  refine ⟨Nat.le_trans hs.cursor hle, hwithin, fun b hb => ?_⟩
  obtain ⟨a, ha, hab⟩ := h.within hb
  rw [hab.snapshot]
  exact ⟨(hs.mark a ha).1, Nat.le_trans (hs.mark a ha).2 hle⟩

theorem Above.enter {p : Nat} {s : State} (hs : Above p s) (start : Nat) (r : Routine) :
    Above p (s.enter start r) := by
  refine ⟨hs.cursor, hs.within, fun scope hscope => ?_⟩
  cases hscope
  exact ⟨hs.cursor, Nat.le_refl _⟩

theorem size_walkAgain (s : State) (next : RoutineScope) :
    (s.walkAgain next).image.size = min next.snapshot.position s.image.size := by
  show (s.image.bytes.take next.snapshot.position).size = _
  rw [Array.take_eq_extract, Array.size_extract]
  simp [Image.size]

theorem Above.walkAgain {p : Nat} {s : State} (hs : Above p s) {scope next : RoutineScope}
    (hscope : s.scope = some scope) (hnext : scope.nextWalk? = some next) :
    Above p (s.walkAgain next) := by
  have hmark := hs.mark scope hscope
  rw [← (nextWalk_continues hnext).1] at hmark
  have hwithin := hs.within
  refine ⟨hmark.1, ?_, fun scope hscope => ?_⟩
  · rw [size_walkAgain]
    show next.snapshot.position ≤ _
    omega
  · cases hscope
    exact ⟨hmark.1, Nat.le_refl _⟩

theorem Above.left {p : Nat} {s t : State} (hs : Above p s) {scope : RoutineScope}
    (h : Left scope s t) : Above p t := by
  refine ⟨h.image ▸ hs.cursor, h.image ▸ hs.within, fun scope hscope => ?_⟩
  rw [h.outside] at hscope
  cases hscope

theorem Moves.above {cx : Context} (hm : cx.mode = .assembling) {p : Nat} {s t : State}
    {l : List Moment} (h : Moves cx s l t)
    (hfit : ∀ v, .visit v ∈ l → v.after.image.size < 2 ^ 32) (hs : Above p s) : Above p t :=
  h.keeps hm (fun hmem hv hs => (visit_later hm hv).above (hfit _ hmem) hs)
    (fun start r _ hs => hs.enter start r) (fun hscope hnext hs => hs.walkAgain hscope hnext)
    (fun _ hleft hs => hs.left hleft) hs

/-- A reading stays within the bound that its visits keep. -/
theorem Reads.fits {cx : Context} {s t : State} {vs : List Visit} (h : Reads cx s vs t)
    (hs : s.image.size < 2 ^ 32) (hfit : ∀ v ∈ vs, v.after.image.size < 2 ^ 32) :
    t.image.size < 2 ^ 32 := by
  induction h with
  | nil s => exact hs
  | cons index n h _ ih =>
    exact ih (hfit _ List.mem_cons_self) fun v hv => hfit v (List.mem_cons_of_mem _ hv)

/-! ## Fixups -/

/-- In the assembling pass only the values of an open block wait. -/
structure Tidy (s : State) : Prop where
  closed : s.vocabulary = none → s.fixups = #[]
  opened : ∀ v, s.vocabulary = some v → v.fixupStart = 0

theorem tidy_of_eq {s t : State} (hs : Tidy s) (hfixups : t.fixups = s.fixups)
    (hvocabulary : t.vocabulary = s.vocabulary) : Tidy t :=
  ⟨fun h => hfixups.trans (hs.closed (hvocabulary ▸ h)),
    fun v hv => hs.opened v (hvocabulary ▸ hv)⟩

theorem Noted.tidy {name : String} {value : Int32} {s t : State} (h : Noted name value s t)
    (hs : Tidy s) : Tidy t := by
  cases h with
  | same h => exact hs
  | inBlock v old _ _ hv =>
    refine ⟨(fun h => nomatch h), fun v' hv' => ?_⟩
    cases hv'
    unfold OpenVocabulary.defer
    split <;> exact hs.opened v hv
  | inRoutine scope old _ _ _ _ => exact tidy_of_eq hs rfl rfl

theorem Change.tidy {cx : Context} (hm : cx.mode = .assembling) {n : Node} {s t : State}
    (h : Change cx n s t) (hs : Tidy s) : Tidy t := by
  cases h with
  | aside h => exact tidy_of_eq hs h.fixups h.vocabulary
  | report d => exact tidy_of_eq hs rfl rfl
  | store bytes => exact tidy_of_eq hs rfl rfl
  | fixup f width hblock _ =>
    refine ⟨fun h => ?_, hs.opened⟩
    rw [show s.vocabulary = none from h] at hblock
    cases hblock
  | define name kind value hkind _ h =>
    obtain ⟨-, symbol, u, -, hu, rfl⟩ := defineGlobal_ok hm hkind h
    exact tidy_of_eq (hu.tidy hs) rfl rfl
  | label v name _ hv _ =>
    refine ⟨fun h => ?_, fun v' hv' => ?_⟩
    · simp [State.blockLabel, hv] at h
    · simp only [State.blockLabel, hv, Option.map_some, Option.some.injEq] at hv'
      subst hv'
      exact hs.opened v hv
  | openBlock recordSize keySize _ hv =>
    refine ⟨(fun h => nomatch h), fun v' hv' => ?_⟩
    cases hv'
    show s.fixups.size = 0
    rw [hs.closed hv]
    rfl
  | closeBlock _ h =>
    rcases closeBlock_cases hm h with rfl | ⟨v, complete, hv, hc⟩
    · exact hs
    · refine ⟨fun _ => ?_, fun v' hv' => ?_⟩
      · rw [hc.fixups, hs.opened v hv]
        simp
      · rw [hc.vocabulary] at hv'
        cases hv'
  | localLabel name _ h =>
    obtain ⟨scope, symbol, -, -, -, ⟨-, ht⟩ | ⟨ht, -⟩⟩ := localLabel_ok h
    · exact tidy_of_eq hs (by rw [ht]) (by rw [ht])
    · exact tidy_of_eq hs (by rw [ht]) (by rw [ht])
  | locals table name decls _ => exact tidy_of_eq hs rfl rfl

theorem Changes.tidy {cx : Context} (hm : cx.mode = .assembling) {n : Node} {s t : State}
    (h : Changes cx n s t) (hs : Tidy s) : Tidy t := by
  induction h with
  | refl => exact hs
  | tail _ hstep ih => exact hstep.tidy hm ih

theorem Tidy.walkAgain {s : State} (hs : Tidy s) (next : RoutineScope) :
    Tidy (s.walkAgain next) := by
  refine ⟨fun h => ?_, hs.opened⟩
  have hempty : s.fixups = #[] := hs.closed h
  show s.fixups.take next.snapshot.fixups = #[]
  rw [hempty]
  simp

theorem Moves.tidy {cx : Context} (hm : cx.mode = .assembling) {s t : State} {l : List Moment}
    (h : Moves cx s l t) (hs : Tidy s) : Tidy t :=
  h.keeps hm (fun _ hv hs => (visit_changes hm hv).tidy hm ⟨hs.closed, hs.opened⟩)
    (fun _ _ _ hs => ⟨hs.closed, hs.opened⟩) (fun _ _ hs => hs.walkAgain _)
    (fun _ hleft hs => tidy_of_eq hs hleft.fixups hleft.vocabulary) hs

/-! ## Bytes -/

theorem length_blockOrder (s : State) (v : OpenVocabulary) (h : v.recordSize ≠ 0) :
    (s.blockOrder v).length = (s.image.cursor - v.start) / v.recordSize := by
  unfold State.blockOrder Vocabulary.sortOrder
  rw [if_neg h]
  simp [State.blockBytes, Image.read]

/-- A position of a block stays in it. -/
theorem le_place {s : State} {v : OpenVocabulary} (hfit : s.image.cursor < 2 ^ 32) {position : Nat}
    (h : v.start ≤ position) : v.start ≤ v.place (s.blockOrder v) position := by
  unfold OpenVocabulary.place Vocabulary.relocate
  split
  · exact h
  · next hc =>
    have hsize : v.recordSize ≠ 0 := fun h0 => hc (.inl h0)
    split
    · next slot hslot =>
      have hlt : slot < (s.image.cursor - v.start) / v.recordSize := by
        rw [← length_blockOrder s v hsize]
        exact (List.idxOf?_eq_some_iff.mp hslot).1
      have hmod : (position - v.start) % v.recordSize < v.recordSize :=
        Nat.mod_lt _ (Nat.pos_of_ne_zero hsize)
      have hrecords : (slot + 1) * v.recordSize ≤ s.image.cursor - v.start :=
        Nat.le_trans (Nat.mul_le_mul_right _ hlt) (Nat.div_mul_le_self _ _)
      rw [Nat.succ_mul] at hrecords
      rw [wrapAddress_of_lt (by omega)]
      omega
    · exact h

/-- The byte at `a` is `b`, and no open block and no value that waits reaches down to it. -/
structure Holds (a : Nat) (b : UInt8) (s : State) : Prop where
  byte : s.image.readByte a = b
  below : a < s.image.cursor
  block : ∀ v, s.vocabulary = some v → a < v.start
  fixups : ∀ f ∈ s.fixups.toList, ∀ addr width, f.target = .image addr width → a < addr

section Bytes

variable {a : Nat} {b : UInt8}

theorem Rewrites.below {fixups : List Fixup} {im im' : Image} (h : Rewrites fixups im im')
    (hfit : im'.size < 2 ^ 32)
    (hf : ∀ f ∈ fixups, ∀ addr width, f.target = .image addr width → a < addr) :
    im'.readByte a = im.readByte a := by
  induction h with
  | refl => rfl
  | tail _ hstep ih =>
    obtain ⟨f, hmem, addr, width, value, htarget, rfl⟩ := hstep
    rw [Image.readByte_patch_below _ _ _ hfit (hf f hmem addr width htarget)]
    exact ih (Nat.lt_of_le_of_lt (Image.size_le_patch _ _ _) hfit)

/-- Values that move with their records stay above what is below the block. -/
theorem pending_above {s : State} {v : OpenVocabulary} (hfit : s.image.cursor < 2 ^ 32)
    (hv : a < v.start)
    (hf : ∀ f ∈ s.fixups.toList, ∀ addr width, f.target = .image addr width → a < addr) :
    ∀ f ∈ v.pending s, ∀ addr width, f.target = .image addr width → a < addr := by
  intro f hmem addr width htarget
  obtain ⟨g, hg, rfl⟩ := List.mem_map.mp hmem
  have hg' := hf g (List.mem_of_mem_drop hg)
  unfold Fixup.relocate at htarget
  split at htarget
  · next addr' width' htarget' =>
    split at htarget
    · next hinside =>
      simp only [FixupTarget.image.injEq] at htarget
      rw [← htarget.1]
      exact Nat.lt_of_lt_of_le hv (le_place hfit hinside.1)
    · exact hg' addr width htarget
  · exact hg' addr width htarget

theorem mem_of_mem_take {fixups : Array Fixup} {count : Nat} {f : Fixup}
    (h : f ∈ (fixups.take count).toList) : f ∈ fixups.toList := by
  rw [Array.take_eq_extract, Array.toList_extract] at h
  exact List.mem_of_mem_take h

theorem holds_of_eq {s t : State} (hs : Holds a b s) (himage : t.image = s.image)
    (hfixups : t.fixups = s.fixups) (hvocabulary : t.vocabulary = s.vocabulary) : Holds a b t :=
  ⟨himage ▸ hs.byte, himage ▸ hs.below, fun v hv => hs.block v (hvocabulary ▸ hv),
    fun f hf => hs.fixups f (hfixups ▸ hf)⟩

/-- Outside a block the bytes that were stored are held. -/
theorem holds_stored {im : Image} {bytes : List UInt8} {s : State} (hs : Tidy s)
    (hblock : s.vocabulary = none) (himage : s.image = im.store bytes)
    (hfit : s.image.size < 2 ^ 32) (hwithin : im.cursor ≤ im.size) {i : Nat}
    (hi : i < bytes.length) : Holds (im.cursor + i) bytes[i] s := by
  rw [himage] at hfit
  obtain ⟨hcursor, -⟩ := Image.cursor_store_le im bytes hfit hwithin
  refine ⟨?_, ?_, fun v hv => ?_, fun f hf => ?_⟩
  · rw [himage, Image.readByte_store_at im bytes hfit i hi]
  · rw [himage, hcursor]
    omega
  · rw [hblock] at hv
    cases hv
  · rw [hs.closed hblock] at hf
    cases hf

theorem Noted.holds {name : String} {value : Int32} {s t : State} (h : Noted name value s t)
    (hs : Holds a b s) : Holds a b t := by
  cases h with
  | same h => exact hs
  | inBlock v old _ _ hv =>
    refine ⟨hs.byte, hs.below, fun v' hv' => ?_, hs.fixups⟩
    cases hv'
    unfold OpenVocabulary.defer
    split <;> exact hs.block v hv
  | inRoutine scope old _ _ _ _ => exact holds_of_eq hs rfl rfl rfl

theorem Holds.walkAgain {s : State} (hs : Holds a b s) (habove : Above (a + 1) s)
    {scope next : RoutineScope} (hscope : s.scope = some scope)
    (hnext : scope.nextWalk? = some next) : Holds a b (s.walkAgain next) := by
  have hmark := (habove.mark scope hscope).1
  rw [← (nextWalk_continues hnext).1] at hmark
  refine ⟨?_, hmark, hs.block, fun f hf => hs.fixups f ?_⟩
  · exact (Image.readByte_truncate s.image hmark).trans hs.byte
  · exact mem_of_mem_take hf

theorem Closed.holds {v : OpenVocabulary} {complete : Bool} {s t : State}
    (h : Closed v complete s t) (hv : s.vocabulary = some v)
    (hwithin : s.image.cursor ≤ s.image.size) (hfit : t.image.size < 2 ^ 32) (hs : Holds a b s) :
    Holds a b t := by
  obtain ⟨hcursor, hsize⟩ := h.image.keeps
  rw [Image.cursor_patch] at hcursor
  have hpatch := Image.size_le_patch s.image v.start (s.arrangedBytes v)
  have hstart := hs.block v hv
  have hpending := pending_above (by omega) hstart hs.fixups
  refine ⟨?_, hcursor ▸ hs.below, fun v' hv' => ?_, fun f hf => ?_⟩
  · rw [h.image.below hfit hpending, Image.readByte_patch_below _ _ _ (by omega) hstart]
    exact hs.byte
  · rw [h.vocabulary] at hv'
    cases hv'
  · rw [h.fixups] at hf
    exact hs.fixups f (mem_of_mem_take hf)

variable {cx : Context} (hm : cx.mode = .assembling) {n : Node}

include hm

theorem Change.holds {s t : State} (h : Change cx n s t) (hwithin : s.image.cursor ≤ s.image.size)
    (hfit : t.image.size < 2 ^ 32) (hs : Holds a b s) : Holds a b t := by
  cases h with
  | aside h => exact holds_of_eq hs h.image h.fixups h.vocabulary
  | report d => exact holds_of_eq hs rfl rfl rfl
  | store bytes =>
    have hcursor := (Image.cursor_store_le s.image bytes hfit hwithin).1
    refine ⟨?_, ?_, hs.block, hs.fixups⟩
    · exact (Image.readByte_store_below s.image bytes hfit hs.below).trans hs.byte
    · exact Nat.lt_of_lt_of_le hs.below (hcursor ▸ Nat.le_add_right _ _)
  | fixup f width _ htarget =>
    refine ⟨hs.byte, hs.below, hs.block, fun g hg addr width' hg' => ?_⟩
    rw [Array.toList_push, List.mem_append, List.mem_singleton] at hg
    rcases hg with hg | rfl
    · exact hs.fixups g hg addr width' hg'
    · rw [htarget] at hg'
      cases hg'
      exact hs.below
  | define name kind value hkind _ h =>
    obtain ⟨-, symbol, u, -, hu, rfl⟩ := defineGlobal_ok hm hkind h
    exact holds_of_eq (hu.holds hs) rfl rfl rfl
  | label v name _ hv _ =>
    refine ⟨hs.byte, hs.below, fun v' hv' => ?_, hs.fixups⟩
    simp only [State.blockLabel, hv, Option.map_some, Option.some.injEq] at hv'
    subst hv'
    exact hs.block v hv
  | openBlock recordSize keySize _ _ =>
    refine ⟨hs.byte, hs.below, fun v' hv' => ?_, hs.fixups⟩
    cases hv'
    exact hs.below
  | closeBlock _ h =>
    rcases closeBlock_cases hm h with rfl | ⟨v, complete, hv, hc⟩
    · exact hs
    · exact hc.holds hv hwithin hfit hs
  | localLabel name _ h =>
    obtain ⟨scope, symbol, -, -, -, ⟨-, ht⟩ | ⟨ht, -⟩⟩ := localLabel_ok h
    · exact holds_of_eq hs (by rw [ht]) (by rw [ht]) (by rw [ht])
    · exact holds_of_eq hs (by rw [ht]) (by rw [ht]) (by rw [ht])
  | locals table name decls _ => exact holds_of_eq hs rfl rfl rfl

theorem Changes.holds {s t : State} (h : Changes cx n s t)
    (hwithin : s.image.cursor ≤ s.image.size) (hfit : t.image.size < 2 ^ 32) (hs : Holds a b s) :
    Holds a b t := by
  induction h with
  | refl => exact hs
  | tail hchain hstep ih =>
    have hlater := Changes.later hm hchain
    have hfit' := Nat.lt_of_le_of_lt (hstep.later hm).size hfit
    exact hstep.holds hm (hlater.cursor hfit' hwithin).2 hfit (ih hfit')

/-- A byte below a position that no walk goes back behind stays. -/
theorem Moves.holds {s t : State} {l : List Moment} (h : Moves cx s l t)
    (hfit : ∀ v, .visit v ∈ l → v.after.image.size < 2 ^ 32) (habove : Above (a + 1) s)
    (hs : Holds a b s) : Holds a b t := by
  have hboth : Above (a + 1) t ∧ Holds a b t := by
    refine h.keeps (P := fun s => Above (a + 1) s ∧ Holds a b s) hm (fun hmem hv hs => ?_)
      (fun start r _ hs => ?_) (fun hscope hnext hs => ?_) (fun _ hleft hs => ?_) ⟨habove, hs⟩
    · refine ⟨(visit_later hm hv).above (hfit _ hmem) hs.1, ?_⟩
      exact (visit_changes hm hv).holds hm hs.1.within (hfit _ hmem) (holds_of_eq hs.2 rfl rfl rfl)
    · exact ⟨hs.1.enter start r, holds_of_eq hs.2 rfl rfl rfl⟩
    · exact ⟨hs.1.walkAgain hscope hnext, hs.2.walkAgain hs.1 hscope hnext⟩
    · exact ⟨hs.1.left hleft, holds_of_eq hs.2 hleft.image hleft.fixups hleft.vocabulary⟩
  exact hboth.2

theorem Reads.holds {s t : State} {vs : List Visit} (h : Reads cx s vs t)
    (hfit : ∀ v ∈ vs, v.after.image.size < 2 ^ 32) (hwithin : s.image.cursor ≤ s.image.size)
    (hs : Holds a b s) : Holds a b t := by
  induction h with
  | nil s => exact hs
  | cons index n h _ ih =>
    have hfit' := hfit _ List.mem_cons_self
    refine ih (fun v hv => hfit v (List.mem_cons_of_mem _ hv))
      ((visit_later hm h).cursor hfit' hwithin).2 ?_
    exact (visit_changes hm h).holds hm hwithin hfit' (holds_of_eq hs rfl rfl rfl)

end Bytes

/-! ## In the story -/

section Story

variable {p : FinalPass} {o : Options} {nodes : List Node} {story : AssembledStory}
  (h : p.Makes o nodes story) {w : Walk} (hw : w ∈ p.walks) (hset : w.settled = true) {v : Visit}
  (hv : v ∈ w.visits)

include h

theorem no_errors : errorCount p.finish.diagnostics.toList = 0 := by
  obtain ⟨s, hs⟩ := h.finishes
  exact (finishStory_ok hs).1

theorem goesOn_marred {finish exit : State} (hgoes : GoesOn p.context finish exit)
    (hf : 0 < errorCount finish.diagnostics.toList) : Marred exit := by
  rcases hgoes with ⟨hs, rfl⟩ | ⟨scope, hs, hmoved, hclose⟩
  · exact ⟨hf, fun scope hscope => nomatch hs.symm.trans hscope⟩
  · have hleft := closeRoutine_ok h.mode hclose
    exact ⟨hleft.diagnostics ▸ hf, fun scope hscope => nomatch hleft.outside.symm.trans hscope⟩

include hw hset hv

/-- In an assembly that succeeds every node of a settled walk did its work. -/
theorem settled_ok : node p.context v.node v.before = .ok () v.after := by
  obtain ⟨t, hcourse⟩ := h.course
  obtain ⟨place, earlier, later, u, hcut⟩ := hcourse.cut hw hset hv
  rw [hcut.before]
  rcases visit_cases hcut.visit with hok | ⟨problem, u', -, hreport⟩
  · exact hok
  · -- an error would have lasted to the end
    have hv : 0 < errorCount v.after.diagnostics.toList := by
      rw [hreport]
      exact errorCount_report_pos _ _
    have hfinish := Nat.lt_of_lt_of_le hv (errorCount_mono (hcut.rest.later h.mode).diagnostics)
    have hexit := goesOn_marred h hcut.settled.goesOn hfinish
    have ht := (hcut.settled.after.marred h.mode hexit).error
    have hend := Nat.lt_of_lt_of_le ht (errorCount_mono hcourse.ended.diagnostics)
    rw [no_errors h] at hend
    cases hend

end Story

section Positions

variable {p : FinalPass} {o : Options} {nodes : List Node} {story : AssembledStory}
  (h : p.Makes o nodes story) (hfit : p.Fits)

include h

theorem start_above : Above Story.headerSize p.start := by
  obtain ⟨s, hs⟩ := h.begins
  have hcursor : (Image.fill {} Story.headerSize 0).cursor = Story.headerSize := by decide +kernel
  have hsize : (Image.fill {} Story.headerSize 0).size = Story.headerSize := by decide +kernel
  have himage : p.start.image = Image.fill {} Story.headerSize 0 := by rw [hs]; rfl
  refine ⟨?_, ?_, fun scope hscope => ?_⟩
  · rw [himage, hcursor]
  · rw [himage, hcursor, hsize]
  · rw [hs] at hscope
    cases hscope

include hfit in
/-- The length of the story does not wrap. -/
theorem finish_fits : p.finish.image.size + p.context.version.lengthUnit ≤ 2 ^ 32 := by
  obtain ⟨t, hcourse⟩ := h.course
  obtain ⟨s, hs⟩ := h.begins
  have hstart : p.start.image.size = Story.headerSize := by
    rw [hs]
    exact size_fill
  have hunit := Story.lengthUnit_le p.context.version
  have hheader : Story.headerSize = 64 := rfl
  rw [hcourse.ended.image]
  refine hcourse.moves.keeps (P := fun s => s.image.size + p.context.version.lengthUnit ≤ 2 ^ 32)
    h.mode (fun hv _ _ => hfit _ (FinalPass.mem_visits hv)) (fun _ _ _ hs => hs)
    (fun {s _ next} _ _ hs => ?_) (fun _ hleft hs => hleft.image ▸ hs) (by omega)
  have hsize := size_walkAgain s next
  omega

theorem start_tidy : Tidy p.start := by
  obtain ⟨s, hs⟩ := h.begins
  rw [hs]
  exact ⟨fun _ => rfl, fun v hv => nomatch hv⟩

theorem goesOn_above {q : Nat} {finish exit : State} (hgoes : GoesOn p.context finish exit)
    (hq : q ≤ finish.image.cursor) (hwithin : finish.image.cursor ≤ finish.image.size) :
    Above q exit := by
  rcases hgoes with ⟨hs, rfl⟩ | ⟨scope, hs, hmoved, hclose⟩
  · exact ⟨hq, hwithin, fun scope hscope => nomatch hs.symm.trans hscope⟩
  · have hleft := closeRoutine_ok h.mode hclose
    rw [← hleft.image] at hq hwithin
    exact ⟨hq, hwithin, fun scope hscope => nomatch hleft.outside.symm.trans hscope⟩

variable {t u : State} {w : Walk} {v : Visit} {place : Place} {earlier later : List Visit}
  (hcut : Cut p t w v place earlier later u)

include hfit hcut

theorem Cut.above_before : Above Story.headerSize v.before := by
  have hu := hcut.moves.above h.mode (fun x hx => hfit.size_lt (hcut.moments (.inl hx)))
    (start_above h)
  rw [hcut.before]
  exact ⟨hu.cursor, hu.within, hu.mark⟩

omit hfit in
theorem Cut.tidy_before : Tidy v.before := by
  rw [hcut.before]
  exact tidy_of_eq (hcut.moves.tidy h.mode (start_tidy h)) rfl rfl

omit hfit in
theorem Cut.tidy_after : Tidy v.after :=
  (visit_changes h.mode hcut.visit).tidy h.mode (hcut.before ▸ hcut.tidy_before h)

theorem Cut.later_after : Later v.before v.after ∧ v.after.image.size < 2 ^ 32 := by
  refine ⟨?_, hfit.size_lt (hcut.moments (.inr (.inl rfl)))⟩
  rw [hcut.before]
  exact (visit_changes h.mode hcut.visit).later h.mode

theorem Cut.within_after : v.after.image.cursor ≤ v.after.image.size := by
  obtain ⟨hlater, hafter⟩ := hcut.later_after h hfit
  exact (hlater.cursor hafter (hcut.above_before h hfit).within).2

theorem Cut.finish_cursor :
    v.after.image.cursor ≤ w.finish.image.cursor ∧ w.finish.image.cursor ≤ w.finish.image.size := by
  have hfinish := hcut.rest.fits (hcut.later_after h hfit).2
    (fun x hx => hfit.size_lt (hcut.moments (.inr (.inr (.inl hx)))))
  exact (hcut.rest.later h.mode).cursor hfinish (hcut.within_after h hfit)

/-- Where a settled visit has come to, the pass does not go back. -/
theorem Cut.above_end {q : Nat} (hq : q ≤ v.after.image.cursor) : Above q t := by
  obtain ⟨hcursor, hwithin⟩ := hcut.finish_cursor h hfit
  have hexit := goesOn_above h hcut.settled.goesOn (Nat.le_trans hq hcursor) hwithin
  exact hcut.settled.after.above h.mode
    (fun x hx => hfit.size_lt (hcut.moments (.inr (.inr (.inr hx))))) hexit

/-- A byte that a settled visit leaves below everything that is open lasts. -/
theorem Cut.holds_end {a : Nat} {b : UInt8} (hs : Holds a b v.after) : Holds a b t := by
  obtain ⟨hcursor, hwithin⟩ := hcut.finish_cursor h hfit
  have hfinish : Holds a b w.finish := hcut.rest.holds h.mode
    (fun x hx => hfit.size_lt (hcut.moments (.inr (.inr (.inl hx))))) (hcut.within_after h hfit) hs
  have hexit : Holds a b place.exit := by
    rcases hcut.settled.goesOn with ⟨-, heq⟩ | ⟨scope, -, -, hclose⟩
    · rw [heq]
      exact hfinish
    · have hleft := closeRoutine_ok h.mode hclose
      exact holds_of_eq hfinish hleft.image hleft.fixups hleft.vocabulary
  exact hcut.settled.after.holds h.mode
    (fun x hx => hfit.size_lt (hcut.moments (.inr (.inr (.inr hx)))))
    (goesOn_above h hcut.settled.goesOn hfinish.below hwithin) hexit

omit hcut

variable (hw : w ∈ p.walks) (hset : w.settled = true) (hv : v ∈ w.visits)

include hw hset hv

/-- A settled visit ends within the story. -/
theorem settled_end_le : v.after.image.cursor ≤ p.context.version.maxStorySize := by
  obtain ⟨t, hcourse⟩ := h.course
  obtain ⟨place, earlier, later, u, hcut⟩ := hcourse.cut hw hset hv
  obtain ⟨hcursor, hwithin, -⟩ := hcut.above_end h hfit (Nat.le_refl _)
  rw [← hcourse.ended.image] at hcursor hwithin
  obtain ⟨s, hs⟩ := h.finishes
  obtain ⟨-, hlength, -⟩ := finishStory_ok hs
  have hroom := finish_fits h hfit
  have hpos := Story.lengthUnit_pos p.context.version
  rw [Image.length_of_lt (by omega)] at hlength
  have hle := (Story.lengthFor_ge p.context.version hroom).1
  omega

theorem settled_cursor_lt : v.before.image.cursor < 2 ^ 20 := by
  obtain ⟨t, hcourse⟩ := h.course
  obtain ⟨place, earlier, later, u, hcut⟩ := hcourse.cut hw hset hv
  obtain ⟨hlater, hafter⟩ := hcut.later_after h hfit
  have hstep := (hlater.cursor hafter (hcut.above_before h hfit).within).1
  have hend := settled_end_le h hfit hw hset hv
  have hmax := maxStorySize_le p.context.version
  omega

/-- A byte that a settled visit leaves below everything that is open is in the story. -/
theorem settled_byte {a : Nat} {b : UInt8} (hlow : Story.headerSize ≤ a) (hs : Holds a b v.after) :
    story.bytes[a]? = some b := by
  obtain ⟨t, hcourse⟩ := h.course
  obtain ⟨place, earlier, later, u, hcut⟩ := hcourse.cut hw hset hv
  have hend := hcut.holds_end h hfit hs
  have hwithin := (hcut.above_end h hfit (Nat.zero_le _)).within
  obtain ⟨s, hfinish⟩ := h.finishes
  have hinside : a < p.finish.image.size := by
    rw [hcourse.ended.image]
    exact Nat.lt_of_lt_of_le hend.below hwithin
  have hroom := finish_fits h hfit
  have hpos := Story.lengthUnit_pos p.context.version
  rw [story_byte hfinish (by omega) hlow hinside, hcourse.ended.image, hend.byte]

/-- The story holds what a settled visit stored outside a vocabulary block. -/
theorem settled_bytes {s : State} {bytes : List UInt8} (hs : Changes p.context v.node v.before s)
    (hblock : s.vocabulary = none)
    (hrest : Changes p.context v.node { s with image := s.image.store bytes } v.after) :
    bytes <+: story.bytes.drop s.image.cursor := by
  obtain ⟨t, hcourse⟩ := h.course
  obtain ⟨place, earlier, later, u, hcut⟩ := hcourse.cut hw hset hv
  have hafter := (hcut.later_after h hfit).2
  have hstored : (s.image.store bytes).size < 2 ^ 32 :=
    Nat.lt_of_le_of_lt (hrest.later h.mode).size hafter
  have habove : Above Story.headerSize s := (hs.later h.mode).above
    (Nat.lt_of_le_of_lt (Image.size_le_store _ bytes) hstored) (hcut.above_before h hfit)
  have htidy : Tidy { s with image := s.image.store bytes } :=
    tidy_of_eq (hs.tidy h.mode (hcut.tidy_before h)) rfl rfl
  obtain ⟨hcursor, hwithin⟩ := Image.cursor_store_le s.image bytes hstored habove.within
  rw [List.prefix_iff_getElem?]
  intro i hi
  rw [List.getElem?_drop]
  have hholds : Holds (s.image.cursor + i) bytes[i] { s with image := s.image.store bytes } :=
    holds_stored htidy hblock rfl hstored habove.within hi
  exact settled_byte h hfit hw hset hv (Nat.le_trans habove.cursor (Nat.le_add_right _ _))
    (hrest.holds h.mode hwithin hafter hholds)

/-- The story holds what was stored up to the end of a settled visit. -/
theorem settled_image {im : Image} {bytes : List UInt8} (hlow : Story.headerSize ≤ im.cursor)
    (hwithin : im.cursor ≤ im.size) (hblock : v.after.vocabulary = none)
    (himage : v.after.image = im.store bytes) : bytes <+: story.bytes.drop im.cursor := by
  obtain ⟨t, hcourse⟩ := h.course
  obtain ⟨place, earlier, later, u, hcut⟩ := hcourse.cut hw hset hv
  have htidy : Tidy v.after := hcut.tidy_after h
  rw [List.prefix_iff_getElem?]
  intro i hi
  rw [List.getElem?_drop]
  exact settled_byte h hfit hw hset hv (Nat.le_trans hlow (Nat.le_add_right _ _))
    (holds_stored htidy hblock himage (hcut.later_after h hfit).2 hwithin hi)

end Positions

end ZAssembler.Assembly
