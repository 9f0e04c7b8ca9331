import ZAssembler.Proofs.Evaluating
import ZAssembler.Proofs.Header
import ZAssembler.Proofs.Records
import ZAssembler.Proofs.Settling

/-
  The end of a vocabulary block and the image around it. In any pass the end of a block arranges its
  records, moves its labels and writes the values that waited in it once more, each where its first
  byte has gone to; the image that results is known to the byte (`closeVocabulary_image`). A value
  that stands in one record, or behind the whole ones, moves as one run of bytes and stays in the
  block (`place_run`). If all the values do, nothing outside the block changes. One that lies across
  two records is written past the end of the record that its first byte goes with.
-/

namespace ZAssembler

/-! ## Runs of bytes in a block -/

namespace Vocabulary

variable (bytes : List UInt8) {recordSize : Nat} (keySize : Nat) (hsize : 0 < recordSize)
    {start : Nat}

include hsize

/-- A run of bytes that stays in one record moves as one, and so does one behind the whole
    records. -/
theorem relocate_run (hfits : start + bytes.length < 2 ^ 32) {position count i : Nat}
    (hstart : start ≤ position)
    (hrun : (position - start) % recordSize + count ≤ recordSize ∨
      start + bytes.length / recordSize * recordSize ≤ position) (hi : i < count) :
    relocate start recordSize (sortOrder bytes recordSize keySize) (position + i) =
      relocate start recordSize (sortOrder bytes recordSize keySize) position + i := by
  by_cases htail : start + bytes.length / recordSize * recordSize ≤ position
  · rw [relocate_outside bytes keySize hsize (.inr htail),
      relocate_outside bytes keySize hsize (.inr (Nat.le_add_right_of_le htail))]
  · have hend := Nat.not_le.mp htail
    have hwithin : (position - start) % recordSize + i < recordSize := by
      have := hrun.resolve_right htail
      omega
    have hrecord : (position - start) / recordSize < bytes.length / recordSize := by
      rw [Nat.div_lt_iff_lt_mul hsize]
      omega
    -- the position and the one that is `i` bytes on lie in one record
    have hshift : position + i - start =
        (position - start) / recordSize * recordSize + ((position - start) % recordSize + i) := by
      rw [← Nat.add_assoc, Nat.div_add_mod']
      omega
    obtain ⟨hdiv, hmod⟩ :=
      slot_place_inj (Nat.mod_lt _ hsize) hwithin ((Nat.div_add_mod' _ recordSize).trans hshift)
    have hplace := slot_place_lt hrecord hwithin
    obtain ⟨slot, hat, -, hto⟩ := relocate_record bytes keySize hsize hfits hstart hend
    obtain ⟨slot', hat', -, hto'⟩ :=
      relocate_record bytes keySize hsize hfits (Nat.le_add_right_of_le hstart)
        (show position + i < start + bytes.length / recordSize * recordSize by omega)
    have hnodup := (perm_sortOrder bytes keySize hsize).nodup_iff.mpr List.nodup_range
    have hslot : slot = slot' := by
      rw [← List.getElem?_inj (List.getElem?_eq_some_iff.mp hat).1 hnodup, hat, hat', hdiv]
    rw [hto, hto', hmod, hslot]
    omega

/-- Two records change places if the key of the first is the greater one. -/
theorem sortOrder_two {bytes : List UInt8} {keySize : Nat} (htwo : bytes.length / recordSize = 2)
    (hgreater :
      keyLE (keyAt bytes recordSize keySize 0) (keyAt bytes recordSize keySize 1) = false) :
    sortOrder bytes recordSize keySize = [1, 0] := by
  rw [sortOrder_eq bytes keySize hsize, htwo]
  simp [List.range_succ, List.mergeSort, List.MergeSort.Internal.splitInTwo, hgreater]

end Vocabulary

/-! ## Patches in turn -/

namespace Image

/-- The image after patches, one after the other. -/
def patches (im : Image) (ps : List (Nat × List UInt8)) : Image :=
  ps.foldl (fun im (addr, bytes) => im.patch addr bytes) im

@[simp] theorem cursor_patches (im : Image) (ps : List (Nat × List UInt8)) :
    (im.patches ps).cursor = im.cursor := by
  induction ps generalizing im with
  | nil => rfl
  | cons p rest ih => exact (ih _).trans (cursor_patch im p.1 p.2)

theorem size_patches (im : Image) {ps : List (Nat × List UInt8)} {length : Nat}
    (h : ∀ p ∈ ps, p.1 + p.2.length ≤ length) (hlength : length < 4294967296)
    (hsize : length ≤ im.size) :
    (im.patches ps).size = im.size := by
  induction ps generalizing im with
  | nil => rfl
  | cons p rest ih =>
    have hfirst := (patch_within im p.1 p.2 (h p List.mem_cons_self) hlength).1 hsize
    exact (ih (im.patch p.1 p.2) (fun q hq => h q (List.mem_cons_of_mem _ hq)) (by omega)).trans
      hfirst

/-- The cursor is in the image or at its end, and it can be addressed. -/
structure Placed (im : Image) : Prop where
  within : im.cursor ≤ im.size
  addressed : im.cursor < 4294967296

theorem Placed.store {im : Image} (h : im.Placed) (bytes : List UInt8) :
    (im.store bytes).Placed := by
  induction bytes generalizing im with
  | nil => exact h
  | cons b rest ih =>
    refine ih ⟨?_, Nat.mod_lt _ (by decide)⟩
    have hsize : im.cursor < (im.storeByte b).size := (size_le_patchByte im im.cursor b).2
    have hcursor : (im.storeByte b).cursor ≤ im.cursor + 1 := Nat.mod_le _ _
    omega

end Image

/-- The number of bytes that a value takes. -/
def Width.size : Width → Nat
  | .byte => 1
  | .word => 2

theorem Width.length_bytes (width : Width) (value : Int32) :
    (width.bytes value).length = width.size := by
  cases width <;> rfl

namespace Assembly

/-! ## The cursor of a pass -/

section Placed

variable {n : Node} {here : Nat} {s t : State}

theorem Act.placed (h : Act n here s t) (hs : s.image.Placed) : t.image.Placed := by
  cases h with
  | effect h =>
    cases h with
    | quiet h => rwa [h.image]
    | store bytes => exact hs.store bytes
    | _ => exact hs
  | close _ h =>
    have hposition : t.image.cursor = s.image.cursor := congrArg Mark.position h.mark
    exact ⟨hposition ▸ Nat.le_trans hs.within h.size, hposition ▸ hs.addressed⟩
  | _ => exact hs

theorem Acts.placed (h : Acts n here s t) (hs : s.image.Placed) : t.image.Placed := by
  induction h with
  | refl => exact hs
  | tail _ hact ih => exact hact.placed ih

theorem upheld_placed : Upheld (fun _ => True) fun s => s.image.Placed where
  within hs := hs.within
  arrival {x} _ hs := (visit_acts x.context x.index x.node x.before).placed hs
  resting h hs := by rwa [h.image]
  walkAgain {opened s next} hopened _ hposition hreach := by
    have hcursor : (s.walkAgain next).image.cursor = opened.image.cursor := hposition
    refine ⟨?_, hcursor ▸ hopened.addressed⟩
    rw [hcursor, size_walkAgain, hposition]
    exact Nat.le_min.mpr ⟨Nat.le_refl _, hreach⟩

/-- In every pass the cursor is in the image, or at its end, before each node. -/
theorem placed_before {o : Options} {nodes : List Node} {p : BegunPass}
    (hp : p ∈ begunPasses o nodes) {x : Arrival}
    (hx : x ∈ passArrivals p.context p.program p.start) : x.before.image.Placed := by
  obtain ⟨s, v, mode, rfl⟩ := exists_nextPass hp
  refine upheld_placed.passArrivals _ _ ?_ (fun _ _ => trivial) x hx
  have himage : (s.beginPass o v mode).image = Image.fill {} Story.headerSize 0 := by
    simp only [State.beginPass]
  have hempty : ({} : Image).Placed := ⟨Nat.le_refl _, by decide⟩
  show (s.beginPass o v mode).image.Placed
  rw [himage]
  exact hempty.store _

end Placed

/-! ## Values that are written again -/

/-- What a fixup writes for a value. -/
def Fixup.stored (f : Fixup) (value : Int32) : Int32 :=
  match f.relativeTo with
  | some origin => value - Int32.ofNat origin
  | none => value

/-- Where a fixup writes, and the bytes, if there is a value for it. -/
def Fixup.patch? (f : Fixup) (sc : Scoping) : Option (Nat × List UInt8) :=
  match f.target, f.expr.eval sc with
  | .image addr width, .ok (.known _ value) => some (addr, width.bytes (f.stored value))
  | _, _ => none

/-- The expression of a fixup has a value, or it waits for one. -/
def Fixup.makesSense (f : Fixup) (sc : Scoping) : Bool := (f.expr.eval sc).isOk

section Settling

variable (cx : Context)

/-- A name that is only mentioned means nothing yet. -/
theorem eval_mention (s : State) (name : String) (e : Expr) :
    e.eval ({ s with globals := s.globals.mention name }.scoping cx) = e.eval (s.scoping cx) := by
  refine Expr.eval_of_meaning ?_ e fun other _ => ?_
  · rfl
  · unfold Scoping.meaning State.scoping
    dsimp only
    cases s.locals.lookup other with
    | some x => rfl
    | none =>
      rw [Option.none_or, Option.none_or]
      exact congrArg (Option.map _) (defined_mention s.globals name other)

/-- A fixup whose expression makes sense is applied, or it is kept for later. -/
theorem settleFixup_ok {f : Fixup} {s : State} (h : f.makesSense (s.scoping cx) = true) :
    ∃ t, settleFixup cx f s = .ok () t ∧
    t.image = s.image.patches (f.patch? (s.scoping cx)).toList ∧
      ∀ e : Expr, e.eval (t.scoping cx) = e.eval (s.scoping cx) := by
  have heval := evaluate_get cx f.expr s
  unfold Fixup.makesSense at h
  unfold Fixup.patch? settleFixup
  cases hr : f.expr.eval (s.scoping cx) with
  | error error =>
    rw [hr] at h
    cases h
  | ok r =>
    rw [hr] at heval
    cases r with
    | unknown name =>
      have happly : applyFixup cx f s = .ok false { s with globals := s.globals.mention name } :=
        bind_of_ok heval
      refine ⟨_, bind_of_ok happly, ?_, fun e => eval_mention cx s name e⟩
      cases f.target <;> rfl
    | known kind value =>
      have happly : applyFixup cx f s = _ := bind_of_ok heval
      dsimp only at happly
      cases ht : f.target with
      | dependency =>
        rw [ht] at happly
        exact ⟨s, bind_of_ok happly, rfl, fun _ => rfl⟩
      | image addr width =>
        rw [ht] at happly
        exact ⟨_, bind_of_ok happly, rfl, fun _ => rfl⟩

theorem settleFixup_error {f : Fixup} {s : State} (h : f.makesSense (s.scoping cx) = false) :
    ∃ i, settleFixup cx f s = .error i s := by
  have heval := evaluate_get cx f.expr s
  unfold Fixup.makesSense at h
  cases hr : f.expr.eval (s.scoping cx) with
  | ok r =>
    rw [hr] at h
    cases h
  | error error =>
    rw [hr] at heval
    cases error <;> exact ⟨_, bind_of_error (bind_of_error heval)⟩

/-- Fixups are settled in turn, up to one whose expression makes no sense. -/
theorem settleFixups_image (fixups : List Fixup) (s : State) :
    (final (fixups.forM (settleFixup cx)) s).image =
      s.image.patches ((fixups.takeWhile (·.makesSense (s.scoping cx))).filterMap
        (·.patch? (s.scoping cx))) := by
  induction fixups generalizing s with
  | nil => rfl
  | cons f rest ih =>
    cases h : f.makesSense (s.scoping cx) with
    | false =>
      obtain ⟨i, hi⟩ := settleFixup_error cx h
      have hstop : (f :: rest).forM (settleFixup cx) s = .error i s := bind_of_error hi
      rw [final_of_error hstop, List.takeWhile_cons, h]
      rfl
    | true =>
      obtain ⟨t, ht, himage, heval⟩ := settleFixup_ok cx h
      -- what is written for one fixup does not change the values of the next ones
      have hsense : ∀ g : Fixup, g.makesSense (t.scoping cx) = g.makesSense (s.scoping cx) := by
        intro g
        unfold Fixup.makesSense
        rw [heval]
      have hpatch : ∀ g : Fixup, g.patch? (t.scoping cx) = g.patch? (s.scoping cx) := by
        intro g
        unfold Fixup.patch?
        rw [heval]
      have hrest := ih t
      simp only [hsense, hpatch, himage] at hrest
      have hgoes :
          final ((f :: rest).forM (settleFixup cx)) s = final (rest.forM (settleFixup cx)) t :=
        final_bind ht
      rw [hgoes, hrest, List.takeWhile_cons, h, if_pos rfl, List.filterMap_cons]
      cases f.patch? (s.scoping cx) <;> rfl

end Settling

/-! ## The end of a block -/

/-- The labels are moved, and nothing else is. -/
structure Relabelled (place : Nat → Nat) (labels : List VocabularyLabel) (s t : State) : Prop where
  image : t.image = s.image
  fixups : t.fixups = s.fixups
  locals : t.locals = s.locals
  globals : t.globals = relocateAll place labels s.globals

/-- The labels are moved, or the assembling pass has to stop and the image is as it was. -/
def MovesOrStops (cx : Context) (place : Nat → Nat) (labels : List VocabularyLabel) (m : Step Unit)
    (s : State) : Prop :=
  (∃ t, m s = .ok () t ∧ Relabelled place labels s t) ∨
    cx.mode = .assembling ∧ ∃ problem t, m s = .error (.abort problem) t ∧ t.image = s.image

section Labels

variable (cx : Context) (v : OpenVocabulary) (order : List Nat)

/-- Noting a change moves no label. -/
theorem noteChange_moves (place : Nat → Nat) (name : String) (old : Int32) (s : State) :
    MovesOrStops cx place [] (noteChange cx name old) s := by
  have heq : noteChange cx name old s = _ := noteChange_eq name old s
  split at heq
  · exact .inl ⟨_, heq, rfl, rfl, rfl, rfl⟩
  · exact .inl ⟨_, heq, rfl, rfl, rfl, rfl⟩
  · unfold MovesOrStops
    rw [heq]
    unfold judgeChange
    rw [get_bind]
    cases s.globals.valueOf name with
    | none => exact .inl ⟨s, rfl, rfl, rfl, rfl, rfl⟩
    | some new =>
      dsimp only
      split
      · exact .inl ⟨s, rfl, rfl, rfl, rfl, rfl⟩
      · cases hm : cx.mode with
        | measuring => exact .inl ⟨_, rfl, rfl, rfl, rfl, rfl⟩
        | assembling => exact .inr ⟨rfl, _, s, rfl, rfl⟩

theorem relocateLabel_moves (label : VocabularyLabel) (s : State) :
    MovesOrStops cx (v.place order) [label] (relocateLabel cx v order label) s := by
  unfold MovesOrStops relocateLabel
  rw [modify_bind]
  cases label.previous with
  | none => exact .inl ⟨_, rfl, rfl, rfl, rfl, rfl⟩
  | some old =>
    obtain ⟨t, ht, hnoted⟩ | hstops := noteChange_moves cx (v.place order) label.name old
      { s with globals := relocateAll (v.place order) [label] s.globals }
    · exact .inl ⟨t, ht, hnoted.image, hnoted.fixups, hnoted.locals, hnoted.globals⟩
    · exact .inr hstops

theorem relocateLabels_move (labels : List VocabularyLabel) (s : State) :
    MovesOrStops cx (v.place order) labels (labels.forM (relocateLabel cx v order)) s := by
  induction labels generalizing s with
  | nil => exact .inl ⟨s, rfl, rfl, rfl, rfl, rfl⟩
  | cons label rest ih =>
    obtain ⟨t, ht, hfirst⟩ | ⟨hm, problem, t, ht, himage⟩ := relocateLabel_moves cx v order label s
    · obtain ⟨u, hu, hrest⟩ | ⟨hm, problem, u, hu, himage⟩ := ih t
      · refine .inl ⟨u, (bind_of_ok ht).trans hu, hrest.image.trans hfirst.image,
          hrest.fixups.trans hfirst.fixups, hrest.locals.trans hfirst.locals, ?_⟩
        rw [hrest.globals, hfirst.globals]
        rfl
      · exact .inr ⟨hm, problem, u, (bind_of_ok ht).trans hu, himage.trans hfirst.image⟩
    · exact .inr ⟨hm, problem, t, bind_of_error ht, himage⟩

end Labels

namespace OpenVocabulary

/-- How names are looked up once the labels of the block have moved with their records. -/
def scopingAfter (v : OpenVocabulary) (cx : Context) (s : State) : Scoping :=
  .within s.locals (relocateAll (v.place (s.blockOrder v)) v.labels s.globals)
    (cx.mode = .assembling)

/-- The values that wait in the block. -/
def waiting (v : OpenVocabulary) (s : State) : List Fixup := s.fixups.toList.drop v.fixupStart

/-- The values that are settled: all that wait, up to one whose expression makes no sense. -/
def settled (v : OpenVocabulary) (cx : Context) (s : State) : List Fixup :=
  (v.waiting s).takeWhile (·.makesSense (v.scopingAfter cx s))

/-- What is written for a value when its record has moved. -/
def patch? (v : OpenVocabulary) (cx : Context) (s : State) (f : Fixup) :
    Option (Nat × List UInt8) :=
  (f.relocate v (s.blockOrder v) s.image.cursor).patch? (v.scopingAfter cx s)

/-- The image with the records arranged and values written again. -/
def rewritten (v : OpenVocabulary) (cx : Context) (s : State) (fixups : List Fixup) : Image :=
  (s.image.patch v.start (s.arrangedBytes v)).patches (fixups.filterMap (v.patch? cx s))

end OpenVocabulary

theorem expr_relocate (f : Fixup) (v : OpenVocabulary) (order : List Nat) (finish : Nat) :
    (f.relocate v order finish).expr = f.expr := by
  unfold Fixup.relocate
  split
  · split <;> rfl
  · rfl

/-- The changes that were put off are noted last, which does not touch the image. -/
theorem image_before_notes (cx : Context) (m : Step Unit) (changes : List (String × Int32))
    (s : State) :
    (final (m >>= fun _ => changes.forM fun (name, old) => noteChange cx name old) s).image =
      (final m s).image := by
  have hnotes := leaves_forM changes _ fun change _ t => idle_noteChange cx change.1 change.2 t
  cases h : m s with
  | ok a t =>
    rw [final_bind h, final_of_ok h]
    exact (hnotes t).image
  | error i t => rw [final_of_error (bind_of_error h), final_of_error h]

/-- Once the labels have moved, the image is left to the values that wait. -/
theorem settleBlock_image (cx : Context) {v : OpenVocabulary} {order : List Nat} {s t : State}
    (h : v.labels.forM (relocateLabel cx v order) s = .ok () t) (finish : Nat) :
    let fixups := (t.fixups.toList.drop v.fixupStart).map (·.relocate v order finish)
    (final (settleBlock cx v order finish) s).image =
      t.image.patches ((fixups.takeWhile (·.makesSense (t.scoping cx))).filterMap
        (·.patch? (t.scoping cx))) := by
  intro fixups
  have hrest : final (settleBlock cx v order finish) s =
      final (fixups.forM (settleFixup cx) >>= fun _ =>
        v.deferred.forM fun (name, old) => noteChange cx name old)
          { t with fixups := t.fixups.take v.fixupStart } := final_bind h
  rw [hrest, image_before_notes]
  exact settleFixups_image cx fixups { t with fixups := t.fixups.take v.fixupStart }

/-- The image at the end of a block: the values are written again, or the assembling pass stops
    before, at a label that has changed. -/
theorem closeVocabulary_image (cx : Context) {s : State} {v : OpenVocabulary}
    (hv : s.vocabulary = some v) :
    (final (closeVocabulary cx) s).image = v.rewritten cx s (v.settled cx s) ∨
      cx.mode = .assembling ∧ ∃ problem t, closeVocabulary cx s = .error (.abort problem) t ∧
        t.image = v.rewritten cx s [] := by
  obtain ⟨t, harranged, heq⟩ := closeVocabulary_arranges cx hv
  have hclose : final (closeVocabulary cx) s =
      final (settleBlock cx v (s.blockOrder v) s.image.cursor) t := by
    unfold final
    rw [heq]
  rw [hclose, heq]
  obtain ⟨u, hu, hmoved⟩ | ⟨hm, problem, u, hu, himage⟩ :=
    relocateLabels_move cx v (s.blockOrder v) v.labels t
  · refine .inl ?_
    have hscoping : u.scoping cx = v.scopingAfter cx s := by
      unfold State.scoping
      rw [hmoved.locals, hmoved.globals, harranged.locals, harranged.globals]
      rfl
    have hsense :
        ((·.makesSense (v.scopingAfter cx s)) ∘ (·.relocate v (s.blockOrder v) s.image.cursor)) =
        fun f : Fixup => f.makesSense (v.scopingAfter cx s) := by
      funext f
      show Except.isOk ((f.relocate v (s.blockOrder v) s.image.cursor).expr.eval _) = _
      rw [expr_relocate]
      rfl
    rw [settleBlock_image cx hu, hscoping, hmoved.image, hmoved.fixups, harranged.image,
      harranged.fixups, List.takeWhile_map, hsense, List.filterMap_map]
    rfl
  · refine .inr ⟨hm, problem, u, bind_of_error hu, ?_⟩
    rw [himage, harranged.image]
    rfl

theorem image_runStep (cx : Context) (step : Step Unit) (s : State) :
    (final (runStep cx step) s).image = (final step s).image := by
  -- what a step adds as part of a pass hangs on its result alone
  have hstep : Leaves Resting (fun _ => step s : Step Unit) (final step s) :=
    refl_of Resting (final step s)
  exact (leaves_runStep cx (fun _ _ _ => ⟨rfl, rfl, rfl⟩) hstep).image

/-- The image after the end of a block, in any pass. -/
theorem image_after_vocend {x : Arrival} {v : OpenVocabulary}
    (hnode : x.node.kind = .directive .vocend) (hv : x.before.vocabulary = some v) :
    x.after.image = v.rewritten x.context x.before (v.settled x.context x.before) ∨
      x.context.mode = .assembling ∧
        (∃ stop, visit x.context x.index x.node x.before = .error stop x.after) ∧
        x.after.image = v.rewritten x.context x.before [] := by
  have hclose : node x.context x.node = closeVocabulary x.context := node_directive hnode
  have hvisit : visit x.context x.index x.node x.before =
      runStep x.context (closeVocabulary x.context) (x.before.reach x.index x.node) := by
    rw [← hclose]
    rfl
  have himage : x.after.image =
      (final (closeVocabulary x.context) (x.before.reach x.index x.node)).image := by
    rw [← image_runStep]
    unfold Arrival.after final
    rw [hvisit]
  have hreach : (x.before.reach x.index x.node).vocabulary = some v := hv
  rw [himage]
  refine (closeVocabulary_image x.context hreach).imp_right
    fun ⟨hm, problem, t, hstop, hstopped⟩ => ?_
  refine ⟨hm, ⟨.failed problem, ?_⟩, ?_⟩
  · unfold Arrival.after final
    rw [hvisit, runStep_eq, hstop]
    rfl
  · rw [final_of_error hstop, hstopped]
    rfl

/-! ## Places in a block -/

/-- The bytes from `addr` on, `count` of them, stand in the block, in one record or behind the whole
    ones. -/
structure OpenVocabulary.Holds (v : OpenVocabulary) (s : State) (addr count : Nat) : Prop where
  start : v.start ≤ addr
  finish : addr + count ≤ s.image.cursor
  whole : (addr - v.start) % v.recordSize + count ≤ v.recordSize ∨
    v.start + (s.image.cursor - v.start) / v.recordSize * v.recordSize ≤ addr

section Places

variable {v : OpenVocabulary} {s : State}

theorem length_blockBytes : (s.blockBytes v).length = s.image.cursor - v.start := by
  simp [State.blockBytes, Image.read]

theorem length_arrangedBytes : (s.arrangedBytes v).length = s.image.cursor - v.start := by
  rw [← length_blockBytes]
  rcases Nat.eq_zero_or_pos v.recordSize with hzero | hpos
  · simp [State.arrangedBytes, State.blockOrder, Vocabulary.sortOrder, Vocabulary.arrange, hzero]
  · exact Vocabulary.length_arrange _ _ hpos

/-- Without records everything stays. -/
theorem place_of_zero (h : v.recordSize = 0) (order : List Nat) (position : Nat) :
    v.place order position = position := by
  unfold OpenVocabulary.place Vocabulary.relocate
  rw [if_pos (.inl h)]

variable (hs : s.image.Placed)

include hs

theorem block_fits {a : Nat} (hstart : v.start ≤ a) (hend : a < s.image.cursor) :
    v.start + (s.blockBytes v).length = s.image.cursor ∧
    v.start + (s.blockBytes v).length < 2 ^ 32 := by
  have := hs.addressed
  rw [length_blockBytes]
  omega

/-- A position of a block goes to one of the block. -/
theorem place_within {a : Nat} (hstart : v.start ≤ a) (hend : a < s.image.cursor) :
    v.start ≤ v.place (s.blockOrder v) a ∧ v.place (s.blockOrder v) a < s.image.cursor := by
  rcases Nat.eq_zero_or_pos v.recordSize with hzero | hpos
  · rw [place_of_zero hzero]
    exact ⟨hstart, hend⟩
  · obtain ⟨hfinish, hfits⟩ := block_fits hs hstart hend
    have hmaps :=
      Vocabulary.mapsTo_relocate (s.blockBytes v) v.keySize hpos hfits ⟨hstart, hfinish ▸ hend⟩
    rwa [hfinish] at hmaps

/-- Positions of a block that go to one place are one. -/
theorem place_inj {a b : Nat} (ha : v.start ≤ a) (hb : v.start ≤ b) (haend : a < s.image.cursor)
    (hbend : b < s.image.cursor) (h : v.place (s.blockOrder v) a = v.place (s.blockOrder v) b) :
    a = b := by
  rcases Nat.eq_zero_or_pos v.recordSize with hzero | hpos
  · rwa [place_of_zero hzero, place_of_zero hzero] at h
  · obtain ⟨hfinish, hfits⟩ := block_fits hs ha haend
    exact Vocabulary.injOn_relocate (s.blockBytes v) v.keySize hpos hfits ⟨ha, hfinish ▸ haend⟩
      ⟨hb, hfinish ▸ hbend⟩ h

variable {addr count : Nat} (h : v.Holds s addr count)

include h

theorem place_run {i : Nat} (hi : i < count) :
    v.place (s.blockOrder v) (addr + i) = v.place (s.blockOrder v) addr + i := by
  rcases Nat.eq_zero_or_pos v.recordSize with hzero | hpos
  · rw [place_of_zero hzero, place_of_zero hzero]
  · have hfinish := h.finish
    obtain ⟨-, hfits⟩ := block_fits hs h.start (by omega)
    have hwhole := h.whole
    rw [← length_blockBytes] at hwhole
    exact Vocabulary.relocate_run (s.blockBytes v) v.keySize hpos hfits h.start hwhole hi

/-- A run of bytes in the block stays in the block. -/
theorem run_within (hcount : 0 < count) :
    v.start ≤ v.place (s.blockOrder v) addr ∧ v.place (s.blockOrder v) addr + count ≤
    s.image.cursor := by
  have hstart := h.start
  have hfinish := h.finish
  have hlast : v.place (s.blockOrder v) (addr + (count - 1)) < s.image.cursor :=
    (place_within hs (by omega) (by omega)).2
  rw [place_run hs h (by omega)] at hlast
  exact ⟨(place_within hs hstart (by omega)).1, by omega⟩

/-- Runs of bytes that are apart go to places that are. -/
theorem runs_apart {addr' count' : Nat} (h' : v.Holds s addr' count')
    (hapart : addr + count ≤ addr' ∨ addr' + count' ≤ addr) {i j : Nat} (hi : i < count)
    (hj : j < count') :
    v.place (s.blockOrder v) addr + i ≠ v.place (s.blockOrder v) addr' + j := by
  intro heq
  rw [← place_run hs h hi, ← place_run hs h' hj] at heq
  have hstart := h.start
  have hfinish := h.finish
  have hstart' := h'.start
  have hfinish' := h'.finish
  have := place_inj hs (by omega) (by omega) (by omega) (by omega) heq
  omega

end Places

/-! ## What the end of a block touches -/

/-- The value of the fixup stands in the block, in one record or behind the whole ones. -/
def Fixup.StandsIn (f : Fixup) (v : OpenVocabulary) (s : State) : Prop :=
  ∀ addr width, f.target = .image addr width → v.Holds s addr width.size

section Frame

variable {cx : Context} {v : OpenVocabulary} {s : State} {f : Fixup}

theorem patch?_of_holds {addr : Nat} {width : Width} (htarget : f.target = .image addr width)
    (h : v.Holds s addr width.size) {kind : SymbolKind} {value : Int32}
    (hvalue : f.expr.eval (v.scopingAfter cx s) = .ok (.known kind value)) :
    v.patch? cx s f = some (v.place (s.blockOrder v) addr, width.bytes (f.stored value)) := by
  have hsize : 0 < width.size := by cases width <;> decide
  have hfinish := h.finish
  have hmoved : f.relocate v (s.blockOrder v) s.image.cursor =
      { f with target := .image (v.place (s.blockOrder v) addr) width } := by
    unfold Fixup.relocate
    rw [htarget]
    exact if_pos ⟨h.start, by omega⟩
  unfold OpenVocabulary.patch? Fixup.patch?
  rw [hmoved]
  dsimp only
  rw [hvalue]
  rfl

/-- A value that is known is written, wherever it stands. -/
theorem patch?_ne_none {addr : Nat} {width : Width} (htarget : f.target = .image addr width)
    {kind : SymbolKind} {value : Int32}
    (hvalue : f.expr.eval (v.scopingAfter cx s) = .ok (.known kind value)) :
    v.patch? cx s f ≠ none := by
  have hmoved : ∃ place, (f.relocate v (s.blockOrder v) s.image.cursor).target =
      .image place width := by
    unfold Fixup.relocate
    rw [htarget]
    dsimp only
    split
    · exact ⟨_, rfl⟩
    · exact ⟨_, htarget⟩
  obtain ⟨place, hplace⟩ := hmoved
  unfold OpenVocabulary.patch? Fixup.patch?
  rw [hplace, expr_relocate, hvalue]
  exact Option.some_ne_none _

/-- What is written is a value, where it has gone to. -/
theorem of_patch?_eq_some (h : f.StandsIn v s) {patch : Nat × List UInt8}
    (hpatch : v.patch? cx s f = some patch) :
    ∃ addr width kind value, f.target = .image addr width ∧
      f.expr.eval (v.scopingAfter cx s) = .ok (.known kind value) ∧
      patch = (v.place (s.blockOrder v) addr, width.bytes (f.stored value)) := by
  have hwritten := hpatch
  unfold OpenVocabulary.patch? Fixup.patch? at hwritten
  rw [expr_relocate] at hwritten
  split at hwritten
  · next kind value htarget hvalue =>
    cases hfixup : f.target with
    | dependency =>
      unfold Fixup.relocate at htarget
      rw [hfixup] at htarget
      cases hfixup.symm.trans htarget
    | image addr width =>
      refine ⟨addr, width, kind, value, rfl, hvalue, ?_⟩
      exact Option.some.inj
        (hpatch.symm.trans (patch?_of_holds hfixup (h addr width hfixup) hvalue))
  · cases hwritten

variable (hs : s.image.Placed)

include hs

/-- The records are arranged in the block and nowhere else. -/
theorem arranged_within :
    let im := s.image.patch v.start (s.arrangedBytes v)
    im.size = s.image.size ∧
      (∀ a, a < v.start ∨ s.image.cursor ≤ a → im.readByte a = s.image.readByte a) ∧
      ∀ a, v.start ≤ a → a < s.image.cursor →
      im.readByte a = (s.arrangedBytes v).getD (a - v.start) 0 := by
  intro im
  have hlength := @length_arrangedBytes v s
  have haddressed := hs.addressed
  by_cases hopen : v.start ≤ s.image.cursor
  · have hfinish : v.start + (s.arrangedBytes v).length = s.image.cursor := by omega
    have hread := Story.readByte_patch s.image (hfinish.trans_lt haddressed)
    refine ⟨?_, fun a ha => (hread a).2 ?_, fun a ha haend => (hread a).1 ⟨ha, ?_⟩⟩
    · exact (Image.patch_within s.image v.start _ (Nat.le_of_eq hfinish) haddressed).1 hs.within
    · rintro ⟨hle, hlt⟩
      dsimp only at hle hlt
      omega
    · dsimp only
      omega
  · have hnil : s.arrangedBytes v = [] := List.length_eq_zero_iff.mp (by omega)
    have him : im = s.image := by
      show s.image.patch v.start (s.arrangedBytes v) = s.image
      rw [hnil]
      rfl
    rw [him]
    exact ⟨rfl, fun _ _ => rfl, fun a ha haend => by omega⟩

end Frame

/-- The byte at `a` is one of the fixup's value, where the value has gone to with its record. -/
def OpenVocabulary.Rewrites (v : OpenVocabulary) (cx : Context) (s : State) (f : Fixup)
    (a : Nat) : Prop :=
  ∃ addr width kind value, f.target = .image addr width ∧
    f.expr.eval (v.scopingAfter cx s) = .ok (.known kind value) ∧
    v.place (s.blockOrder v) addr ≤ a ∧ a < v.place (s.blockOrder v) addr + width.size

/-- The values of the fixups have no byte in common. -/
def Fixup.ApartFrom (f g : Fixup) : Prop :=
  ∀ addr width addr' width', f.target = .image addr width → g.target = .image addr' width' →
    addr + width.size ≤ addr' ∨ addr' + width'.size ≤ addr

/-- The image `im` differs from that of `s` in the block alone. There it is the arranged block,
    except that the fixups have their values, where these have gone to. -/
structure KeepsToBlock (v : OpenVocabulary) (cx : Context) (fixups : List Fixup) (s : State)
    (im : Image) : Prop where
  size : im.size = s.image.size
  outside : ∀ a, a < v.start ∨ s.image.cursor ≤ a → im.readByte a = s.image.readByte a
  sorted : ∀ a, v.start ≤ a → a < s.image.cursor → (∀ f ∈ fixups, ¬ v.Rewrites cx s f a) →
    im.readByte a = (s.arrangedBytes v).getD (a - v.start) 0
  /-- A fixup has its value unless one that is written later shares a byte with it. -/
  values : ∀ before f after, fixups = before ++ f :: after →
    (∀ g ∈ after, v.patch? cx s g ≠ none → f.ApartFrom g) → ∀ addr width kind value,
    f.target = .image addr width →
      f.expr.eval (v.scopingAfter cx s) = .ok (.known kind value) →
      im.read (v.place (s.blockOrder v) addr) width.size = width.bytes (f.stored value)

section Frame

variable {cx : Context} {v : OpenVocabulary} {s : State} (hs : s.image.Placed)

include hs

/-- What is written for a value stays in the block. -/
theorem patch_within_block {f : Fixup} (h : f.StandsIn v s) {patch : Nat × List UInt8}
    (hpatch : v.patch? cx s f = some patch) :
    v.start ≤ patch.1 ∧ patch.1 + patch.2.length ≤ s.image.cursor := by
  obtain ⟨addr, width, kind, value, htarget, -, rfl⟩ := of_patch?_eq_some h hpatch
  rw [Width.length_bytes]
  exact run_within hs (h addr width htarget) (by cases width <;> decide)

variable {fixups : List Fixup} (h : ∀ f ∈ fixups, v.patch? cx s f ≠ none → f.StandsIn v s)

include h

theorem patches_within_block : ∀ patch ∈ fixups.filterMap (v.patch? cx s),
    v.start ≤ patch.1 ∧ patch.1 + patch.2.length ≤ s.image.cursor := by
  intro patch hpatch
  obtain ⟨f, hf, hpatch⟩ := List.mem_filterMap.mp hpatch
  exact patch_within_block hs (h f hf (Option.ne_none_iff_exists'.mpr ⟨patch, hpatch⟩)) hpatch

theorem patches_fit : ∀ patch ∈ fixups.filterMap (v.patch? cx s),
    patch.1 + patch.2.length < 4294967296 :=
  fun patch hpatch => Nat.lt_of_le_of_lt (patches_within_block hs h patch hpatch).2 hs.addressed

/-- A byte of a value that no later fixup shares a byte with. -/
theorem readByte_rewritten {before after : List Fixup} {f : Fixup}
    (heq : fixups = before ++ f :: after) (hapart : ∀ g ∈ after, v.patch? cx s g ≠ none →
      f.ApartFrom g) {addr : Nat} {width : Width} {kind : SymbolKind} {value : Int32}
    (htarget : f.target = .image addr width)
    (hvalue : f.expr.eval (v.scopingAfter cx s) = .ok (.known kind value)) {i : Nat}
    (hi : i < width.size) :
    (v.rewritten cx s fixups).readByte (v.place (s.blockOrder v) addr + i) =
      (width.bytes (f.stored value)).getD i 0 := by
  have hholds : v.Holds s addr width.size :=
    h f (by simp [heq]) (patch?_ne_none htarget hvalue) addr width htarget
  have hpatch := patch?_of_holds htarget hholds hvalue
  have hpatches : fixups.filterMap (v.patch? cx s) = before.filterMap (v.patch? cx s) ++
      (v.place (s.blockOrder v) addr, width.bytes (f.stored value)) :: after.filterMap
      (v.patch? cx s) := by
    rw [heq, List.filterMap_append, List.filterMap_cons, hpatch]
  refine (Story.readByte_patches_last (patches_fit hs h) _ hpatches ⟨Nat.le_add_right _ i, ?_⟩
    ?_).trans ?_
  · rw [Width.length_bytes]
    exact Nat.add_lt_add_left hi _
  · intro patch hmem hcovers
    obtain ⟨g, hg, hlater⟩ := List.mem_filterMap.mp hmem
    have hwritten : v.patch? cx s g ≠ none := Option.ne_none_iff_exists'.mpr ⟨patch, hlater⟩
    have hstands : g.StandsIn v s := h g (by simp [heq, hg]) hwritten
    obtain ⟨addr', width', _, _, htarget', -, rfl⟩ := of_patch?_eq_some hstands hlater
    unfold Story.Covers at hcovers
    rw [Width.length_bytes] at hcovers
    obtain ⟨j, hj⟩ := Nat.exists_eq_add_of_le hcovers.1
    refine runs_apart hs hholds (hstands addr' width' htarget')
      (hapart g hg hwritten addr width addr' width' htarget htarget') hi (j := j) ?_ hj
    omega
  · rw [Nat.add_sub_cancel_left]

theorem keepsToBlock : KeepsToBlock v cx fixups s (v.rewritten cx s fixups) := by
  obtain ⟨hsize, houtside, hsorted⟩ := arranged_within (v := v) hs
  have hpatches : ∀ patch ∈ fixups.filterMap (v.patch? cx s), _ := patches_within_block hs h
  have hfit : ∀ patch ∈ fixups.filterMap (v.patch? cx s), _ := patches_fit hs h
  refine ⟨?_, fun a ha => ?_, fun a ha haend hclear => ?_, ?_⟩
  · refine (Image.size_patches _ (fun patch hpatch => (hpatches patch hpatch).2) hs.addressed
      ?_).trans hsize
    rw [hsize]
    exact hs.within
  · refine (Story.readByte_patches_out hfit _ fun patch hpatch hcovers => ?_).trans (houtside a ha)
    have hwithin := hpatches patch hpatch
    unfold Story.Covers at hcovers
    omega
  · refine (Story.readByte_patches_out hfit _ fun patch hpatch hcovers => ?_).trans
      (hsorted a ha haend)
    obtain ⟨f, hf, hpatch⟩ := List.mem_filterMap.mp hpatch
    have hstands := h f hf (Option.ne_none_iff_exists'.mpr ⟨patch, hpatch⟩)
    obtain ⟨addr, width, kind, value, htarget, hvalue, rfl⟩ := of_patch?_eq_some hstands hpatch
    unfold Story.Covers at hcovers
    rw [Width.length_bytes] at hcovers
    exact hclear f hf ⟨addr, width, kind, value, htarget, hvalue, hcovers⟩
  · intro before f after heq hapart addr width kind value htarget hvalue
    have hholds : v.Holds s addr width.size :=
      h f (by simp [heq]) (patch?_ne_none htarget hvalue) addr width htarget
    refine List.ext_getElem (by simp [Image.read, Width.length_bytes]) fun i hi hi' => ?_
    have hwidth : i < width.size := by simpa [Width.length_bytes] using hi'
    have hend := (run_within hs hholds (Nat.zero_lt_of_lt hwidth)).2
    have haddressed := hs.addressed
    have hread := readByte_rewritten hs h heq hapart htarget hvalue hwidth
    rw [List.getD_eq_getElem?_getD, List.getElem?_eq_getElem hi', Option.getD_some] at hread
    rw [← hread]
    simp only [Image.read, List.getElem_map, List.getElem_range]
    rw [wrapAddress_of_lt (by omega)]

end Frame

/-- The end of a block, in any pass of any run. The cursor stays. The records are arranged, and the
    values that wait are written where they have gone to, unless the assembling pass stops before;
    so the image is known to the byte. If each that is written stands in one record of the block, or
    behind the whole ones, the block is all that changes. -/
theorem closing_keeps_to_block {o : Options} {nodes : List Node} {p : BegunPass}
    (hp : p ∈ begunPasses o nodes) {x : Arrival} (hx : x ∈ passArrivals p.context p.program p.start)
    (hnode : x.node.kind = .directive .vocend) {v : OpenVocabulary}
    (hv : x.before.vocabulary = some v) :
    ∃ settled,
      (settled = v.settled x.context x.before ∨ settled = [] ∧ x.context.mode = .assembling ∧
        ∃ stop, visit x.context x.index x.node x.before = .error stop x.after) ∧
      x.after.image = v.rewritten x.context x.before settled ∧
      x.after.image.cursor = x.before.image.cursor ∧
      ((∀ f ∈ settled, v.patch? x.context x.before f ≠ none → f.StandsIn v x.before) →
        KeepsToBlock v x.context settled x.before x.after.image) := by
  have hplaced := placed_before hp hx
  have hrest : ∀ settled, x.after.image = v.rewritten x.context x.before settled →
      x.after.image.cursor = x.before.image.cursor ∧
      ((∀ f ∈ settled, v.patch? x.context x.before f ≠ none → f.StandsIn v x.before) →
        KeepsToBlock v x.context settled x.before x.after.image) := by
    intro settled himage
    rw [himage]
    refine ⟨?_, keepsToBlock hplaced⟩
    rw [OpenVocabulary.rewritten, Image.cursor_patches, Image.cursor_patch]
  obtain himage | ⟨hm, hstop, himage⟩ := image_after_vocend hnode hv
  · exact ⟨_, .inl rfl, himage, hrest _ himage⟩
  · exact ⟨[], .inr ⟨rfl, hm, hstop⟩, himage, hrest [] himage⟩

/-- A labelled block of two records, the first of which ends with the address of the label. -/
def pointing : List Node :=
  [⟨.directive (.vocbeg (.number 4) (.number 1)), {}⟩, ⟨.globalLabel "L", {}⟩,
    ⟨.directive (.byte [.number 0xFF, .number 0]), {}⟩, ⟨.directive (.word [.symbol "L"]), {}⟩,
    ⟨.directive (.byte [.number 1, .number 2, .number 3, .number 4]), {}⟩, ⟨.directive .vocend, {}⟩]

def pointingOptions : Options := { version := .v3, identity := { serial := "000000" } }

/-- The block as it is when its end is reached. -/
def pointingBlock : OpenVocabulary :=
  { recordSize := 4, keySize := 1, start := 64, fixupStart := 0, labels := [⟨"L", 64, none⟩] }

def pointer : Fixup := { symbol := "L", expr := .symbol "L", target := .image 66 .word }

/-- The first pass of a run. -/
def firstPass (o : Options) (nodes : List Node) : BegunPass :=
  (State.initial o.version).nextPass o (.ofNodes nodes) o.version .measuring

theorem firstPass_begun (o : Options) (nodes : List Node) :
    firstPass o nodes ∈ begunPasses o nodes :=
  List.mem_flatMap.mpr ⟨_, mem_attempts_self o nodes, List.mem_append_left _ List.mem_cons_self⟩

theorem settled_of_known {v : OpenVocabulary} {cx : Context} {s : State} {f : Fixup}
    {kind : SymbolKind} {value : Int32} (hwaiting : v.waiting s = [f])
    (hvalue : f.expr.eval (v.scopingAfter cx s) = .ok (.known kind value)) :
    v.settled cx s = [f] := by
  have hsense : f.makesSense (v.scopingAfter cx s) = true := by
    rw [Fixup.makesSense, hvalue]
    rfl
  rw [OpenVocabulary.settled, hwaiting, List.takeWhile_cons, hsense]
  rfl

theorem pointing_kept :
    ∃ p ∈ begunPasses pointingOptions pointing, ∃ x ∈ passArrivals p.context p.program p.start,
      x.node.kind = .directive .vocend ∧ x.before.vocabulary = some pointingBlock ∧
      x.before.image.cursor = 72 ∧ pointingBlock.settled x.context x.before = [pointer] ∧
      pointer.StandsIn pointingBlock x.before ∧ x.after.image.size = x.before.image.size ∧
      x.after.image.read 70 2 = [0, 0x44] := by
  have hrun : ((passArrivals (firstPass pointingOptions pointing).context
      (firstPass pointingOptions pointing).program
      (firstPass pointingOptions pointing).start).any fun x =>
      decide (x.node.kind = .directive .vocend ∧ x.before.vocabulary = some pointingBlock ∧
        x.before.image.cursor = 72 ∧
        x.before.blockBytes pointingBlock = [0xFF, 0, 0, 0x40, 1, 2, 3, 4] ∧
        pointingBlock.waiting x.before = [pointer] ∧ x.context.mode = .measuring ∧
        pointer.expr.eval (.within x.before.locals (relocateAll (pointingBlock.place [1, 0])
          pointingBlock.labels x.before.globals) false) = .ok (.known .label 0x44))) = true := by
    decide +kernel
  obtain ⟨x, hx, hrun⟩ := List.any_eq_true.mp hrun
  obtain ⟨hnode, hv, hcursor, hbytes, hwaiting, hmode, hvalue⟩ := of_decide_eq_true hrun
  have horder : x.before.blockOrder pointingBlock = [1, 0] := by
    rw [State.blockOrder, hbytes]
    exact Vocabulary.sortOrder_two (by decide) (by decide) (by decide)
  have hafter : pointer.expr.eval (pointingBlock.scopingAfter x.context x.before) =
      .ok (.known .label 0x44) := by
    rw [OpenVocabulary.scopingAfter, horder, hmode]
    exact hvalue
  have hsettled := settled_of_known hwaiting hafter
  have hstands : pointer.StandsIn pointingBlock x.before := by
    intro addr width htarget
    cases htarget
    exact ⟨by decide, hcursor ▸ by decide, .inl (by decide)⟩
  obtain ⟨settled, hwhich, -, -, hkeeps⟩ :=
    closing_keeps_to_block (firstPass_begun pointingOptions pointing) hx hnode hv
  rw [hsettled, hmode] at hwhich
  obtain rfl : settled = [pointer] := hwhich.resolve_right fun h => by cases h.2.1
  have hblock := hkeeps fun f hf _ => by rwa [List.mem_singleton.mp hf]
  have hread :=
    hblock.values [] pointer [] rfl (fun g hg => by cases hg) 66 .word .label 0x44 rfl hafter
  rw [horder] at hread
  exact ⟨_, firstPass_begun _ _, x, hx, hnode, hv, hcursor, hsettled, hstands, hblock.size, hread⟩

/-- A labelled block of two records. The address of the label begins with the last byte of the first
    record and ends with the first byte of the second. -/
def straddling : List Node :=
  [⟨.directive (.vocbeg (.number 2) (.number 1)), {}⟩, ⟨.globalLabel "L", {}⟩,
    ⟨.directive (.byte [.number 0xFF]), {}⟩, ⟨.directive (.word [.symbol "L"]), {}⟩,
    ⟨.directive (.byte [.number 1]), {}⟩, ⟨.directive .vocend, {}⟩]

def straddlingBlock : OpenVocabulary :=
  { recordSize := 2, keySize := 1, start := 64, fixupStart := 0, labels := [⟨"L", 64, none⟩] }

def straddler : Fixup := { symbol := "L", expr := .symbol "L", target := .image 65 .word }

/-- The record that the address begins in comes last, and the address is written past the end of the
    block. -/
theorem straddling_spills :
    ∃ p ∈ begunPasses pointingOptions straddling, ∃ x ∈ passArrivals p.context p.program p.start,
      x.node.kind = .directive .vocend ∧ x.before.vocabulary = some straddlingBlock ∧
      x.before.image.cursor = 68 ∧ straddlingBlock.settled x.context x.before = [straddler] ∧
      x.before.image.size = 68 ∧ x.after.image.size = 69 ∧
      x.before.image.readByte 68 = 0 ∧ x.after.image.readByte 68 = 0x42 := by
  have hrun : ((passArrivals (firstPass pointingOptions straddling).context
      (firstPass pointingOptions straddling).program
      (firstPass pointingOptions straddling).start).any fun x =>
      decide (x.node.kind = .directive .vocend ∧ x.before.vocabulary = some straddlingBlock ∧
        x.before.image = (Image.fill {} 64 0).store [0xFF, 0, 0x40, 1] ∧
        straddlingBlock.waiting x.before = [straddler] ∧ x.context.mode = .measuring ∧
        straddler.expr.eval (.within x.before.locals (relocateAll (straddlingBlock.place [1, 0])
          straddlingBlock.labels x.before.globals) false) = .ok (.known .label 0x42))) = true := by
    decide +kernel
  obtain ⟨x, hx, hrun⟩ := List.any_eq_true.mp hrun
  obtain ⟨hnode, hv, hbefore, hwaiting, hmode, hvalue⟩ := of_decide_eq_true hrun
  have hbytes : x.before.blockBytes straddlingBlock = [0xFF, 0, 0x40, 1] := by
    rw [State.blockBytes, hbefore]
    decide +kernel
  have horder : x.before.blockOrder straddlingBlock = [1, 0] := by
    rw [State.blockOrder, hbytes]
    exact Vocabulary.sortOrder_two (by decide) (by decide) (by decide)
  have hafter : straddler.expr.eval (straddlingBlock.scopingAfter x.context x.before) =
      .ok (.known .label 0x42) := by
    rw [OpenVocabulary.scopingAfter, horder, hmode]
    exact hvalue
  have hpatch : straddlingBlock.patch? x.context x.before straddler = some (67, [0, 0x42]) := by
    rw [OpenVocabulary.patch?, Fixup.patch?, expr_relocate, hafter, horder, hbefore]
    decide +kernel
  have harranged : x.before.arrangedBytes straddlingBlock = [0x40, 1, 0xFF, 0] := by
    rw [State.arrangedBytes, horder, hbytes]
    decide +kernel
  have hsettled := settled_of_known hwaiting hafter
  have himage :
      x.after.image = (x.before.image.patch 64 [0x40, 1, 0xFF, 0]).patches [(67, [0, 0x42])] := by
    obtain himage | ⟨hm, -⟩ := image_after_vocend hnode hv
    · rw [himage, OpenVocabulary.rewritten, hsettled, List.filterMap_cons, hpatch, harranged]
      rfl
    · cases hmode.symm.trans hm
  refine ⟨_, firstPass_begun _ _, x, hx, hnode, hv, ?_, hsettled, ?_, ?_, ?_, ?_⟩
  · rw [hbefore]
    decide +kernel
  · rw [hbefore]
    decide +kernel
  · rw [himage, hbefore]
    decide +kernel
  · rw [hbefore]
    decide +kernel
  · rw [himage, hbefore]
    decide +kernel

end Assembly

end ZAssembler
