import ZAssembler.Proofs.Growth
import ZAssembler.Proofs.Lasting

/-
  What a walk of a routine leaves alone. Let `o` be the state in which a pass came to the routine.
  As long as the image stays below 2^32 bytes the walk writes from the cursor of `o` on, and a table
  that it opens begins there (`Beyond`). The bytes below and the fixups of `o` stay as well, unless
  the walk ends a block that was open in `o` (`Inside`, `Inner`): the end of a block sorts what is
  in it and settles its fixups.
-/

namespace ZAssembler.Assembly

/-- The image does not shrink, and `P` is kept if it stays below 2^32 bytes. -/
structure Keeps (P : State → Prop) (s t : State) : Prop where
  size : s.image.size ≤ t.image.size
  keeps : t.image.size < 2 ^ 32 → P s → P t

section Keeps

variable {P : State → Prop} {s t : State}

instance : Std.Refl (Keeps P) where
  refl _ := ⟨Nat.le_refl _, fun _ hs => hs⟩

instance : IsTrans State (Keeps P) where
  trans _ _ _ hst htu := ⟨Nat.le_trans hst.size htu.size, fun hfit hs =>
    htu.keeps hfit (hst.keeps (Nat.lt_of_le_of_lt htu.size hfit) hs)⟩

theorem keeps_of_image (himage : t.image = s.image) (h : P s → P t) : Keeps P s t :=
  ⟨Nat.le_of_eq (congrArg _ himage.symm), fun _ => h⟩

theorem Keeps.chain {r : State → State → Prop} (hr : ∀ {s t}, r s t → Keeps P s t)
    (h : Relation.ReflTransGen r s t) : Keeps P s t := by
  induction h with
  | refl => exact refl_of (Keeps P) s
  | tail _ hstep ih => exact trans_of (Keeps P) ih (hr hstep)

end Keeps

/-! ## Positions and tables -/

/-- The cursor has not gone back behind that of `o`, and an open table is that of `o` or begins
    later. -/
structure Beyond (o s : State) : Prop where
  cursor : o.image.cursor ≤ s.image.cursor
  within : s.image.cursor ≤ s.image.size
  table : ∀ opened, s.table = some opened → o.table = some opened ∨ o.image.cursor ≤ opened.start

theorem Beyond.refl {o : State} (h : o.image.cursor ≤ o.image.size) : Beyond o o :=
  ⟨Nat.le_refl _, h, fun _ ht => .inl ht⟩

section Beyond

variable {n : Node} {here : Nat} {o s t : State}

theorem beyond_of_eq (hs : Beyond o s) (hcursor : t.image.cursor = s.image.cursor)
    (hsize : s.image.size ≤ t.image.size) (htable : t.table = s.table) : Beyond o t :=
  ⟨hcursor ▸ hs.cursor, hcursor ▸ Nat.le_trans hs.within hsize, fun opened h =>
    hs.table opened (htable ▸ h)⟩

theorem Effect.beyond (h : Effect here s t) : Keeps (Beyond o) s t := by
  refine ⟨h.onward.size, fun hfit hs => ?_⟩
  cases h with
  | quiet h =>
    exact beyond_of_eq hs (by rw [h.image]) (Nat.le_of_eq (congrArg _ h.image.symm)) h.table
  | store bytes =>
    obtain ⟨hcursor, hwithin⟩ := Image.cursor_store_le s.image bytes hfit hs.within
    exact ⟨hcursor ▸ Nat.le_trans hs.cursor (Nat.le_add_right _ _), hwithin, hs.table⟩
  | table table h =>
    refine ⟨hs.cursor, hs.within, fun opened ht => .inr ?_⟩
    rw [h opened ht]
    exact hs.cursor
  | report | fixup | block | openBlock | scope | pack | register =>
    exact beyond_of_eq hs rfl (Nat.le_refl _) rfl

theorem Act.beyond (h : Act n here s t) : Keeps (Beyond o) s t := by
  refine ⟨h.onward.size, fun hfit hs => ?_⟩
  cases h with
  | effect h => exact h.beyond.keeps hfit hs
  | close _ h => exact beyond_of_eq hs (congrArg Mark.position h.mark) h.size h.table
  | object | globalVar | record | text => exact beyond_of_eq hs rfl (Nat.le_refl _) rfl

theorem visit_beyond (cx : Context) (index : Nat) (n : Node) (s : State) :
    Leaves (Keeps (Beyond o)) (visit cx index n) s := by
  have hreach : Keeps (Beyond o) s (s.reach index n) :=
    keeps_of_image rfl fun hs => beyond_of_eq hs rfl (Nat.le_refl _) rfl
  exact trans_of (Keeps (Beyond o)) hreach (Keeps.chain Act.beyond (visit_acts cx index n s))

theorem visitAll_beyond (cx : Context) (index : Nat) (nodes : List Node) (s : State) :
    Leaves (Keeps (Beyond o)) (visitAll cx index nodes) s := by
  induction nodes generalizing index s with
  | nil => exact leaves_pure _ s
  | cons n rest ih => exact (visit_beyond cx index n s).bind fun _ t _ => ih (index + 1) t

end Beyond

/-! ## Bytes and fixups -/

/-- The bytes below the cursor of `o` and the fixups of `o` are as they were, and no later fixup
    reaches down to those bytes. -/
structure Inside (o s : State) : Prop where
  bytes : ∀ a, a < o.image.cursor → s.image.readByte a = o.image.readByte a
  fixups : o.fixups.toList <+: s.fixups.toList
  waiting : ∀ f ∈ s.fixups.toList.drop o.fixups.size, ∀ addr width,
    f.target = .image addr width → o.image.cursor ≤ addr

theorem Inside.refl (o : State) : Inside o o := by
  refine ⟨fun _ _ => rfl, List.prefix_rfl, fun f hf => ?_⟩
  rw [List.drop_eq_nil_of_le (by simp)] at hf
  cases hf

/-- An open block begins after `o`, and so do its fixups. -/
def Inner (o s : State) : Prop :=
  ∀ v, s.vocabulary = some v → o.image.cursor ≤ v.start ∧ o.fixups.size ≤ v.fixupStart

section Inside

variable {n : Node} {here : Nat} {o s t : State}

theorem inside_of_eq (hs : Inside o s) (himage : t.image = s.image)
    (hfixups : t.fixups = s.fixups) : Inside o t :=
  ⟨fun a ha => himage ▸ hs.bytes a ha, hfixups ▸ hs.fixups, fun f hf => hs.waiting f (hfixups ▸ hf)⟩

theorem inside_push {f : Fixup} (hs : Inside o s)
    (hf : ∀ addr width, f.target = .image addr width → o.image.cursor ≤ addr) :
    Inside o { s with fixups := s.fixups.push f } := by
  refine ⟨hs.bytes, hs.fixups.trans (prefix_push _ _), fun g hg => ?_⟩
  have hle : o.fixups.size ≤ s.fixups.toList.length := by simpa using hs.fixups.length_le
  rw [Array.toList_push, List.drop_append_of_le_length hle, List.mem_append,
    List.mem_singleton] at hg
  rcases hg with hg | rfl
  · exact hs.waiting g hg
  · exact hf

theorem inside_patch {addr : Nat} {bytes : List UInt8} (hs : Inside o s)
    (haddr : o.image.cursor ≤ addr) (hfit : (s.image.patch addr bytes).size < 2 ^ 32) :
    Inside o { s with image := s.image.patch addr bytes } := by
  refine ⟨fun a ha => ?_, hs.fixups, hs.waiting⟩
  exact (Image.readByte_patch_below _ _ _ hfit (by omega)).trans (hs.bytes a ha)

theorem toList_take {α : Type} (xs : Array α) (count : Nat) :
    (xs.take count).toList = xs.toList.take count := by
  rw [Array.take_eq_extract, Array.toList_extract]
  simp

theorem inside_take {count : Nat} (hs : Inside o s) (hcount : o.fixups.size ≤ count) :
    Inside o { s with fixups := s.fixups.take count } := by
  refine ⟨hs.bytes, ?_, fun f hf => ?_⟩
  · rw [toList_take, List.prefix_take_iff]
    exact ⟨hs.fixups, by simpa using hcount⟩
  · rw [toList_take, List.drop_take] at hf
    exact hs.waiting f (List.mem_of_mem_take hf)

theorem Effect.inside (h : Effect here s t) (hhere : o.image.cursor ≤ here)
    (hfit : t.image.size < 2 ^ 32) (hb : Beyond o s) (hs : Inside o s) : Inside o t := by
  cases h with
  | quiet h => exact inside_of_eq hs h.image h.fixups
  | store bytes =>
    refine ⟨fun a ha => ?_, hs.fixups, hs.waiting⟩
    have hbelow := Nat.lt_of_lt_of_le ha hb.cursor
    exact (Image.readByte_store_below s.image bytes hfit hbelow).trans (hs.bytes a ha)
  | fixup f hf =>
    refine inside_push hs fun addr width htarget => ?_
    rcases hf addr width htarget with rfl | hle
    · exact hb.cursor
    · exact Nat.le_trans hhere hle
  | report | block | openBlock | table | scope | pack | register => exact inside_of_eq hs rfl rfl

theorem Effect.inner (h : Effect here s t) (hb : Beyond o s) (hs : Inside o s) (hi : Inner o s) :
    Inner o t := by
  cases h with
  | quiet h => exact fun v hv => hi v (h.vocabulary ▸ hv)
  | block v v' hv hstart hfixups =>
    intro w hw
    cases hw
    rw [hstart, hfixups]
    exact hi v hv
  | openBlock recordSize keySize =>
    intro w hw
    cases hw
    exact ⟨hb.cursor, by simpa [State.newBlock] using hs.fixups.length_le⟩
  | report | store | fixup | table | scope | pack | register => exact hi

end Inside

/-! ## The end of a block -/

section Closing

variable {o s t : State}

/-- The image and the fixups stay, and no block is opened. -/
structure Idle (s t : State) : Prop where
  image : t.image = s.image
  fixups : t.fixups = s.fixups
  vocabulary : s.vocabulary = none → t.vocabulary = none

instance : Std.Refl Idle where
  refl _ := ⟨rfl, rfl, id⟩

instance : IsTrans State Idle where
  trans _ _ _ hst htu := ⟨htu.image.trans hst.image, htu.fixups.trans hst.fixups,
    fun h => htu.vocabulary (hst.vocabulary h)⟩

theorem Quiet.idle (h : Quiet s t) : Idle s t :=
  ⟨h.image, h.fixups, fun hs => h.vocabulary.trans hs⟩

theorem idle_noteChange (cx : Context) (name : String) (old : Int32) (s : State) :
    Leaves Idle (noteChange cx name old) s := by
  have heq : noteChange cx name old s = _ := noteChange_eq name old s
  split at heq
  · next v hv => exact leaves_of_ok heq ⟨rfl, rfl, fun h => nomatch hv.symm.trans h⟩
  · exact leaves_of_ok heq ⟨rfl, rfl, id⟩
  · have hjudge := (quiet_judgeChange cx name old s).imp fun t h => h.idle
    unfold Leaves final at hjudge ⊢
    rw [heq]
    exact hjudge

theorem idle_relocateLabel (cx : Context) (v : OpenVocabulary) (order : List Nat)
    (label : VocabularyLabel) (s : State) : Leaves Idle (relocateLabel cx v order label) s := by
  unfold relocateLabel
  refine Leaves.bind (leaves_modify ⟨rfl, rfl, id⟩) fun _ t _ => ?_
  split
  · exact idle_noteChange cx _ _ t
  · exact leaves_pure _ t

/-- No block is open, and what is below `o` is as it was. -/
def Shut (o s : State) : Prop := s.vocabulary = none ∧ Inside o s

theorem Idle.shut (h : Idle s t) : Keeps (Shut o) s t :=
  keeps_of_image h.image fun hs => ⟨h.vocabulary hs.1, inside_of_eq hs.2 h.image h.fixups⟩

theorem shut_settleFixup (cx : Context) {f : Fixup}
    (hf : ∀ addr width, f.target = .image addr width → o.image.cursor ≤ addr) (s : State) :
    Leaves (Keeps (Shut o)) (settleFixup cx f) s := by
  unfold settleFixup
  refine Leaves.bind (m := applyFixup cx f) ?_ fun applied t _ => ?_
  · unfold applyFixup
    refine Leaves.bind ((work_evaluate (.refl cx) f.expr s).quiet.imp fun _ h => h.idle.shut)
      fun r t _ => ?_
    split
    · exact leaves_pure _ t
    · dsimp only
      split
      · next addr width htarget =>
        refine Leaves.bind (leaves_modify ⟨Image.size_le_patch _ _ _, fun hfit hs => ?_⟩)
          fun _ t _ => leaves_pure _ t
        exact ⟨hs.1, inside_patch hs.2 (hf addr width htarget) hfit⟩
      · exact leaves_pure _ t
  · split
    · exact leaves_modify (keeps_of_image rfl fun hs => ⟨hs.1, inside_push hs.2 hf⟩)
    · exact leaves_pure _ t

/-- A fixup that moves with its record stays in the block. -/
theorem relocate_above {v : OpenVocabulary} {f : Fixup} (hfit : s.image.cursor < 2 ^ 32)
    (hv : o.image.cursor ≤ v.start)
    (hf : ∀ addr width, f.target = .image addr width → o.image.cursor ≤ addr) (finish : Nat) :
    ∀ addr width, (f.relocate v (s.blockOrder v) finish).target = .image addr width →
      o.image.cursor ≤ addr := by
  intro addr width htarget
  unfold Fixup.relocate at htarget
  split at htarget
  · next addr' width' htarget' =>
    split at htarget
    · next hinside =>
      simp only [FixupTarget.image.injEq] at htarget
      rw [← htarget.1]
      exact Nat.le_trans hv (le_place hfit hinside.1)
    · exact hf addr width htarget
  · exact hf addr width htarget

theorem settleBlock_shut (cx : Context) {v : OpenVocabulary} {order : List Nat} {finish : Nat}
    (hfixups : o.fixups.size ≤ v.fixupStart)
    (hpending : ∀ f ∈ (s.fixups.toList.drop v.fixupStart).map (·.relocate v order finish),
      ∀ addr width, f.target = .image addr width → o.image.cursor ≤ addr) :
    Leaves (Keeps (Shut o)) (settleBlock cx v order finish) s := by
  have hlabels := leaves_forM v.labels (relocateLabel cx v order)
    (fun label _ t => idle_relocateLabel cx v order label t) s
  refine Leaves.bind (hlabels.imp fun _ h => h.shut) fun _ t ht => leaves_get ?_
  -- moving the labels has left the fixups alone
  rw [(hlabels.of_ok ht).fixups]
  refine Leaves.bind (leaves_modify (keeps_of_image rfl fun hs => ⟨hs.1, inside_take hs.2 hfixups⟩))
    fun _ t _ => ?_
  refine Leaves.bind (leaves_forM _ _ (fun f hf t => shut_settleFixup cx (hpending f hf) t) t)
    fun _ t _ => ?_
  exact leaves_forM _ _ (fun change _ t =>
    (idle_noteChange cx change.1 change.2 t).imp fun _ h => h.shut) t

/-- The end of a block that begins after `o` leaves alone what is below. -/
theorem closeVocabulary_shut (cx : Context) {v : OpenVocabulary} (hv : s.vocabulary = some v)
    (hi : Inner o s) (hcursor : s.image.cursor < 2 ^ 32) (hs : Inside o s)
    (hfit : (final (closeVocabulary cx) s).image.size < 2 ^ 32) :
    Shut o (final (closeVocabulary cx) s) := by
  obtain ⟨hstart, hfixups⟩ := hi v hv
  obtain ⟨t, ha, hclose⟩ := closeVocabulary_arranges cx hv
  have hfinal : final (closeVocabulary cx) s =
      final (settleBlock cx v (s.blockOrder v) s.image.cursor) t := by
    unfold final
    rw [hclose]
  rw [hfinal] at hfit ⊢
  have hpending : ∀ f ∈ (t.fixups.toList.drop v.fixupStart).map
      (·.relocate v (s.blockOrder v) s.image.cursor),
      ∀ addr width, f.target = .image addr width → o.image.cursor ≤ addr := by
    intro f hf
    obtain ⟨g, hg, rfl⟩ := List.mem_map.mp hf
    have hmem : g ∈ s.fixups.toList.drop o.fixups.size := by
      rw [ha.fixups, show v.fixupStart = o.fixups.size + (v.fixupStart - o.fixups.size) by omega,
        ← List.drop_drop] at hg
      exact List.mem_of_mem_drop hg
    exact relocate_above hcursor hstart (hs.waiting g hmem) _
  have hshut : Keeps (Shut o) t _ := settleBlock_shut cx hfixups hpending
  have hsize := Nat.lt_of_le_of_lt hshut.size hfit
  rw [ha.image] at hsize
  exact hshut.keeps hfit
    ⟨ha.vocabulary, inside_of_eq (inside_patch hs hstart hsize) ha.image ha.fixups⟩

end Closing

/-! ## Walks -/

/-- All that a walk keeps of `o`; if the walk ends blocks, then none that was open in `o`. -/
structure Framed (closes : Prop) (o s : State) : Prop where
  beyond : Beyond o s
  inside : Inside o s
  inner : closes → Inner o s

section Walks

variable {closes : Prop} {n : Node} {here : Nat} {o s t : State}

theorem framed_of_eq (hs : Framed closes o s) (himage : t.image = s.image)
    (hfixups : t.fixups = s.fixups) (htable : t.table = s.table)
    (hvocabulary : t.vocabulary = s.vocabulary) : Framed closes o t :=
  ⟨beyond_of_eq hs.beyond (by rw [himage]) (Nat.le_of_eq (congrArg _ himage.symm)) htable,
    inside_of_eq hs.inside himage hfixups, fun hc v hv => hs.inner hc v (hvocabulary ▸ hv)⟩

theorem Effect.framed (h : Effect here s t) (hhere : o.image.cursor ≤ here) :
    Keeps (Framed closes o) s t :=
  ⟨h.onward.size, fun hfit hs => ⟨h.beyond.keeps hfit hs.beyond,
    h.inside hhere hfit hs.beyond hs.inside, fun hc => h.inner hs.beyond hs.inside (hs.inner hc)⟩⟩

theorem Act.framed (h : Act n here s t) (hn : n.kind ≠ .directive .vocend)
    (hhere : o.image.cursor ≤ here) : Keeps (Framed closes o) s t := by
  refine ⟨h.onward.size, fun hfit hs => ?_⟩
  cases h with
  | effect h => exact (h.framed hhere).keeps hfit hs
  | close hnode _ => exact absurd hnode hn
  | object | globalVar | record | text => exact framed_of_eq hs rfl rfl rfl rfl

/-- The end of a block keeps what is below `o`, if no block of `o` is open. -/
theorem closeVocabulary_framed (cx : Context) (hclose : closes) (s : State) :
    Leaves (Keeps (Framed closes o)) (closeVocabulary cx) s := by
  have hacts : Acts ⟨.directive .vocend, {}⟩ s.image.cursor s (final (closeVocabulary cx) s) :=
    (work_closeVocabulary (.refl cx) rfl s).acts
  have hbeyond : Keeps (Beyond o) s _ := Keeps.chain Act.beyond hacts
  refine ⟨hbeyond.size, fun hfit hs => ?_⟩
  cases hv : s.vocabulary with
  | none =>
    have hskip : closeVocabulary cx s = .error (.skip .vocabularyNotOpen) s := by
      unfold closeVocabulary
      rw [get_bind, hv]
      rfl
    rw [final_of_error hskip]
    exact hs
  | some v =>
    have hcursor := Nat.le_trans hs.beyond.within hbeyond.size
    obtain ⟨hnone, hinside⟩ := closeVocabulary_shut cx hv (hs.inner hclose)
      (Nat.lt_of_le_of_lt hcursor hfit) hs.inside hfit
    exact ⟨hbeyond.keeps hfit hs.beyond, hinside, fun _ w hw => nomatch hnone.symm.trans hw⟩

theorem visit_framed (cx : Context) (index : Nat) (n : Node)
    (hcloses : n.kind = .directive .vocend → closes) (s : State) :
    Leaves (Keeps (Framed closes o)) (visit cx index n) s := by
  refine ⟨(visit_onward cx index n s).size, fun hfit hs => ?_⟩
  have hreach : Framed closes o (s.reach index n) := framed_of_eq hs rfl rfl rfl rfl
  by_cases hn : n.kind = .directive .vocend
  · have hnode : node cx n = closeVocabulary cx := node_directive hn
    have hclosed :
        Keeps (Framed closes o) (s.reach index n) (final (node cx n) (s.reach index n)) :=
      hnode ▸ closeVocabulary_framed cx (hcloses hn) (s.reach index n)
    have hgiveUp : Keeps (Framed closes o) (final (node cx n) (s.reach index n))
        (final (visit cx index n) s) :=
      Keeps.chain (fun h => h.framed (Nat.le_refl _)) (runStep_effects cx (node cx n) _)
    exact (trans_of (Keeps (Framed closes o)) hclosed hgiveUp).keeps hfit hreach
  · exact (Keeps.chain (fun h => h.framed hn hs.beyond.cursor) (visit_acts cx index n s)).keeps hfit
      hreach

theorem visitAll_framed (cx : Context) (index : Nat) (nodes : List Node)
    (hcloses : ∀ n ∈ nodes, n.kind = .directive .vocend → closes) (s : State) :
    Leaves (Keeps (Framed closes o)) (visitAll cx index nodes) s := by
  induction nodes generalizing index s with
  | nil => exact leaves_pure _ s
  | cons n rest ih =>
    refine (visit_framed cx index n (hcloses n List.mem_cons_self) s).bind fun _ t _ => ?_
    exact ih (index + 1) (fun m hm => hcloses m (List.mem_cons_of_mem _ hm)) t

end Walks

end ZAssembler.Assembly
