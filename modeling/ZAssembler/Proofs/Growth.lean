import ZAssembler.Proofs.Effect
import ZAssembler.Proofs.Settled

/-
  What a walk adds is taken back when the routine is walked again. In any pass the records, the
  diagnostics, the collected text and the abbreviations only ever get longer while nodes are read
  (`visitAll_onward`), so cutting them to the lengths of the snapshot gives back what there was when
  the routine was entered: `walkAgain_mark`.
-/

namespace ZAssembler

/-! ## Collected text -/

theorem take_prefix_eq {α : Type} {xs ys : Array α} (h : xs.toList <+: ys.toList) :
    ys.take xs.size = xs := by
  rw [← Array.toList_inj, Array.take_eq_extract, Array.toList_extract]
  simpa using (List.prefix_iff_eq_take.mp h).symm

theorem prefix_push {α : Type} (xs : Array α) (x : α) : xs.toList <+: (xs.push x).toList := by
  rw [Array.toList_push]
  exact List.prefix_append _ _

namespace Abbreviation.Finder

/-- The finder `g` holds what `f` holds, and then more. -/
structure Extends (f g : Finder) : Prop where
  text : f.text.toList <+: g.text.toList
  candidates : f.candidates.toList <+: g.candidates.toList

theorem Extends.refl (f : Finder) : f.Extends f := ⟨List.prefix_rfl, List.prefix_rfl⟩

theorem Extends.trans {f g h : Finder} (hfg : f.Extends g) (hgh : g.Extends h) : f.Extends h :=
  ⟨hfg.text.trans hgh.text, hfg.candidates.trans hgh.candidates⟩

theorem prefix_offer (candidates : Array Candidate) (text : List Char) :
    candidates.toList <+: (offer candidates text).toList := by
  unfold offer
  dsimp only
  split
  · exact List.prefix_rfl
  · split
    · exact List.prefix_rfl
    · exact prefix_push _ _

theorem prefix_offers (offers : List (List Char)) (candidates : Array Candidate) :
    candidates.toList <+: (offers.foldl offer candidates).toList := by
  induction offers generalizing candidates with
  | nil => exact List.prefix_rfl
  | cons text rest ih => exact (prefix_offer candidates text).trans (ih _)

theorem extends_add (f : Finder) (text : String) : f.Extends (f.add text) := by
  unfold add
  split
  · exact .refl f
  · refine ⟨?_, prefix_offers _ _⟩
    rw [Array.toList_append]
    refine List.IsPrefix.trans ?_ (List.prefix_append _ _)
    split
    · exact List.prefix_rfl
    · exact prefix_push _ _

/-- A finder forgets all that came after a checkpoint. -/
theorem rollback_checkpoint {f g : Finder} (h : f.Extends g) : g.rollback f.checkpoint = f := by
  unfold rollback checkpoint
  rw [take_prefix_eq h.text, take_prefix_eq h.candidates]

end Abbreviation.Finder

namespace Assembly

/-! ## What grows -/

/-- What is recorded in `s` is recorded in `t` first, and a routine that is under way is the
    same. -/
structure Grows (s t : State) : Prop where
  debug : s.debug.toList <+: t.debug.toList
  diagnostics : s.diagnostics.toList <+: t.diagnostics.toList
  uncollected : s.text = none → t.text = none
  collected : ∀ f, s.text = some f → ∃ g, t.text = some g ∧ f.Extends g
  abbreviations : s.encoder.abbreviations <+: t.encoder.abbreviations
  alphabet : t.encoder.version = s.encoder.version
  divisor : t.packing.version = s.packing.version
  scope : ∀ a, s.scope = some a → ∃ b, t.scope = some b ∧ b.snapshot = a.snapshot

theorem Grows.trans {s t u : State} (hst : Grows s t) (htu : Grows t u) : Grows s u where
  debug := hst.debug.trans htu.debug
  diagnostics := hst.diagnostics.trans htu.diagnostics
  uncollected h := htu.uncollected (hst.uncollected h)
  collected f hf := by
    obtain ⟨g, hg, hfg⟩ := hst.collected f hf
    obtain ⟨k, hk, hgk⟩ := htu.collected g hg
    exact ⟨k, hk, hfg.trans hgk⟩
  abbreviations := hst.abbreviations.trans htu.abbreviations
  alphabet := htu.alphabet.trans hst.alphabet
  divisor := htu.divisor.trans hst.divisor
  scope a ha := by
    obtain ⟨b, hb, hab⟩ := hst.scope a ha
    obtain ⟨c, hc, hbc⟩ := htu.scope b hb
    exact ⟨c, hc, hbc.trans hab⟩

theorem grows_of_mark {s t : State} (h : t.mark = s.mark)
    (hscope : ∀ a, s.scope = some a → ∃ b, t.scope = some b ∧ b.snapshot = a.snapshot) :
    Grows s t := by
  have hdebug : t.debug = s.debug := congrArg (·.tally.debug) h
  have hdiagnostics : t.diagnostics = s.diagnostics := congrArg (·.diagnostics) h
  have htext : t.text = s.text := congrArg (·.tally.text) h
  have hencoder : t.encoder = s.encoder := congrArg (·.encoder) h
  have hpacking : t.packing = s.packing := congrArg (·.packing) h
  exact ⟨hdebug ▸ List.prefix_rfl, hdiagnostics ▸ List.prefix_rfl, fun hn => htext.trans hn,
    fun f hf => ⟨f, htext.trans hf, .refl f⟩, hencoder ▸ List.prefix_rfl, by rw [hencoder],
    by rw [hpacking], hscope⟩

/-- Reading nodes: what is recorded grows, the image does not shrink, and the log tells of no new
    walk. -/
structure Onward (s t : State) : Prop where
  grows : Grows s t
  size : s.image.size ≤ t.image.size
  told : t.walksTold = s.walksTold

theorem onward_of_mark {s t : State} (h : t.mark = s.mark) (hsize : s.image.size ≤ t.image.size)
    (hscope : t.scope = s.scope) (htold : t.walksTold = s.walksTold) : Onward s t :=
  ⟨grows_of_mark h fun a ha => ⟨a, hscope.trans ha, rfl⟩, hsize, htold⟩

instance : Std.Refl Onward where
  refl _ := onward_of_mark rfl (Nat.le_refl _) rfl rfl

instance : IsTrans State Onward where
  trans _ _ _ hst htu := ⟨hst.grows.trans htu.grows, Nat.le_trans hst.size htu.size,
    htu.told.trans hst.told⟩

theorem register_ok {e e' : ZText.Encoder} {text : String} {number : Nat}
    (h : e.register text = .ok (number, e')) :
    e' = { e with abbreviations := e.abbreviations ++ [text] } := by
  unfold ZText.Encoder.register at h
  split at h
  · cases h
  · split at h
    · cases h
    · cases h
      rfl

theorem version_padding (p : Packing) (kind : PackedKind) (position : Nat) :
    (p.padding kind position).2.version = p.version := by
  unfold Packing.padding
  dsimp only
  split <;> rfl

section Acts

variable {n : Node} {here : Nat} {s t : State}

theorem Effect.onward (h : Effect here s t) : Onward s t := by
  have hsame : ∀ a, s.scope = some a → ∃ b, s.scope = some b ∧ b.snapshot = a.snapshot :=
    fun a ha => ⟨a, ha, rfl⟩
  have hcollected : ∀ f, s.text = some f → ∃ g, s.text = some g ∧ f.Extends g :=
    fun f hf => ⟨f, hf, .refl f⟩
  cases h with
  | quiet h => exact onward_of_mark h.mark (Nat.le_of_eq (congrArg _ h.image.symm)) h.scope h.told
  | report d =>
    refine ⟨⟨List.prefix_rfl, prefix_push _ _, id, hcollected, List.prefix_rfl, rfl, rfl, hsame⟩,
      Nat.le_refl _, rfl⟩
  | store bytes =>
    exact ⟨⟨List.prefix_rfl, List.prefix_rfl, id, hcollected, List.prefix_rfl, rfl, rfl, hsame⟩,
      Image.size_le_store _ _, rfl⟩
  | fixup f _ => exact onward_of_mark rfl (Nat.le_refl _) rfl rfl
  | block v v' _ _ _ => exact onward_of_mark rfl (Nat.le_refl _) rfl rfl
  | openBlock recordSize keySize => exact onward_of_mark rfl (Nat.le_refl _) rfl rfl
  | table table _ => exact onward_of_mark rfl (Nat.le_refl _) rfl rfl
  | scope a b ha hab =>
    refine ⟨grows_of_mark rfl fun c hc => ?_, Nat.le_refl _, rfl⟩
    cases ha.symm.trans hc
    exact ⟨b, rfl, hab.snapshot⟩
  | pack kind =>
    exact ⟨⟨List.prefix_rfl, List.prefix_rfl, id, hcollected, List.prefix_rfl, rfl,
      version_padding _ _ _, hsame⟩, Nat.le_refl _, rfl⟩
  | register text number encoder h =>
    obtain rfl := register_ok h
    exact ⟨⟨List.prefix_rfl, List.prefix_rfl, id, hcollected, List.prefix_append _ _, rfl, rfl,
      hsame⟩, Nat.le_refl _, rfl⟩

theorem Act.onward (h : Act n here s t) : Onward s t := by
  have hsame : ∀ a, s.scope = some a → ∃ b, s.scope = some b ∧ b.snapshot = a.snapshot :=
    fun a ha => ⟨a, ha, rfl⟩
  have hcollected : ∀ f, s.text = some f → ∃ g, s.text = some g ∧ f.Extends g :=
    fun f hf => ⟨f, hf, .refl f⟩
  cases h with
  | effect h => exact h.onward
  | object _ =>
    exact ⟨⟨List.prefix_rfl, List.prefix_rfl, id, hcollected, List.prefix_rfl, rfl, rfl, hsame⟩,
      Nat.le_refl _, rfl⟩
  | globalVar _ =>
    exact ⟨⟨List.prefix_rfl, List.prefix_rfl, id, hcollected, List.prefix_rfl, rfl, rfl, hsame⟩,
      Nat.le_refl _, rfl⟩
  | record r _ =>
    exact ⟨⟨prefix_push _ _, List.prefix_rfl, id, hcollected, List.prefix_rfl, rfl, rfl, hsame⟩,
      Nat.le_refl _, rfl⟩
  | text text _ =>
    refine ⟨⟨List.prefix_rfl, List.prefix_rfl, fun hn => ?_, fun f hf => ?_,
      List.prefix_rfl, rfl, rfl, hsame⟩, Nat.le_refl _, rfl⟩
    · show s.text.map _ = none
      rw [hn]
      rfl
    · refine ⟨f.add text, ?_, f.extends_add text⟩
      show s.text.map _ = _
      rw [hf]
      rfl
  | close _ h => exact onward_of_mark h.mark h.size h.scope h.told

theorem Acts.onward (h : Acts n here s t) : Onward s t := by
  induction h with
  | refl => exact refl_of Onward s
  | tail _ hstep ih => exact trans_of Onward ih hstep.onward

end Acts

/-! ## Reading nodes -/

theorem effects_stopWith {α : Type} {here : Nat} (problem : Problem) (s : State) :
    Leaves (Effects here) (stopWith problem : Pass α) s :=
  Leaves.bind (leaves_effect (.report s _)) fun _ _ _ => .refl

theorem effects_recover {here : Nat} (cx : Context) (problem : Problem) (s : State) :
    Leaves (Effects here) (recover cx problem) s := by
  unfold recover
  refine Leaves.bind (leaves_effect (.report s _)) fun _ t _ => leaves_get ?_
  split
  · exact effects_stopWith _ t
  · exact leaves_pure _ t

/-- How a pass goes on from the end of a step. -/
theorem final_runStep (cx : Context) (step : Step Unit) (s : State) :
    final (runStep cx step) s = match step s with
      | .ok _ t => t
      | .error (.skip problem) t => final (recover cx problem) t
      | .error (.abort problem) t => final (stopWith problem : Pass Unit) t
      | .error (.restart _) t => t := by
  unfold final runStep
  cases h : step s with
  | ok a t => rfl
  | error i t => cases i <;> rfl

/-- As part of a pass a step may also report why it was given up. -/
theorem runStep_effects {here : Nat} (cx : Context) (step : Step Unit) (s : State) :
    Effects here (final step s) (final (runStep cx step) s) := by
  rw [final_runStep]
  unfold final
  cases h : step s with
  | ok a t => exact .refl
  | error i t =>
    cases i with
    | skip problem => exact effects_recover cx problem t
    | abort problem =>
      show Leaves (Effects here) (stopWith problem : Pass Unit) t
      exact effects_stopWith problem t
    | restart v => exact .refl

/-- A visit is the acts of its node. -/
theorem visit_acts (cx : Context) (index : Nat) (n : Node) (s : State) :
    Acts n s.image.cursor (s.reach index n) (final (visit cx index n) s) := by
  have hnode : Acts n s.image.cursor (s.reach index n) (final (node cx n) (s.reach index n)) :=
    node_acts cx (s.reach index n) rfl
  refine hnode.trans (Relation.ReflTransGen.mono (fun _ _ h => .effect h) _ _ ?_)
  exact runStep_effects cx (node cx n) (s.reach index n)

theorem visit_onward (cx : Context) (index : Nat) (n : Node) (s : State) :
    Leaves Onward (visit cx index n) s := by
  have hreach : Onward s (s.reach index n) := onward_of_mark rfl (Nat.le_refl _) rfl rfl
  exact trans_of Onward hreach (visit_acts cx index n s).onward

theorem visitAll_onward (cx : Context) (index : Nat) (nodes : List Node) (s : State) :
    Leaves Onward (visitAll cx index nodes) s := by
  induction nodes generalizing index s with
  | nil => exact leaves_pure _ s
  | cons n rest ih => exact (visit_onward cx index n s).bind fun _ t _ => ih (index + 1) t

/-! ## Walking again -/

theorem rewind_encoder {e e' : ZText.Encoder} (hversion : e'.version = e.version)
    (h : e.abbreviations <+: e'.abbreviations) : e'.truncate e.abbreviations.length = e := by
  unfold ZText.Encoder.truncate
  rw [← List.prefix_iff_eq_take.mp h, hversion]

theorem rollbackText_checkpoint {s t : State} (h : Grows s t) :
    rollbackText t.text (s.text.map (·.checkpoint)) = s.text := by
  cases hs : s.text with
  | none =>
    rw [h.uncollected hs]
    rfl
  | some f =>
    obtain ⟨g, hg, hfg⟩ := h.collected f hs
    rw [hg]
    exact congrArg some (Abbreviation.Finder.rollback_checkpoint hfg)

/-- A routine that is walked again starts from how far the pass had come when it was entered. -/
theorem walkAgain_mark {start : Nat} {r : Routine} {o s : State} {scope next : RoutineScope}
    (h : Grows (o.enter start r) s) (hscope : s.scope = some scope)
    (hnext : scope.nextWalk? = some next) : (s.walkAgain next).mark = o.mark := by
  obtain ⟨b, hb, hsnapshot⟩ := h.scope _ rfl
  cases hscope.symm.trans hb
  have hmark : next.snapshot = o.snapshot := (nextWalk_continues hnext).1.trans hsnapshot
  unfold State.mark State.tally State.walkAgain State.rewind
  rw [hmark]
  congr 1
  · congr 1
    · exact take_prefix_eq h.debug
    · exact rollbackText_checkpoint (s := o.enter start r) h
  · exact take_prefix_eq h.diagnostics
  · exact rewind_encoder h.alphabet h.abbreviations
  · have hversion : s.packing.version = o.packing.version := h.divisor
    show Packing.mk s.packing.version o.packing.bases = o.packing
    rw [hversion]

theorem walkAgain_grows {start : Nat} {r : Routine} {o s : State} {scope next : RoutineScope}
    (h : Grows (o.enter start r) s) (hscope : s.scope = some scope)
    (hnext : scope.nextWalk? = some next) : Grows (o.enter start r) (s.walkAgain next) := by
  refine grows_of_mark (walkAgain_mark h hscope hnext) fun a ha => ⟨next, rfl, ?_⟩
  obtain ⟨b, hb, hsnapshot⟩ := h.scope a ha
  cases hscope.symm.trans hb
  exact (nextWalk_continues hnext).1.trans hsnapshot

end Assembly

end ZAssembler
