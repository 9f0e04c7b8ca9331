import Mathlib.Data.Finmap
import ZAssembler.Proofs.Abbreviating
import ZAssembler.Proofs.Growth

/-
  Collecting text, marking places and going back to them. A `History` is what a caller sees: a store
  of text and the checkpoints at hand. It may go back to any of them at any time, also to one of a
  state that is long gone, or of another store; then the text ends wherever the checkpoint says.

  Two things store text alike (`Finder.asLedger_run`). A `Finder` has its candidates in one list. A
  `Ledger` has a table of savings for the search and the texts in their order for going back, and
  goes back by taking out of the table the texts that it takes off the order.

  After every history the candidates are sound and have different texts (`Finder.Sound.run`). What
  goes back no further than to a checkpoint still extends it, so that going back to it gives what
  there was.
-/

namespace ZAssembler.Abbreviation

/-! ## Histories -/

/-- Something is done with a store of text. -/
inductive Act
  | add (text : String)
  | checkpoint
  | rollback (slot : Nat)
  deriving DecidableEq, Repr

/-- A place before the slot is not gone back to. -/
def Act.NotBefore (first : Nat) : Act → Prop
  | .rollback slot => first ≤ slot
  | .add _ | .checkpoint => True

instance (first : Nat) (act : Act) : Decidable (act.NotBefore first) :=
  match act with
  | .rollback slot => inferInstanceAs (Decidable (first ≤ slot))
  | .add _ | .checkpoint => inferInstanceAs (Decidable True)

/-- What stores text, marks a place and goes back to it. -/
structure Keeper (σ : Type) where
  add : σ → String → σ
  checkpoint : σ → Checkpoint
  rollback : σ → Checkpoint → σ

/-- A store, and the checkpoints at hand, the oldest first. -/
structure History (σ : Type) where
  store : σ
  taken : List Checkpoint
  deriving DecidableEq, Repr

/-- A checkpoint that is not there is not gone back to. -/
def Keeper.act {σ : Type} (k : Keeper σ) (h : History σ) : Act → History σ
  | .add text => { h with store := k.add h.store text }
  | .checkpoint => { h with taken := h.taken ++ [k.checkpoint h.store] }
  | .rollback slot =>
    match h.taken[slot]? with
    | some c => { h with store := k.rollback h.store c }
    | none => h

def Keeper.run {σ : Type} (k : Keeper σ) (h : History σ) (acts : List Act) : History σ :=
  acts.foldl k.act h

def Finder.keeper : Keeper Finder :=
  { add := Finder.add, checkpoint := Finder.checkpoint, rollback := Finder.rollback }

namespace Keeper

variable {σ : Type} {k : Keeper σ}

theorem act_some {h : History σ} {slot : Nat} {c : Checkpoint} (hc : h.taken[slot]? = some c) :
    k.act h (.rollback slot) = { h with store := k.rollback h.store c } := by
  simp only [act, hc]

theorem act_none {h : History σ} {slot : Nat} (hc : h.taken[slot]? = none) :
    k.act h (.rollback slot) = h := by
  simp only [act, hc]

/-- What each act keeps is kept by a history. -/
theorem run_keeps {p : History σ → Prop} {acts : List Act}
    (hstep : ∀ act ∈ acts, ∀ h, p h → p (k.act h act)) {h : History σ} (hp : p h) :
    p (k.run h acts) := by
  induction acts generalizing h with
  | nil => exact hp
  | cons act acts ih =>
    obtain ⟨hact, hacts⟩ := List.forall_mem_cons.mp hstep
    exact ih hacts (hact h hp)

end Keeper

/-! ## Candidates with different texts -/

/-- What holds of a finder after every history. -/
structure Finder.Sound (f : Finder) : Prop where
  candidates : ∀ c ∈ f.candidates, c.Sound
  distinct : (f.candidates.toList.map (·.text)).Nodup

namespace Finder

theorem any_text {candidates : Array Candidate} {name : String} :
    candidates.any (·.text == name) = true ↔ name ∈ candidates.toList.map (·.text) := by
  rw [Array.any_eq_true', List.mem_map]
  simp only [Array.mem_toList_iff, beq_iff_eq]

theorem distinct_offer {candidates : Array Candidate} (h : (candidates.toList.map (·.text)).Nodup)
    (text : List Char) : ((offer candidates text).toList.map (·.text)).Nodup := by
  unfold offer
  dsimp only
  split
  · exact h
  · next hnew =>
    split
    · exact h
    · rw [Array.toList_push, List.map_append, List.map_singleton]
      refine List.nodup_append.mpr ⟨h, List.nodup_singleton _, ?_⟩
      rintro name hname _ hlast rfl
      rw [List.mem_singleton.mp hlast] at hname
      exact hnew (any_text.mpr hname)

theorem distinct_offers (offers : List (List Char)) {candidates : Array Candidate}
    (h : (candidates.toList.map (·.text)).Nodup) :
    ((offers.foldl offer candidates).toList.map (·.text)).Nodup := by
  induction offers generalizing candidates with
  | nil => exact h
  | cons text offers ih => exact ih (distinct_offer h text)

theorem Sound.of_mem {f : Finder} (h : f.Sound) : ∀ c ∈ f.candidates.toList, c.Sound :=
  fun c hc => h.candidates c (Array.mem_toList_iff.mp hc)

theorem Sound.add {f : Finder} (h : f.Sound) (text : String) : (f.add text).Sound := by
  refine ⟨add_sound h.candidates text, ?_⟩
  unfold Finder.add
  split
  · exact h.distinct
  · exact distinct_offers _ h.distinct

theorem toList_rollback (f : Finder) (c : Checkpoint) :
    (f.rollback c).candidates.toList = f.candidates.toList.take c.candidateCount := by
  rw [rollback, Array.take_eq_extract, Array.toList_extract]
  simp

theorem Sound.rollback {f : Finder} (h : f.Sound) (c : Checkpoint) : (f.rollback c).Sound := by
  refine ⟨fun d hd => ?_, ?_⟩
  · rw [← Array.mem_toList_iff, toList_rollback] at hd
    exact h.of_mem d (List.mem_of_mem_take hd)
  · rw [toList_rollback]
    exact h.distinct.sublist ((List.take_sublist _ _).map _)

theorem Sound.act {h : History Finder} (hs : h.store.Sound) (act : Act) :
    (keeper.act h act).store.Sound := by
  cases act with
  | add text => exact hs.add text
  | checkpoint => exact hs
  | rollback slot =>
    cases hc : h.taken[slot]? with
    | none => rwa [Keeper.act_none hc]
    | some c =>
      rw [Keeper.act_some hc]
      exact hs.rollback c

theorem Sound.run {h : History Finder} (hs : h.store.Sound) (acts : List Act) :
    (keeper.run h acts).store.Sound :=
  Keeper.run_keeps (p := fun h : History Finder => h.store.Sound) (fun act _ _ hs => hs.act act) hs

theorem sound_empty : ({} : Finder).Sound := ⟨by simp, by simp⟩

end Finder

/-! ## A table beside the order -/

/-- A store that has its candidates twice: what each saves, and their texts in the order in which
    they came. -/
structure Ledger where
  text : Array UInt8 := #[]
  table : Finmap fun _ : String => Nat := ∅
  order : Array String := #[]

namespace Ledger

def offer (l : Ledger) (text : List Char) : Ledger :=
  let name := String.ofList text
  let cost := ZText.cost text
  if (l.table.lookup name).isSome then l
  else if cost ≤ ZText.referenceCost then l
  else
    { l with
      table := l.table.insert name (cost - ZText.referenceCost)
      order := l.order.push name }

def add (l : Ledger) (text : String) : Ledger :=
  if text.isEmpty then l
  else
    let chars := text.toList.filter (· != '\x00')
    let separated := if l.text.isEmpty then l.text else l.text.push gap
    ((tokens chars).flatMap Token.offers).foldl offer
      { l with text := separated ++ (utf8 chars).toArray }

def checkpoint (l : Ledger) : Checkpoint :=
  { textLength := l.text.size, candidateCount := l.order.size }

/-- The texts that are taken off the order are taken out of the table. -/
def rollback (l : Ledger) (c : Checkpoint) : Ledger :=
  { text := l.text.take c.textLength
    table := (l.order.toList.drop c.candidateCount).foldl
      (fun table name => table.erase name) l.table
    order := l.order.take c.candidateCount }

def keeper : Keeper Ledger := { add, checkpoint, rollback }

end Ledger

/-- What each candidate saves; of two with one text, the first. -/
def savingsTable (candidates : List Candidate) : Finmap fun _ : String => Nat :=
  (candidates.map fun c => (⟨c.text, c.perUse⟩ : Sigma fun _ : String => Nat)).toFinmap

theorem lookup_savingsTable_append (candidates others : List Candidate) (name : String) :
    (savingsTable (candidates ++ others)).lookup name =
      ((savingsTable candidates).lookup name).or ((savingsTable others).lookup name) := by
  simp only [savingsTable, Finmap.dlookup_list_toFinmap, List.map_append, List.dlookup_append]

theorem lookup_savingsTable_eq_none {candidates : List Candidate} {name : String} :
    (savingsTable candidates).lookup name = none ↔ name ∉ candidates.map (·.text) := by
  rw [savingsTable, Finmap.dlookup_list_toFinmap, List.dlookup_eq_none, List.keys, List.map_map]
  rfl

theorem savingsTable_concat {candidates : List Candidate} {c : Candidate}
    (hnew : c.text ∉ candidates.map (·.text)) :
    savingsTable (candidates ++ [c]) = (savingsTable candidates).insert c.text c.perUse := by
  refine Finmap.ext_lookup fun name => ?_
  rw [lookup_savingsTable_append]
  by_cases hname : name = c.text
  · subst hname
    rw [lookup_savingsTable_eq_none.mpr hnew, Finmap.lookup_insert, Option.none_or]
    simp [savingsTable]
  · have hlast : (savingsTable [c]).lookup name = none :=
      lookup_savingsTable_eq_none.mpr (by simpa using hname)
    rw [Finmap.lookup_insert_of_ne _ hname, hlast, Option.or_none]

theorem lookup_foldl_erase (names : List String) (table : Finmap fun _ : String => Nat)
    (name : String) : (names.foldl (fun table name => table.erase name) table).lookup name =
      if name ∈ names then none else table.lookup name := by
  induction names generalizing table with
  | nil => simp
  | cons first names ih =>
    rw [List.foldl_cons, ih]
    by_cases hfirst : name = first
    · subst hfirst
      simp [Finmap.lookup_erase]
    · simp [hfirst, Finmap.lookup_erase_ne hfirst]

/-- Taking the later texts out one by one leaves the table of the earlier ones. -/
theorem savingsTable_take {candidates : List Candidate} (h : (candidates.map (·.text)).Nodup)
    (n : Nat) :
    ((candidates.map (·.text)).drop n).foldl (fun table name => table.erase name)
    (savingsTable candidates) =
      savingsTable (candidates.take n) := by
  refine Finmap.ext_lookup fun name => ?_
  have hsplit := lookup_savingsTable_append (candidates.take n) (candidates.drop n) name
  rw [List.take_append_drop] at hsplit
  rw [lookup_foldl_erase, hsplit]
  split
  · next hlater =>
    symm
    rw [lookup_savingsTable_eq_none, List.map_take]
    intro hearlier
    rw [← List.take_append_drop n (candidates.map (·.text)), List.nodup_append] at h
    exact h.2.2 name hearlier name hlater rfl
  · next hlater =>
    rw [← List.map_drop] at hlater
    rw [lookup_savingsTable_eq_none.mpr hlater, Option.or_none]

/-- The finder as a ledger. -/
def Finder.ledger (f : Finder) : Ledger :=
  { text := f.text, table := savingsTable f.candidates.toList, order := f.candidates.map (·.text) }

namespace Finder

theorem ledger_offer (text : Array UInt8) (candidates : Array Candidate) (offered : List Char) :
    ledger { text, candidates := offer candidates offered } =
      (ledger { text, candidates }).offer offered := by
  have hknown : (candidates.any (·.text == String.ofList offered)) =
      ((ledger { text, candidates }).table.lookup (String.ofList offered)).isSome := by
    rw [Bool.eq_iff_iff, any_text, Option.isSome_iff_ne_none, ne_eq, ledger,
      lookup_savingsTable_eq_none, not_not]
  unfold offer Ledger.offer
  dsimp only
  rw [← hknown]
  split
  · rfl
  · next hnew =>
    split
    · rfl
    · rw [ledger, ledger, Array.toList_push, savingsTable_concat, Array.map_push]
      exact fun hknown => hnew (any_text.mpr hknown)

theorem ledger_offers (offers : List (List Char)) (text : Array UInt8)
    (candidates : Array Candidate) : ledger { text, candidates := offers.foldl offer candidates } =
      offers.foldl Ledger.offer (ledger { text, candidates }) := by
  induction offers generalizing candidates with
  | nil => rfl
  | cons offered offers ih =>
    rw [List.foldl_cons, List.foldl_cons, ih, ledger_offer]

theorem ledger_add (f : Finder) (text : String) : (f.add text).ledger = f.ledger.add text := by
  unfold Finder.add Ledger.add
  split
  · rfl
  · exact ledger_offers _ _ _

theorem ledger_rollback {f : Finder} (h : f.Sound) (c : Checkpoint) :
    (f.rollback c).ledger = f.ledger.rollback c := by
  unfold Ledger.rollback
  rw [ledger, toList_rollback, ← savingsTable_take h.distinct]
  simp [ledger, rollback]

theorem ledger_checkpoint (f : Finder) : f.ledger.checkpoint = f.checkpoint := by
  simp [Ledger.checkpoint, checkpoint, ledger]

/-- A history with the finder as a ledger. -/
def asLedger (h : History Finder) : History Ledger := { store := h.store.ledger, taken := h.taken }

theorem asLedger_act {h : History Finder} (hs : h.store.Sound) (act : Act) :
    asLedger (keeper.act h act) = Ledger.keeper.act (asLedger h) act := by
  cases act with
  | add text => exact congrArg (History.mk · h.taken) (h.store.ledger_add text)
  | checkpoint =>
    exact congrArg (fun c => History.mk h.store.ledger (h.taken ++ [c]))
      h.store.ledger_checkpoint.symm
  | rollback slot =>
    cases hc : h.taken[slot]? with
    | none =>
      have hnone : (asLedger h).taken[slot]? = none := hc
      rw [Keeper.act_none hc, Keeper.act_none hnone]
    | some c =>
      have hsome : (asLedger h).taken[slot]? = some c := hc
      rw [Keeper.act_some hc, Keeper.act_some hsome]
      exact congrArg (History.mk · h.taken) (ledger_rollback hs c)

theorem asLedger_empty (taken : List Checkpoint) :
    asLedger { store := {}, taken } = { store := {}, taken } := by
  simp [asLedger, ledger, savingsTable]

/-- A ledger goes through a history as a finder does. -/
theorem asLedger_run {h : History Finder} (hs : h.store.Sound) (acts : List Act) :
    asLedger (keeper.run h acts) = Ledger.keeper.run (asLedger h) acts := by
  induction acts generalizing h with
  | nil => rfl
  | cons act acts ih =>
    have hrest := ih (hs.act act)
    rw [asLedger_act hs] at hrest
    exact hrest

/-! ## Going back -/

/-- A history that goes on from `f`: it has what `f` has, and its checkpoints from the slot `first`
    on are of no less. -/
structure Beyond (f : Finder) (first : Nat) (h : History Finder) : Prop where
  more : f.Extends h.store
  later : ∀ c ∈ h.taken.drop first, f.text.size ≤ c.textLength ∧
    f.candidates.size ≤ c.candidateCount

theorem Extends.sizes {f g : Finder} (h : f.Extends g) :
    f.text.size ≤ g.text.size ∧ f.candidates.size ≤ g.candidates.size :=
  ⟨h.text.length_le, h.candidates.length_le⟩

theorem prefix_take {α : Type} {xs ys : Array α} (h : xs.toList <+: ys.toList) {n : Nat}
    (hn : xs.size ≤ n) : xs.toList <+: (ys.take n).toList := by
  rw [Array.take_eq_extract, Array.toList_extract]
  simpa using List.prefix_take_iff.mpr ⟨h, hn⟩

theorem Extends.rollback {f g : Finder} (h : f.Extends g) {c : Checkpoint}
    (htext : f.text.size ≤ c.textLength) (hcandidates : f.candidates.size ≤ c.candidateCount) :
    f.Extends (g.rollback c) :=
  ⟨prefix_take h.text htext, prefix_take h.candidates hcandidates⟩

theorem Beyond.act {f : Finder} {first : Nat} {h : History Finder}
    (hb : Beyond f first h) {act : Act} (hact : act.NotBefore first) :
    Beyond f first (keeper.act h act) := by
  cases act with
  | add text => exact ⟨hb.more.trans (h.store.extends_add text), hb.later⟩
  | checkpoint =>
    refine ⟨hb.more, fun c hc => ?_⟩
    rcases List.mem_append.mp (List.drop_append ▸ hc) with hold | hnew
    · exact hb.later c hold
    · obtain rfl := List.mem_singleton.mp (List.mem_of_mem_drop hnew)
      exact hb.more.sizes
  | rollback slot =>
    cases hc : h.taken[slot]? with
    | none => rwa [Keeper.act_none hc]
    | some c =>
      have hlater : (h.taken.drop first)[slot - first]? = some c := by
        rw [List.getElem?_drop, Nat.add_sub_cancel' hact, hc]
      obtain ⟨htext, hcandidates⟩ := hb.later c (List.mem_of_getElem? hlater)
      rw [Keeper.act_some hc]
      exact ⟨hb.more.rollback htext hcandidates, hb.later⟩

theorem Beyond.run {f : Finder} {first : Nat} {h : History Finder} (hb : Beyond f first h)
    {acts : List Act} (hacts : ∀ act ∈ acts, act.NotBefore first) :
    Beyond f first (keeper.run h acts) :=
  Keeper.run_keeps (fun act hact _ hh => hh.act (hacts act hact)) hb

/-- What is there when a checkpoint is taken is there when it is gone back to. -/
theorem rollback_run (h : History Finder) {acts : List Act}
    (hacts : ∀ act ∈ acts, act.NotBefore h.taken.length) :
    (keeper.run h acts).store.rollback h.store.checkpoint = h.store := by
  have hstart : Beyond h.store h.taken.length h := by
    refine ⟨.refl h.store, fun c hc => ?_⟩
    rw [List.drop_length] at hc
    cases hc
  exact rollback_checkpoint (hstart.run hacts).more

end Finder

/-- After every history, and every further one that does not go back behind a checkpoint, going back
    to it gives the same store: text, candidates, what they save and their order. -/
theorem rollback_restores (taken : List Checkpoint) (before after : List Act)
    (hafter : ∀ act ∈ after,
      act.NotBefore (Finder.keeper.run { store := {}, taken } before).taken.length) :
    let s := Finder.keeper.run { store := {}, taken } before
    let t := Finder.keeper.run s (.checkpoint :: after)
    let l := Ledger.keeper.run { store := {}, taken } before
    let m := Ledger.keeper.run l (.checkpoint :: after)
    t.store.rollback s.store.checkpoint = s.store ∧
      (∀ max, (t.store.rollback s.store.checkpoint).results max = s.store.results max) ∧
      l.store = s.store.ledger ∧ m.store.rollback l.store.checkpoint = l.store := by
  intro s t l m
  have hempty : (⟨{}, taken⟩ : History Finder).store.Sound := Finder.sound_empty
  have hsound : s.store.Sound := hempty.run before
  have hlater : t.store.Sound := hsound.run _
  have hback : t.store.rollback s.store.checkpoint = s.store :=
    Finder.rollback_run s (List.forall_mem_cons.mpr ⟨trivial, hafter⟩)
  have hl : l = Finder.asLedger s := by
    rw [Finder.asLedger_run hempty, Finder.asLedger_empty]
  have hm : m = Finder.asLedger t := by
    rw [Finder.asLedger_run hsound, ← hl]
  refine ⟨hback, fun max => by rw [hback], by rw [hl, Finder.asLedger], ?_⟩
  calc m.store.rollback l.store.checkpoint
      = t.store.ledger.rollback s.store.checkpoint := by
        rw [hm, hl, Finder.asLedger, Finder.asLedger, Finder.ledger_checkpoint]
    _ = (t.store.rollback s.store.checkpoint).ledger := (Finder.ledger_rollback hlater _).symm
    _ = l.store := by rw [hback, hl, Finder.asLedger]

/-- A history that goes back and leaves another text in place of what it took. -/
def lampActs : List Act :=
  [.add "brass lamp", .checkpoint, .add "old brass", .rollback 0, .add "old sword"]

/-- Texts that come again, a text of nothing but a zero, and going back once. -/
def swordActs : List Act :=
  [.add "lamp sword", .checkpoint, .add "silver lamp", .rollback 2, .add "\x00"]

theorem lamps_restored :
    (∀ act ∈ swordActs,
      act.NotBefore (Finder.keeper.run { store := {}, taken := [] } lampActs).taken.length) ∧
    (Finder.keeper.run { store := {}, taken := [] } lampActs).store.candidates.toList.map (·.text) =
      ["brass", "brass ", "lamp", " lamp", "old", "old ", "sword", " sword"] ∧
    (Finder.keeper.run { store := {}, taken := [] }
      (lampActs ++ .checkpoint :: swordActs)).store.candidates.toList.map (·.text) =
      ["brass", "brass ", "lamp", " lamp", "old", "old ", "sword", " sword", "lamp "] ∧
    (Finder.keeper.run (Finder.keeper.run { store := {}, taken := [] } lampActs)
        (.checkpoint :: swordActs)).store.rollback
        (Finder.keeper.run { store := {}, taken := [] } lampActs).store.checkpoint =
      (Finder.keeper.run { store := {}, taken := [] } lampActs).store := by
  have hacts : ∀ act ∈ swordActs,
      act.NotBefore (Finder.keeper.run { store := {}, taken := [] } lampActs).taken.length := by
    decide +kernel
  exact ⟨hacts, by decide +kernel, by decide +kernel,
    (rollback_restores [] lampActs swordActs hacts).1⟩

end ZAssembler.Abbreviation
