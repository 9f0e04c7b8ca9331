import Mathlib.Data.List.MinMax
import Mathlib.Data.Prod.Lex
import Mathlib.Data.String.Basic
import ZAssembler.Proofs.Collecting
import ZAssembler.Proofs.Occurrences

/-
  The choice of abbreviations, round by round. `Rounds` says what every search has in common: while
  there is room, the candidate that leads is chosen and erased, and the search goes on with others
  that are left, all that still pay among them; it ends when none leads.

  Nothing that a round erases makes another candidate pay more (`savings_erase_le`). So savings
  never rise from one choice to the next (`Rounds.savings_fall`), and since a candidate that does
  not pay never will, it makes no difference whether it is dropped: two searches that begin with the
  same paying candidates make the same choices (`Rounds.unique`).

  Three searches go in rounds: that of `Finder.results`; `greedy`, which drops nothing; and
  `Selection.drain`, which counts in chunks with several workers at once, keeps the candidates in
  any order and puts the last of them in the place of the chosen one.
-/

namespace ZAssembler.Abbreviation

/-! ## The order of choice -/

/-- What a choice goes by: the savings, the bytes, and the text from the last one to the first. -/
def Rank : Type := Int ×ₗ Nat ×ₗ Stringᵒᵈ

-- The orders of the parts are named, so that ranks are compared by the computable ones.
instance Rank.instLinearOrder : LinearOrder Rank :=
  @Prod.Lex.instLinearOrder Int (Nat ×ₗ Stringᵒᵈ) Int.instLinearOrder
    (@Prod.Lex.instLinearOrder Nat Stringᵒᵈ Nat.instLinearOrder inferInstance)

/-- More saved is greater, then more bytes, then the lesser text. -/
def Scored.rank (s : Scored) : Rank :=
  toLex (s.savings, toLex (s.candidate.text.utf8ByteSize, OrderDual.toDual s.candidate.text))

theorem Scored.rank_lt_iff {a b : Scored} : a.rank < b.rank ↔ a.savings < b.savings ∨
    a.savings = b.savings ∧ (a.candidate.text.utf8ByteSize < b.candidate.text.utf8ByteSize ∨
      a.candidate.text.utf8ByteSize = b.candidate.text.utf8ByteSize ∧
      b.candidate.text < a.candidate.text) := by
  refine Iff.trans Prod.Lex.toLex_lt_toLex ?_
  rw [Prod.Lex.toLex_lt_toLex]
  rfl

theorem Scored.better_iff (a b : Scored) : a.better b = true ↔ b.rank < a.rank := by
  rw [rank_lt_iff]
  unfold better
  split
  · next hne => simp [Ne.symm hne]
  · next heq =>
    rw [not_not] at heq
    split
    · next hne => simp [heq, Ne.symm hne]
    · next hsame =>
      rw [not_not] at hsame
      simp [heq, hsame]

theorem Scored.savings_le {a b : Scored} (h : a.rank ≤ b.rank) : a.savings ≤ b.savings := by
  by_contra hlt
  exact absurd (rank_lt_iff.mpr (.inl (not_le.mp hlt))) (not_lt.mpr h)

theorem Scored.text_eq {a b : Scored} (h : a.rank = b.rank) :
    a.candidate.text = b.candidate.text := by
  have hsecond := congrArg (fun r : Rank => (ofLex (ofLex r).2).2) h
  exact OrderDual.toDual.injective hsecond

theorem best_eq_argmax (scores : List Scored) : best scores = scores.argmax Scored.rank := by
  induction scores with
  | nil => rfl
  | cons s rest ih =>
    rw [best, ih, List.argmax_cons]
    cases rest.argmax Scored.rank with
    | none => rfl
    | some t =>
      by_cases hlt : s.rank < t.rank
      · simp [(t.better_iff s).mpr hlt, hlt]
      · simp [mt (t.better_iff s).mp hlt, hlt]

/-! ## What a candidate is worth -/

theorem savings_mono {m n : Nat} (h : m ≤ n) (perUse : Nat) :
    savings m perUse ≤ savings n perUse := by
  unfold savings
  refine Int.sub_le_sub_right (Int.mul_le_mul_of_nonneg_right ?_ (Int.natCast_nonneg _)) _
  omega

namespace Candidate.Sound

variable {c : Candidate} (h : c.Sound)
include h

theorem utf8_ne_nil : utf8 c.text.toList ≠ [] := fun hnil => h.ne_nil (utf8_eq_nil hnil)

theorem gap_notMem : gap ∉ utf8 c.text.toList := gap_notMem_utf8 h.noZero

/-- Where another text is erased a candidate saves no more than before. -/
theorem savings_erase_le (hay other : List UInt8) :
    (score (erase hay other) c).savings ≤ (score hay c).savings :=
  savings_mono (count_le_of_fades h.utf8_ne_nil (fades_erase h.gap_notMem hay other)) _

end Candidate.Sound

/-! ## Rounds -/

def Scored.choice (s : Scored) : Choice :=
  { savings := s.savings, count := s.count, text := s.candidate.text }

/-- The candidate saves something and comes before all others. -/
structure Leads (hay : List UInt8) (candidates : List Candidate) (c : Candidate) : Prop where
  mem : c ∈ candidates
  pays : 0 < (score hay c).savings
  ahead : ∀ d ∈ candidates, (score hay d).rank ≤ (score hay c).rank

/-- What may be left when `c` is chosen: others of the candidates, all that pay among them. -/
structure Remain (hay : List UInt8) (candidates : List Candidate) (c : Candidate)
    (others : List Candidate) : Prop where
  among : ∀ d ∈ others, d ∈ candidates ∧ d.text ≠ c.text
  kept : ∀ d ∈ candidates, d.text ≠ c.text → 0 < (score hay d).savings → d ∈ others

/-- Choices that are made round by round, at most `max` of them. -/
inductive Rounds : Nat → List UInt8 → List Candidate → List Choice → Prop
  | full {hay : List UInt8} {candidates : List Candidate} : Rounds 0 hay candidates []
  | idle {max : Nat} {hay : List UInt8} {candidates : List Candidate} :
    (∀ c, ¬ Leads hay candidates c) → Rounds max hay candidates []
  | round {max : Nat} {hay : List UInt8} {candidates others : List Candidate} {c : Candidate}
      {choices : List Choice} :
    Leads hay candidates c → Remain hay candidates c others →
    Rounds max (erase hay (utf8 c.text.toList)) others choices →
    Rounds (max + 1) hay candidates ((score hay c).choice :: choices)

theorem Remain.sound {hay : List UInt8} {candidates others : List Candidate} {c : Candidate}
    (h : Remain hay candidates c others) (hsound : ∀ d ∈ candidates, d.Sound) :
    ∀ d ∈ others, d.Sound :=
  fun d hd => hsound d (h.among d hd).1

/-! ## What rounds have in common -/

namespace Rounds

variable {max : Nat} {hay : List UInt8} {candidates : List Candidate} {choices : List Choice}

theorem length_le (h : Rounds max hay candidates choices) : choices.length ≤ max := by
  induction h with
  | full => exact Nat.le_refl 0
  | idle _ => exact Nat.zero_le _
  | round _ _ _ ih => exact Nat.succ_le_succ ih

theorem savings_pos (h : Rounds max hay candidates choices) :
    ∀ choice ∈ choices, 0 < choice.savings := by
  induction h with
  | full | idle _ => exact fun choice hc => by cases hc
  | round hleads _ _ ih => exact List.forall_mem_cons.mpr ⟨hleads.pays, ih⟩

/-- A choice is a candidate, and saves no more than the candidate would have saved at first. -/
theorem exists_candidate (h : Rounds max hay candidates choices)
    (hsound : ∀ c ∈ candidates, c.Sound) :
    ∀ choice ∈ choices, ∃ c ∈ candidates, choice.text = c.text ∧
    choice.savings ≤ (score hay c).savings := by
  induction h with
  | full | idle _ => exact fun choice hc => by cases hc
  | @round max hay candidates others c choices hleads hremain _ ih =>
    refine List.forall_mem_cons.mpr ⟨⟨c, hleads.mem, rfl, Int.le_refl _⟩, fun choice hchoice => ?_⟩
    obtain ⟨d, hd, htext, hsavings⟩ := ih (hremain.sound hsound) choice hchoice
    obtain ⟨hmem, -⟩ := hremain.among d hd
    exact ⟨d, hmem, htext, Int.le_trans hsavings ((hsound d hmem).savings_erase_le _ _)⟩

/-- Savings never rise. -/
theorem savings_fall (h : Rounds max hay candidates choices) (hsound : ∀ c ∈ candidates, c.Sound) :
    choices.Pairwise fun earlier later => later.savings ≤ earlier.savings := by
  induction h with
  | full | idle _ => exact .nil
  | @round max hay candidates others c choices hleads hremain hrest ih =>
    refine .cons (fun choice hchoice => ?_) (ih (hremain.sound hsound))
    obtain ⟨d, hd, -, hsavings⟩ := hrest.exists_candidate (hremain.sound hsound) choice hchoice
    obtain ⟨hmem, -⟩ := hremain.among d hd
    calc choice.savings
        ≤ (score (erase hay (utf8 c.text.toList)) d).savings := hsavings
      _ ≤ (score hay d).savings := (hsound d hmem).savings_erase_le _ _
      _ ≤ (score hay c).savings := Scored.savings_le (hleads.ahead d hmem)

/-- No text is chosen twice. -/
theorem nodup_texts (h : Rounds max hay candidates choices) (hsound : ∀ c ∈ candidates, c.Sound) :
    (choices.map (·.text)).Nodup := by
  induction h with
  | full | idle _ => exact List.nodup_nil
  | @round max hay candidates others c choices hleads hremain hrest ih =>
    rw [List.map_cons, List.nodup_cons]
    refine ⟨fun hagain => ?_, ih (hremain.sound hsound)⟩
    obtain ⟨choice, hchoice, htext⟩ := List.mem_map.mp hagain
    obtain ⟨d, hd, hsame, -⟩ := hrest.exists_candidate (hremain.sound hsound) choice hchoice
    exact (hremain.among d hd).2 (hsame.symm.trans htext)

end Rounds

/-- What is left of the text when the choices have been erased one after the other. -/
def leftover (hay : List UInt8) (choices : List Choice) : List UInt8 :=
  choices.foldl (fun hay choice => erase hay (utf8 choice.text.toList)) hay

/-- A choice is counted in what those before it leave, and is not found in what it leaves. -/
theorem Rounds.counted_and_gone {max : Nat} {hay : List UInt8} {candidates : List Candidate}
    {choices before after : List Choice} {choice : Choice} (h : Rounds max hay candidates choices)
    (hsound : ∀ c ∈ candidates, c.Sound) (hsplit : choices = before ++ choice :: after) :
    choice.count = countOccurrences (leftover hay before) (utf8 choice.text.toList) ∧
      ¬ utf8 choice.text.toList <:+: leftover hay (before ++ [choice]) := by
  induction h generalizing before with
  | full | idle _ => simp at hsplit
  | @round max hay candidates others c choices hleads hremain hrest ih =>
    cases before with
    | nil =>
      obtain ⟨rfl, -⟩ := List.cons.inj hsplit
      have hc := hsound c hleads.mem
      exact ⟨rfl, not_infix_erase hc.utf8_ne_nil hc.gap_notMem hay⟩
    | cons first before =>
      obtain ⟨rfl, hchoices⟩ := List.cons.inj hsplit
      exact ih (hremain.sound hsound) hchoices

/-- The candidates that pay are the same. -/
def SamePaying (hay : List UInt8) (candidates others : List Candidate) : Prop :=
  ∀ c, 0 < (score hay c).savings → (c ∈ candidates ↔ c ∈ others)

theorem Leads.of_samePaying {hay : List UInt8} {candidates others : List Candidate} {c : Candidate}
    (h : Leads hay candidates c) (hsame : SamePaying hay candidates others) :
    Leads hay others c := by
  refine ⟨(hsame c h.pays).mp h.mem, h.pays, fun d hd => ?_⟩
  by_cases hpays : 0 < (score hay d).savings
  · exact h.ahead d ((hsame d hpays).mpr hd)
  · exact le_of_lt (Scored.rank_lt_iff.mpr (.inl (Int.lt_of_le_of_lt (Int.not_lt.mp hpays) h.pays)))

/-- Of candidates with different texts one leads. -/
theorem Leads.unique {hay : List UInt8} {candidates : List Candidate} {c d : Candidate}
    (hdistinct : ∀ c ∈ candidates, ∀ d ∈ candidates, c.text = d.text → c = d)
    (hc : Leads hay candidates c) (hd : Leads hay candidates d) : c = d := by
  have hrank := le_antisymm (hd.ahead c hc.mem) (hc.ahead d hd.mem)
  exact hdistinct c hc.mem d hd.mem (Scored.text_eq hrank)

theorem SamePaying.symm {hay : List UInt8} {candidates others : List Candidate}
    (h : SamePaying hay candidates others) : SamePaying hay others candidates :=
  fun c hc => (h c hc).symm

/-- When one candidate is chosen in both, the same candidates pay of those that remain. -/
theorem SamePaying.remain {hay : List UInt8} {left right left' right' : List Candidate}
    {c : Candidate} (hsame : SamePaying hay left right) (hleft : Remain hay left c left')
    (hright : Remain hay right c right') (hsound : ∀ d ∈ left, d.Sound)
    (hsound' : ∀ d ∈ right, d.Sound) :
    SamePaying (erase hay (utf8 c.text.toList)) left' right' := by
  intro d hpays
  have hpaid : d.Sound → 0 < (score hay d).savings := fun hd =>
    Int.lt_of_lt_of_le hpays (hd.savings_erase_le _ _)
  constructor
  · intro hd
    obtain ⟨hmem, htext⟩ := hleft.among d hd
    have hbefore := hpaid (hsound d hmem)
    exact hright.kept d ((hsame d hbefore).mp hmem) htext hbefore
  · intro hd
    obtain ⟨hmem, htext⟩ := hright.among d hd
    have hbefore := hpaid (hsound' d hmem)
    exact hleft.kept d ((hsame d hbefore).mpr hmem) htext hbefore

/-- Rounds that begin with the same paying candidates make the same choices. -/
theorem Rounds.unique {max : Nat} {hay : List UInt8} {left right : List Candidate}
    {choices choices' : List Choice} (h : Rounds max hay left choices)
    (h' : Rounds max hay right choices') (hsame : SamePaying hay left right)
    (hdistinct : ∀ c ∈ left, ∀ d ∈ left, c.text = d.text → c = d) (hsound : ∀ c ∈ left, c.Sound)
    (hsound' : ∀ c ∈ right, c.Sound) : choices = choices' := by
  -- The candidates that pay stay the same on both sides, though the others may not.
  induction h generalizing right choices' with
  | full =>
    cases h' with
    | full | idle _ => rfl
  | idle hnone =>
    cases h' with
    | full | idle _ => rfl
    | round hleads _ _ => exact absurd (hleads.of_samePaying hsame.symm) (hnone _)
  | round hleads hremain _ ih =>
    cases h' with
    | idle hnone => exact absurd (hleads.of_samePaying hsame) (hnone _)
    | round hleads' hremain' hrest' =>
      obtain rfl := hleads.unique hdistinct (hleads'.of_samePaying hsame.symm)
      refine congrArg _ (ih hrest' (hsame.remain hremain hremain' hsound hsound') ?_
        (hremain.sound hsound) (hremain'.sound hsound'))
      exact fun c hc d hd => hdistinct c (hremain.among c hc).1 d (hremain.among d hd).1

/-! ## The search of a finder -/

/-- The candidates that save something. -/
def paying (hay : List UInt8) (candidates : List Candidate) : List Candidate :=
  candidates.filter fun c => 0 < (score hay c).savings

theorem mem_paying {hay : List UInt8} {candidates : List Candidate} {c : Candidate} :
    c ∈ paying hay candidates ↔ c ∈ candidates ∧ 0 < (score hay c).savings := by
  rw [paying, List.mem_filter, decide_eq_true_eq]

theorem filter_score (hay : List UInt8) (candidates : List Candidate) :
    (candidates.map (score hay)).filter (0 < ·.savings) = (paying hay candidates).map (score hay) :=
  List.filter_map

theorem samePaying_paying (hay : List UInt8) (candidates : List Candidate) :
    SamePaying hay (paying hay candidates) candidates :=
  fun _ hpays => mem_paying.trans (and_iff_left hpays)

/-- What is not behind any other is the score of a candidate. -/
theorem exists_of_argmax {hay : List UInt8} {candidates : List Candidate} {s : Scored}
    (h : (candidates.map (score hay)).argmax Scored.rank = some s) :
    ∃ c ∈ candidates, s = score hay c ∧ ∀ d ∈ candidates, (score hay d).rank ≤
    (score hay c).rank := by
  obtain ⟨c, hc, rfl⟩ := List.mem_map.mp (List.argmax_mem h)
  exact ⟨c, hc, rfl, fun d hd => List.le_of_mem_argmax (List.mem_map_of_mem hd) h⟩

theorem Leads.of_argmax {hay : List UInt8} {candidates : List Candidate} {s : Scored}
    (h : ((paying hay candidates).map (score hay)).argmax Scored.rank = some s) :
    ∃ c, s = score hay c ∧ Leads hay candidates c := by
  obtain ⟨c, hc, rfl, hahead⟩ := exists_of_argmax h
  exact ⟨c, rfl, Leads.of_samePaying ⟨hc, (mem_paying.mp hc).2, hahead⟩
    (samePaying_paying hay candidates)⟩

theorem not_leads_of_argmax {hay : List UInt8} {candidates : List Candidate}
    (h : ((paying hay candidates).map (score hay)).argmax Scored.rank = none) (c : Candidate) :
    ¬ Leads hay candidates c := by
  intro hc
  have hpaying := mem_paying.mpr ⟨hc.mem, hc.pays⟩
  rw [List.argmax_eq_none, List.map_eq_nil_iff] at h
  rw [h] at hpaying
  cases hpaying

theorem rounds_selectFrom (max : Nat) (hay : List UInt8) (candidates : List Candidate) :
    Rounds max hay candidates (selectFrom max hay candidates) := by
  induction max generalizing hay candidates with
  | zero => exact .full
  | succ max ih =>
    rw [selectFrom, filter_score]
    dsimp only
    rw [best_eq_argmax]
    cases hbest : ((paying hay candidates).map (score hay)).argmax Scored.rank with
    | none => exact .idle (not_leads_of_argmax hbest)
    | some s =>
      obtain ⟨c, rfl, hleads⟩ := Leads.of_argmax hbest
      refine .round hleads ⟨fun d hd => ?_, fun d hd htext hpays => ?_⟩ (ih _ _)
      · simp only [List.mem_map, List.mem_filter] at hd
        obtain ⟨_, ⟨⟨e, he, rfl⟩, htext⟩, rfl⟩ := hd
        exact ⟨(mem_paying.mp he).1, bne_iff_ne.mp htext⟩
      · simp only [List.mem_map, List.mem_filter]
        exact ⟨_, ⟨⟨d, mem_paying.mpr ⟨hd, hpays⟩, rfl⟩, bne_iff_ne.mpr htext⟩, rfl⟩

/-- After every history: results are no more than asked for, each saves something, savings never
    rise, a result is counted in what those before it leave and does not stand in what it leaves,
    and no text comes twice. -/
theorem results_never_rise (taken : List Checkpoint) (acts : List Act) (max : Nat) :
    let f := (Finder.keeper.run { store := {}, taken } acts).store
    (f.results max).length ≤ max ∧
      (∀ choice ∈ f.results max, 0 < choice.savings) ∧
      ((f.results max).Pairwise fun earlier later => later.savings ≤ earlier.savings) ∧
      (∀ before choice after, f.results max = before ++ choice :: after →
        choice.count = countOccurrences (leftover f.text.toList before) (utf8 choice.text.toList) ∧
          ¬ utf8 choice.text.toList <:+: leftover f.text.toList (before ++ [choice])) ∧
      ((f.results max).map (·.text)).Nodup := by
  intro f
  have hsound : f.Sound := Finder.Sound.run Finder.sound_empty acts
  have hrounds : Rounds max f.text.toList f.candidates.toList (f.results max) :=
    rounds_selectFrom _ _ _
  exact ⟨hrounds.length_le, hrounds.savings_pos, hrounds.savings_fall hsound.of_mem,
    fun before choice after hsplit => hrounds.counted_and_gone hsound.of_mem hsplit,
    hrounds.nodup_texts hsound.of_mem⟩

/-- A history that goes back to a checkpoint of another text. -/
def silverActs : List Act :=
  [.add "old lamps", .checkpoint, .rollback 0, .add "silver lamp, silver sword", .rollback 1,
    .add "lamp lamp silver lamp", .add "sword, sword"]

theorem silver_never_rises :
    (Finder.keeper.run { store := {}, taken := [⟨0, 0⟩] } silverActs).store.results 5 =
      [⟨3, 2, "silver "⟩, ⟨2, 3, "lamp"⟩, ⟨1, 2, "sword"⟩] ∧
    ¬ utf8 "lamp".toList <:+:
      leftover (Finder.keeper.run { store := {}, taken := [⟨0, 0⟩] } silverActs).store.text.toList
        [⟨3, 2, "silver "⟩, ⟨2, 3, "lamp"⟩] := by
  have hresults :
      (Finder.keeper.run { store := {}, taken := [⟨0, 0⟩] } silverActs).store.results 5 =
      [⟨3, 2, "silver "⟩, ⟨2, 3, "lamp"⟩, ⟨1, 2, "sword"⟩] := by
    decide +kernel
  obtain ⟨-, -, -, hgone, -⟩ := results_never_rise [⟨0, 0⟩] silverActs 5
  exact ⟨hresults, (hgone [⟨3, 2, "silver "⟩] ⟨2, 3, "lamp"⟩ [⟨1, 2, "sword"⟩] hresults).2⟩

/-! ## The search that drops nothing -/

/-- In every round all candidates that have not been chosen are counted in the text that is left. -/
def greedy : Nat → List UInt8 → List Candidate → List Choice
  | 0, _, _ => []
  | max + 1, hay, candidates =>
    match (candidates.map (score hay)).argmax Scored.rank with
    | none => []
    | some s =>
      if s.savings ≤ 0 then []
      else s.choice :: greedy max (erase hay (utf8 s.candidate.text.toList))
        (candidates.filter (· ≠ s.candidate))

theorem rounds_greedy (max : Nat) (hay : List UInt8) {candidates : List Candidate}
    (hdistinct : ∀ c ∈ candidates, ∀ d ∈ candidates, c.text = d.text → c = d) :
    Rounds max hay candidates (greedy max hay candidates) := by
  induction max generalizing hay candidates with
  | zero => exact .full
  | succ max ih =>
    rw [greedy]
    cases hbest : (candidates.map (score hay)).argmax Scored.rank with
    | none =>
      rw [List.argmax_eq_none, List.map_eq_nil_iff] at hbest
      subst hbest
      exact .idle fun c hc => by cases hc.mem
    | some s =>
      obtain ⟨c, hc, rfl, hahead⟩ := exists_of_argmax hbest
      dsimp only
      split
      · next hpays =>
        refine .idle fun d hd => ?_
        have hless := Scored.savings_le (hahead d hd.mem)
        exact absurd hd.pays (Int.not_lt.mpr (Int.le_trans hless hpays))
      · next hpays =>
        refine .round ⟨hc, Int.not_le.mp hpays, hahead⟩ ⟨fun d hd => ?_, fun d hd htext _ => ?_⟩
          (ih _ ?_)
        · obtain ⟨hmem, hne⟩ := List.mem_filter.mp hd
          exact ⟨hmem, fun htext => of_decide_eq_true hne (hdistinct d hmem c hc htext)⟩
        · exact List.mem_filter.mpr ⟨hd, decide_eq_true fun heq => htext (congrArg _ heq)⟩
        · exact fun d hd e he =>
            hdistinct d (List.mem_of_mem_filter hd) e (List.mem_of_mem_filter he)

/-! ## The search with workers -/

/-- The counts of the candidates in their order. They are cut into as many chunks as there are
    workers, and each worker counts a chunk. -/
def countShared (workers : Nat) (hay : List UInt8) (candidates : List Candidate) : List Nat :=
  candidates.mapAsyncChunked (fun c => countOccurrences hay (utf8 c.text.toList))
    (max ((candidates.length + workers - 1) / workers) 1)

/-- Takes an element out and puts the last one in its place. -/
def swapRemove {α : Type} (xs : List α) (place : Nat) : List α :=
  match xs.getLast? with
  | none => []
  | some last => (xs.set place last).dropLast

/-- The best score and its place, when the scores before `place` are behind `lead`. -/
def leader (lead : Nat × Scored) (place : Nat) : List Scored → Nat × Scored
  | [] => lead
  | s :: rest => leader (if lead.2.better s then lead else (place, s)) (place + 1) rest

/-- A search under way: the text and the candidates that are left, and the choices to be made. -/
structure Selection where
  text : List UInt8
  candidates : List Candidate
  remaining : Nat

namespace Selection

/-- The next choice, and the search after it. -/
def next (workers : Nat) (s : Selection) : Option (Choice × Selection) :=
  if s.remaining = 0 ∨ s.candidates.isEmpty then none
  else
    let counts := countShared workers s.text s.candidates
    let scores :=
      List.zipWith (fun c count => Scored.mk c count (savings count c.perUse)) s.candidates counts
    match scores.filter (0 < ·.savings) with
    | [] => none
    | first :: rest =>
      let (place, lead) := leader (0, first) 1 rest
      some (lead.choice,
        { text := erase s.text (utf8 lead.candidate.text.toList)
          candidates := (swapRemove (first :: rest) place).map (·.candidate)
          remaining := s.remaining - 1 })

theorem remaining_next {workers : Nat} {s t : Selection} {choice : Choice}
    (h : s.next workers = some (choice, t)) : t.remaining < s.remaining := by
  unfold next at h
  split at h
  · cases h
  · next hgoes =>
    dsimp only at h
    split at h
    · cases h
    · obtain ⟨-, rfl⟩ := Prod.mk.inj (Option.some.inj h)
      dsimp only
      omega

/-- All choices until there is no next one. -/
def drain (workers : Nat) (s : Selection) : List Choice :=
  match h : s.next workers with
  | none => []
  | some (choice, rest) =>
    have := remaining_next h
    choice :: rest.drain workers
termination_by s.remaining

end Selection

theorem flatten_toChunks_go {α : Type} (n : Nat) (xs : List α) (chunk : Array α)
    (chunks : Array (List α)) :
    (List.toChunks.go n xs chunk chunks).flatten = chunks.toList.flatten ++ chunk.toList ++ xs := by
  induction xs generalizing chunk chunks with
  | nil => simp [List.toChunks.go]
  | cons x xs ih =>
    rw [List.toChunks.go]
    split
    · rw [ih]
      simp
    · rw [ih]
      simp

theorem flatten_toChunks {α : Type} (n : Nat) (xs : List α) : (xs.toChunks n).flatten = xs := by
  cases xs with
  | nil => rw [List.toChunks, List.flatten_nil]
  | cons x xs =>
    cases n with
    | zero => simp [List.toChunks]
    | succ n =>
      rw [List.toChunks, flatten_toChunks_go]
      · rfl
      · exact fun h => by cases h

/-- However the candidates are cut into chunks, the counts are theirs in their order. -/
theorem countShared_eq (workers : Nat) (hay : List UInt8) (candidates : List Candidate) :
    countShared workers hay candidates = candidates.map fun c =>
      countOccurrences hay (utf8 c.text.toList) := by
  unfold countShared List.mapAsyncChunked
  rw [List.flatMap_map]
  -- What a task gives is what its worker computes.
  show List.flatMap (List.map _) _ = _
  rw [List.flatMap_def, ← List.map_flatten, flatten_toChunks]

theorem zipWith_countShared (workers : Nat) (hay : List UInt8) (candidates : List Candidate) :
    List.zipWith (fun c count => Scored.mk c count (savings count c.perUse)) candidates
      (countShared workers hay candidates) = candidates.map (score hay) := by
  rw [countShared_eq, List.zipWith_map_right, List.zipWith_self]
  rfl

theorem leader_spec {scores passed rest : List Scored} {lead : Nat × Scored}
    (hscores : scores = passed ++ rest) (hlead : scores[lead.1]? = some lead.2)
    (hahead : ∀ s ∈ passed, s.rank ≤ lead.2.rank) :
    scores[(leader lead passed.length rest).1]? = some (leader lead passed.length rest).2 ∧
      ∀ s ∈ scores, s.rank ≤ (leader lead passed.length rest).2.rank := by
  induction rest generalizing passed lead with
  | nil =>
    rw [List.append_nil] at hscores
    subst hscores
    exact ⟨hlead, hahead⟩
  | cons s rest ih =>
    have hnext : scores = (passed ++ [s]) ++ rest := by simpa using hscores
    have hlength : (passed ++ [s]).length = passed.length + 1 := by simp
    rw [leader, ← hlength]
    by_cases hbetter : lead.2.better s
    · rw [if_pos hbetter]
      refine ih hnext hlead fun t ht => ?_
      rcases List.mem_append.mp ht with hold | hnew
      · exact hahead t hold
      · rw [List.mem_singleton.mp hnew]
        exact le_of_lt ((Scored.better_iff _ _).mp hbetter)
    · rw [if_neg hbetter]
      refine ih hnext (by simp [hscores]) fun t ht => ?_
      have hless : lead.2.rank ≤ s.rank := not_lt.mp (mt (Scored.better_iff _ _).mpr hbetter)
      rcases List.mem_append.mp ht with hold | hnew
      · exact le_trans (hahead t hold) hless
      · rw [List.mem_singleton.mp hnew]

theorem leader_best (first : Scored) (rest : List Scored) :
    (first :: rest)[(leader (0, first) 1 rest).1]? = some (leader (0, first) 1 rest).2 ∧
      ∀ s ∈ first :: rest, s.rank ≤ (leader (0, first) 1 rest).2.rank :=
  leader_spec (show first :: rest = [first] ++ rest from rfl) rfl (by simp)

theorem perm_swapRemove {α : Type} {xs : List α} {place : Nat} {x : α} (h : xs[place]? = some x) :
    (x :: swapRemove xs place).Perm xs := by
  rcases List.eq_nil_or_concat xs with rfl | ⟨ys, last, rfl⟩
  · simp at h
  · unfold swapRemove
    rw [List.concat_eq_append] at h ⊢
    rw [List.getLast?_concat]
    dsimp only
    by_cases hplace : place < ys.length
    · rw [List.getElem?_append_left hplace] at h
      obtain ⟨_, rfl⟩ := List.getElem?_eq_some_iff.mp h
      rw [List.set_append_left _ _ hplace, List.dropLast_concat]
      calc (ys[place] :: ys.set place last).Perm (ys[place] :: last :: ys.eraseIdx place) :=
            .cons _ (List.set_perm_cons_eraseIdx hplace last)
        List.Perm _ (last :: ys[place] :: ys.eraseIdx place) := .swap _ _ _
        List.Perm _ (last :: ys) := .cons _ (List.getElem_cons_eraseIdx_perm hplace)
        List.Perm _ (ys ++ [last]) := (List.perm_append_singleton _ _).symm
    · have hlast : place = ys.length := by
        have hbound := (List.getElem?_eq_some_iff.mp h).1
        rw [List.length_append, List.length_singleton] at hbound
        omega
      subst hlast
      rw [List.getElem?_concat_length] at h
      rw [List.set_append_right _ _ (Nat.le_refl _), Nat.sub_self, List.set_cons_zero,
        List.dropLast_concat, ← Option.some.inj h]
      exact (List.perm_append_singleton _ _).symm

/-- What is left when one of the paying candidates is taken out. -/
theorem Remain.of_perm {hay : List UInt8} {candidates others : List Candidate} {c : Candidate}
    (hdistinct : (candidates.map (·.text)).Nodup)
    (hperm : (c :: others).Perm (paying hay candidates)) :
    Remain hay candidates c others ∧ (others.map (·.text)).Nodup := by
  have htexts : ((c :: others).map (·.text)).Nodup := by
    rw [(hperm.map _).nodup_iff]
    exact hdistinct.sublist (List.filter_sublist.map _)
  obtain ⟨hnew, hothers⟩ := List.nodup_cons.mp htexts
  refine ⟨⟨fun d hd => ⟨?_, ?_⟩, fun d hd htext hpays => ?_⟩, hothers⟩
  · exact (mem_paying.mp (hperm.mem_iff.mp (List.mem_cons_of_mem _ hd))).1
  · rintro htext
    exact hnew (List.mem_map.mpr ⟨d, hd, htext⟩)
  · rcases List.mem_cons.mp (hperm.mem_iff.mpr (mem_paying.mpr ⟨hd, hpays⟩)) with rfl | hmem
    · exact absurd rfl htext
    · exact hmem

/-- The score that leads is that of a candidate that leads, and those that are left are the others
    that pay. -/
theorem leader_paying {hay : List UInt8} {candidates : List Candidate} {first : Scored}
    {rest : List Scored} (h : (paying hay candidates).map (score hay) = first :: rest) :
    ∃ c place, leader (0, first) 1 rest = (place, score hay c) ∧ Leads hay candidates c ∧
      (c :: (swapRemove (first :: rest) place).map (·.candidate)).Perm (paying hay candidates) := by
  obtain ⟨hplace, hahead⟩ := leader_best first rest
  generalize leader (0, first) 1 rest = found at hplace hahead ⊢
  obtain ⟨place, lead⟩ := found
  rw [← h] at hplace hahead ⊢
  obtain ⟨c, hc, rfl⟩ := List.mem_map.mp (List.mem_of_getElem? hplace)
  have hleads : Leads hay (paying hay candidates) c :=
    ⟨hc, (mem_paying.mp hc).2, fun d hd => hahead _ (List.mem_map_of_mem hd)⟩
  have hperm := (perm_swapRemove hplace).map (·.candidate)
  have hscored : (paying hay candidates).map ((·.candidate) ∘ score hay) = paying hay candidates :=
    List.map_id _
  rw [List.map_map, List.map_cons, hscored] at hperm
  exact ⟨c, place, rfl, hleads.of_samePaying (samePaying_paying hay candidates), hperm⟩

namespace Selection

/-- There is no next choice when no more is asked for or none leads; else the candidate that leads
    is next. -/
theorem next_cases (workers : Nat) {s : Selection} (hdistinct : (s.candidates.map (·.text)).Nodup) :
    (s.next workers = none ∧ (s.remaining = 0 ∨ ∀ c, ¬ Leads s.text s.candidates c)) ∨
    ∃ c others, s.next workers = some ((score s.text c).choice,
        ⟨erase s.text (utf8 c.text.toList), others, s.remaining - 1⟩) ∧ s.remaining ≠ 0 ∧
      Leads s.text s.candidates c ∧ Remain s.text s.candidates c others ∧
      (others.map (·.text)).Nodup := by
  unfold next
  by_cases hstop : s.remaining = 0 ∨ s.candidates.isEmpty
  · refine .inl ⟨if_pos hstop, hstop.imp_right fun hempty c hc => ?_⟩
    have hmem := hc.mem
    rw [List.isEmpty_iff.mp hempty] at hmem
    cases hmem
  · rw [if_neg hstop]
    dsimp only
    rw [zipWith_countShared, filter_score]
    cases hscores : (paying s.text s.candidates).map (score s.text) with
    | nil =>
      refine .inl ⟨rfl, .inr fun c hc => ?_⟩
      have hmem := mem_paying.mpr ⟨hc.mem, hc.pays⟩
      rw [List.map_eq_nil_iff.mp hscores] at hmem
      cases hmem
    | cons first rest =>
      obtain ⟨c, place, hlead, hleads, hperm⟩ := leader_paying hscores
      obtain ⟨hremain, hothers⟩ := Remain.of_perm hdistinct hperm
      dsimp only
      rw [hlead]
      exact .inr ⟨c, _, rfl, fun hzero => hstop (.inl hzero), hleads, hremain, hothers⟩

theorem drain_none {workers : Nat} {s : Selection} (h : s.next workers = none) :
    s.drain workers = [] := by
  rw [drain]
  split
  · rfl
  · next hsome =>
    rw [h] at hsome
    cases hsome

theorem drain_some {workers : Nat} {s t : Selection} {choice : Choice}
    (h : s.next workers = some (choice, t)) : s.drain workers = choice :: t.drain workers := by
  rw [drain]
  split
  · next hnone =>
    rw [h] at hnone
    cases hnone
  · next hsome =>
    obtain ⟨rfl, rfl⟩ := Prod.mk.inj (Option.some.inj (h.symm.trans hsome))
    rfl

end Selection

/-- A search with workers goes in rounds. -/
theorem rounds_drain (workers max : Nat) (hay : List UInt8) {candidates : List Candidate}
    (hdistinct : (candidates.map (·.text)).Nodup) :
    Rounds max hay candidates (Selection.drain workers ⟨hay, candidates, max⟩) := by
  induction max generalizing hay candidates with
  | zero =>
    rcases Selection.next_cases workers (s := ⟨hay, candidates, 0⟩) hdistinct with ⟨hnone, -⟩ | ⟨_,
      _, -, hzero, -⟩
    · rw [Selection.drain_none hnone]
      exact .full
    · exact absurd rfl hzero
  | succ max ih =>
    rcases Selection.next_cases workers (s := ⟨hay, candidates, max + 1⟩) hdistinct with
      ⟨hnone, hstop⟩ | ⟨c, others, hnext, -, hleads, hremain, hothers⟩
    · rw [Selection.drain_none hnone]
      exact .idle (hstop.resolve_left (Nat.succ_ne_zero max))
    · rw [Selection.drain_some hnext]
      exact .round hleads hremain (ih _ hothers)

/-! ## One selection -/

/-- After every history the results are the choices of the search that drops nothing, and so are
    those of any number of workers, in whatever order the candidates are stored. -/
theorem selection_is_greedy (taken : List Checkpoint) (acts : List Act) (max workers : Nat)
    {stored : List Candidate}
    (hstored : stored.Perm
      (Finder.keeper.run { store := {}, taken } acts).store.candidates.toList) :
    let f := (Finder.keeper.run { store := {}, taken } acts).store
    f.results max = greedy max f.text.toList f.candidates.toList ∧
      Selection.drain workers ⟨f.text.toList, stored, max⟩ = greedy max f.text.toList
      f.candidates.toList ∧
      greedy max f.text.toList stored = greedy max f.text.toList f.candidates.toList := by
  intro f
  have hsound : f.Sound := Finder.Sound.run Finder.sound_empty acts
  have hcandidates := hsound.of_mem
  have hdistinct : (stored.map (·.text)).Nodup := (hstored.map _).nodup_iff.mpr hsound.distinct
  have hfirst : ∀ c ∈ f.candidates.toList, ∀ d ∈ f.candidates.toList, c.text = d.text → c = d :=
    fun c hc d hd => List.inj_on_of_nodup_map hsound.distinct hc hd
  have hinj : ∀ c ∈ stored, ∀ d ∈ stored, c.text = d.text → c = d :=
    fun c hc d hd => List.inj_on_of_nodup_map hdistinct hc hd
  have hgreedy := rounds_greedy max f.text.toList hfirst
  have hsame : SamePaying f.text.toList stored f.candidates.toList := fun c _ => hstored.mem_iff
  have hothers : ∀ c ∈ stored, c.Sound := fun c hc => hcandidates c (hstored.mem_iff.mp hc)
  refine ⟨?_, ?_, ?_⟩
  · exact (rounds_selectFrom _ _ _).unique hgreedy (fun _ _ => Iff.rfl) hfirst
      hcandidates hcandidates
  · exact (rounds_drain workers max _ hdistinct).unique hgreedy hsame hinj hothers hcandidates
  · exact (rounds_greedy max _ hinj).unique hgreedy hsame hinj hothers hcandidates

/-- Three workers, and the candidates in the opposite order. -/
theorem silver_is_greedy :
    (Finder.keeper.run { store := {}, taken := [⟨0, 0⟩] }
      silverActs).store.candidates.toList.reverse.Perm
      (Finder.keeper.run { store := {}, taken := [⟨0, 0⟩] } silverActs).store.candidates.toList ∧
    Selection.drain 3
    ⟨(Finder.keeper.run { store := {}, taken := [⟨0, 0⟩] } silverActs).store.text.toList,
        (Finder.keeper.run { store := {}, taken := [⟨0, 0⟩] }
          silverActs).store.candidates.toList.reverse, 2⟩ =
      [⟨3, 2, "silver "⟩, ⟨2, 3, "lamp"⟩] := by
  have hperm := List.reverse_perm
    (Finder.keeper.run { store := {}, taken := [⟨0, 0⟩] } silverActs).store.candidates.toList
  obtain ⟨hresults, hdrain, -⟩ := selection_is_greedy [⟨0, 0⟩] silverActs 2 3 hperm
  refine ⟨hperm, hdrain.trans (hresults.symm.trans ?_)⟩
  decide +kernel

end ZAssembler.Abbreviation
