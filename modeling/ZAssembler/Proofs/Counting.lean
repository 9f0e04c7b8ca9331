import Mathlib.Order.Bounds.Basic
import ZAssembler.Proofs.Occurrences

/-
  Counting from the left is optimal. Where a word stands is said by positions here, and occurrences
  that do not overlap are any positions at least the word's length apart, in any order (`Apart`).
  There are never more of them than `Stands` counts (`Apart.stands`), and so than the count.

  Erasing reads the bytes as counting does. `eraseNoting` is the same reading with a note of where
  each run of overwritten bytes begins: it leaves the same text (`text_eraseNoting`), the runs are
  occurrences that do not overlap, as many as are counted, and their bytes are those that are
  overwritten (`erase_eq_overwrite`).
-/

namespace ZAssembler.Abbreviation

/-! ## Positions -/

def OccursAt (needle hay : List UInt8) (position : Nat) : Prop := needle <+: hay.drop position

instance (needle hay : List UInt8) (position : Nat) : Decidable (OccursAt needle hay position) :=
  inferInstanceAs (Decidable (needle <+: hay.drop position))

/-- Occurrences of a word of which no two overlap. -/
structure Apart (needle hay : List UInt8) (places : List Nat) : Prop where
  occurs : ∀ p ∈ places, OccursAt needle hay p
  apart : places.Pairwise fun p q => p + needle.length ≤ q ∨ q + needle.length ≤ p

theorem occursAt_append (needle passed rest : List UInt8) (p : Nat) :
    OccursAt needle (passed ++ rest) (p + passed.length) ↔ OccursAt needle rest p := by
  unfold OccursAt
  rw [Nat.add_comm, ← List.drop_drop, List.drop_left]

theorem not_occursAt_nil {needle : List UInt8} (hneedle : needle ≠ []) (p : Nat) :
    ¬ OccursAt needle [] p := by
  unfold OccursAt
  rw [List.drop_nil, List.prefix_nil]
  exact hneedle

namespace Apart

variable {needle hay passed rest : List UInt8} {places : List Nat}

theorem empty (needle hay : List UInt8) : Apart needle hay [] :=
  ⟨fun _ hp => absurd hp List.not_mem_nil, List.Pairwise.nil⟩

theorem append_left (h : Apart needle rest places) (passed : List UInt8) :
    Apart needle (passed ++ rest) (places.map (· + passed.length)) := by
  refine ⟨fun p hp => ?_, h.apart.map _ fun p q hpq => by omega⟩
  obtain ⟨q, hq, rfl⟩ := List.mem_map.mp hp
  exact (occursAt_append needle passed rest q).mpr (h.occurs q hq)

/-- One more place, at the beginning of the word. -/
theorem here (h : Apart needle rest places) :
    Apart needle (needle ++ rest) (0 :: places.map (· + needle.length)) := by
  have hlater := h.append_left needle
  refine ⟨List.forall_mem_cons.mpr ⟨List.prefix_append needle rest, hlater.occurs⟩,
    List.pairwise_cons.mpr ⟨fun p hp => ?_, hlater.apart⟩⟩
  obtain ⟨q, -, rfl⟩ := List.mem_map.mp hp
  left
  omega

/-- Places that come after what is passed are places of the rest. -/
theorem past (h : Apart needle (passed ++ rest) places) (hpast : ∀ p ∈ places, passed.length ≤ p) :
    Apart needle rest (places.map (· - passed.length)) := by
  refine ⟨fun p hp => ?_, ?_⟩
  · obtain ⟨q, hq, rfl⟩ := List.mem_map.mp hp
    rw [← occursAt_append needle passed, Nat.sub_add_cancel (hpast q hq)]
    exact h.occurs q hq
  · rw [List.pairwise_map]
    refine h.apart.imp_of_mem fun {p q} hp hq hpq => ?_
    have hp := hpast p hp
    have hq := hpast q hq
    omega

theorem perm {others : List Nat} (h : Apart needle hay places) (hperm : places.Perm others) :
    Apart needle hay others :=
  ⟨fun p hp => h.occurs p (hperm.mem_iff.mpr hp), hperm.pairwise h.apart Or.symm⟩

/-- By the first byte of what is left: a place begins with it, and no other begins before this one
    ends, or none begins with it. -/
theorem stands (hneedle : needle ≠ []) (h : Apart needle hay places) :
    Stands needle hay places.length := by
  have hpos := List.length_pos_iff.mpr hneedle
  induction hlength : hay.length using Nat.strongRecOn generalizing hay places with
  | ind length ih =>
    by_cases hzero : 0 ∈ places
    · have hperm := List.perm_cons_erase hzero
      obtain ⟨rest, rfl⟩ := h.occurs 0 hzero
      obtain ⟨hoccurs, hpairs⟩ := h.perm hperm
      rw [List.pairwise_cons] at hpairs
      have hpast : ∀ p ∈ places.erase 0, needle.length ≤ p := fun p hp => by
        have hapart := hpairs.1 p hp
        omega
      have hrest : Apart needle (needle ++ rest) (places.erase 0) :=
        ⟨(List.forall_mem_cons.mp hoccurs).2, hpairs.2⟩
      rw [List.length_append] at hlength
      have hstands := ih rest.length (by omega) (hrest.past hpast) rfl
      rw [List.length_map] at hstands
      rw [hperm.length_eq, List.length_cons]
      exact .here hstands
    · cases hay with
      | nil =>
        have hnone : places = [] := List.eq_nil_iff_forall_not_mem.mpr fun p hp =>
          not_occursAt_nil hneedle p (h.occurs p hp)
        rw [hnone]
        exact .none
      | cons b hay =>
        have hpast : ∀ p ∈ places, [b].length ≤ p := fun p hp =>
          Nat.pos_of_ne_zero fun hp0 => hzero (hp0 ▸ hp)
        have happend : Apart needle ([b] ++ hay) places := h
        have hstands := ih hay.length (by simp [← hlength]) (happend.past hpast) rfl
        rw [List.length_map] at hstands
        exact .pass hstands

end Apart

/-! ## Runs that are overwritten -/

/-- What is left of a text, and where the runs that were overwritten begin. -/
structure Erasure where
  text : List UInt8
  runs : List Nat
  deriving DecidableEq, Repr

/-- As `eraseFrom`; `runs` is where the runs so far begin, last first. -/
def eraseNotingFrom (needle : List UInt8) : List Nat → List UInt8 → Nat → List UInt8 → Erasure
  | runs, done, _, [] => { text := done.reverse, runs := runs.reverse }
  | runs, done, skip + 1, _ :: rest => eraseNotingFrom needle runs (gap :: done) skip rest
  | runs, done, 0, b :: rest =>
    if needle.isPrefixOf (b :: rest) then
      eraseNotingFrom needle (done.length :: runs) (gap :: done) (needle.length - 1) rest
    else eraseNotingFrom needle runs (b :: done) 0 rest

/-- As `erase`, with a note of where each run of overwritten bytes begins. -/
def eraseNoting (hay needle : List UInt8) : Erasure :=
  if needle.isEmpty then { text := hay, runs := [] } else eraseNotingFrom needle [] [] 0 hay

theorem text_eraseNotingFrom (needle : List UInt8) (runs : List Nat) (done : List UInt8)
    (skip : Nat) (hay : List UInt8) :
    (eraseNotingFrom needle runs done skip hay).text = eraseFrom needle done skip hay := by
  fun_induction eraseNotingFrom needle runs done skip hay with
  | case1 runs done skip => rw [eraseFrom]
  | case2 runs done skip b rest ih => rw [eraseFrom, ih]
  | case3 runs done b rest hplace ih => rw [eraseFrom, if_pos hplace, ih]
  | case4 runs done b rest hplace ih => rw [eraseFrom, if_neg hplace, ih]

/-- The notes change nothing. -/
theorem text_eraseNoting (hay needle : List UInt8) :
    (eraseNoting hay needle).text = erase hay needle := by
  unfold eraseNoting erase
  split
  · rfl
  · exact text_eraseNotingFrom needle [] [] 0 hay

theorem map_shift (runs : List Nat) (a b : Nat) :
    (runs.map (· + a)).map (· + b) = runs.map (· + (a + b)) := by
  rw [List.map_map]
  exact List.map_congr_left fun p _ => Nat.add_assoc p a b

theorem runs_eraseNotingFrom (needle : List UInt8) (runs : List Nat) (done : List UInt8)
    (skip : Nat) (hay : List UInt8) : (eraseNotingFrom needle runs done skip hay).runs =
      runs.reverse ++ (eraseNotingFrom needle [] [] skip hay).runs.map (· + done.length) := by
  induction hay generalizing runs done skip with
  | nil => simp [eraseNotingFrom]
  | cons b rest ih =>
    -- Both sides come down to what is noted from the next byte on.
    have hnext : ∀ c : UInt8, (c :: done).length = [c].length + done.length := fun c => by
      rw [List.length_cons, List.length_singleton, Nat.add_comm]
    cases skip with
    | succ skip =>
      rw [eraseNotingFrom, ih, eraseNotingFrom, ih [] [gap] skip, hnext, List.reverse_nil,
        List.nil_append, map_shift]
    | zero =>
      rw [eraseNotingFrom, eraseNotingFrom]
      split
      · rw [ih, ih [_] [gap], hnext, List.reverse_cons, List.append_assoc, List.reverse_singleton,
          List.map_append, map_shift, List.length_nil, List.map_singleton, Nat.zero_add]
      · rw [ih, ih [] [b], hnext, List.reverse_nil, List.nil_append, map_shift]

theorem runs_eraseNotingFrom_skip (needle passed rest : List UInt8) :
    (eraseNotingFrom needle [] [] passed.length (passed ++ rest)).runs =
      (eraseNotingFrom needle [] [] 0 rest).runs.map (· + passed.length) := by
  induction passed with
  | nil => exact (List.map_id _).symm
  | cons b passed ih =>
    rw [List.length_cons, List.cons_append, eraseNotingFrom, runs_eraseNotingFrom, ih, map_shift,
      List.reverse_nil, List.nil_append, List.length_singleton]

@[simp] theorem runs_eraseNoting_nil (needle : List UInt8) : (eraseNoting [] needle).runs = [] := by
  unfold eraseNoting
  split <;> rfl

theorem runs_eraseNoting_here {needle : List UInt8} (hneedle : needle ≠ []) (rest : List UInt8) :
    (eraseNoting (needle ++ rest) needle).runs =
      0 :: (eraseNoting rest needle).runs.map (· + needle.length) := by
  obtain ⟨b, needle, rfl⟩ := List.exists_cons_of_ne_nil hneedle
  unfold eraseNoting
  rw [if_neg (by simp), if_neg (by simp), List.cons_append, eraseNotingFrom,
    if_pos (place_cons b needle rest), List.length_cons, Nat.add_sub_cancel, runs_eraseNotingFrom,
    runs_eraseNotingFrom_skip, map_shift]
  rfl

theorem runs_eraseNoting_pass {needle rest : List UInt8} {b : UInt8} (h : ¬ needle <+: b :: rest) :
    (eraseNoting (b :: rest) needle).runs = (eraseNoting rest needle).runs.map (· + 1) := by
  unfold eraseNoting
  rw [if_neg (not_isEmpty_of_pass h), if_neg (not_isEmpty_of_pass h), eraseNotingFrom,
    if_neg (by rwa [List.isPrefixOf_iff_prefix]), runs_eraseNotingFrom]
  rfl

section Runs

variable {needle : List UInt8} (hneedle : needle ≠ []) (hay : List UInt8)

include hneedle

theorem length_runs : (eraseNoting hay needle).runs.length = countOccurrences hay needle := by
  induction hay using scan_induction hneedle with
  | nil => simp
  | here rest ih =>
    rw [runs_eraseNoting_here hneedle, countOccurrences_here hneedle, List.length_cons,
      List.length_map, ih]
  | pass b rest hnot ih =>
    rw [runs_eraseNoting_pass hnot, countOccurrences_pass hnot, List.length_map, ih]

theorem apart_runs : Apart needle hay (eraseNoting hay needle).runs := by
  induction hay using scan_induction hneedle with
  | nil =>
    rw [runs_eraseNoting_nil]
    exact .empty needle []
  | here rest ih =>
    rw [runs_eraseNoting_here hneedle]
    exact ih.here
  | pass b rest hnot ih =>
    rw [runs_eraseNoting_pass hnot]
    exact ih.append_left [b]

end Runs

/-! ## Bytes that are overwritten -/

/-- A byte lies in one of the runs of `width` bytes. -/
def Covered (width : Nat) (runs : List Nat) (i : Nat) : Prop := ∃ p ∈ runs, p ≤ i ∧ i < p + width

instance (width : Nat) (runs : List Nat) (i : Nat) : Decidable (Covered width runs i) :=
  inferInstanceAs (Decidable (∃ p ∈ runs, p ≤ i ∧ i < p + width))

def overwrite (width : Nat) (runs : List Nat) (hay : List UInt8) : List UInt8 :=
  hay.mapIdx fun i b => if Covered width runs i then gap else b

theorem covered_cons (width p : Nat) (runs : List Nat) (i : Nat) :
    Covered width (p :: runs) i ↔ (p ≤ i ∧ i < p + width) ∨ Covered width runs i :=
  List.exists_mem_cons_iff _ p runs

theorem covered_map_add (width : Nat) (runs : List Nat) (i k : Nat) :
    Covered width (runs.map (· + k)) (i + k) ↔ Covered width runs i := by
  induction runs with
  | nil => simp [Covered]
  | cons p runs ih =>
    rw [List.map_cons, covered_cons, covered_cons, ih]
    exact or_congr_left (by omega)

theorem not_covered_map {i k : Nat} (width : Nat) (runs : List Nat) (h : i < k) :
    ¬ Covered width (runs.map (· + k)) i := by
  rintro ⟨p, hp, hle, -⟩
  obtain ⟨q, -, rfl⟩ := List.mem_map.mp hp
  omega

/-- What comes before the first run is kept. -/
theorem overwrite_append_left (width : Nat) (runs : List Nat) (passed rest : List UInt8) :
    overwrite width (runs.map (· + passed.length)) (passed ++ rest) = passed ++
    overwrite width runs rest := by
  unfold overwrite
  rw [List.mapIdx_append]
  simp only [covered_map_add]
  congr 1
  apply List.ext_getElem (by simp)
  intro i _ hi
  rw [List.getElem_mapIdx, if_neg (not_covered_map width runs hi)]

theorem overwrite_here (word : List UInt8) (runs : List Nat) (rest : List UInt8) :
    overwrite word.length (0 :: runs.map (· + word.length)) (word ++ rest) =
      List.replicate word.length gap ++ overwrite word.length runs rest := by
  have hlater : ∀ i, Covered word.length (0 :: runs.map (· + word.length)) (i + word.length) ↔
      Covered word.length runs i := by
    intro i
    rw [covered_cons, covered_map_add]
    exact or_iff_right (by omega)
  unfold overwrite
  rw [List.mapIdx_append]
  simp only [hlater]
  congr 1
  apply List.ext_getElem (by simp)
  intro i hi _
  rw [List.length_mapIdx] at hi
  have hfirst : Covered word.length (0 :: runs.map (· + word.length)) i :=
    (covered_cons _ _ _ _).mpr (.inl (by omega))
  rw [List.getElem_mapIdx, List.getElem_replicate, if_pos hfirst]

/-- The bytes that are overwritten are those of the runs. -/
theorem erase_eq_overwrite {needle : List UInt8} (hneedle : needle ≠ []) (hay : List UInt8) :
    erase hay needle = overwrite needle.length (eraseNoting hay needle).runs hay := by
  induction hay using scan_induction hneedle with
  | nil => rw [erase_nil, overwrite, List.mapIdx_nil]
  | here rest ih => rw [erase_here hneedle, runs_eraseNoting_here hneedle, overwrite_here, ih]
  | pass b rest hnot ih =>
    rw [erase_pass hnot, runs_eraseNoting_pass hnot, ih]
    exact (overwrite_append_left _ _ [b] rest).symm

/-- The count is the greatest number of occurrences of which no two overlap. Erasing overwrites as
    many runs, which are such occurrences, and no other byte. Where bytes are overwritten with bytes
    that the word does not have, the count is not greater. -/
theorem counting_is_optimal {needle : List UInt8} (hneedle : needle ≠ []) (hay : List UInt8) :
    IsGreatest {n | ∃ places, Apart needle hay places ∧ places.length = n}
      (countOccurrences hay needle) ∧
    ((eraseNoting hay needle).text = erase hay needle ∧
      (eraseNoting hay needle).runs.length = countOccurrences hay needle ∧
      Apart needle hay (eraseNoting hay needle).runs ∧
      erase hay needle = overwrite needle.length (eraseNoting hay needle).runs hay) ∧
    ∀ faded, Fades needle hay faded → countOccurrences faded needle ≤
    countOccurrences hay needle := by
  have hlength := length_runs hneedle hay
  have hapart := apart_runs hneedle hay
  refine ⟨⟨⟨_, hapart, hlength⟩, ?_⟩, ⟨text_eraseNoting hay needle, hlength, hapart,
    erase_eq_overwrite hneedle hay⟩, fun faded hfades => count_le_of_fades hneedle hfades⟩
  rintro n ⟨places, hplaces, rfl⟩
  exact (hplaces.stands hneedle).le_count hneedle

/-- The bytes of `aba`. -/
def aba : List UInt8 := [97, 98, 97]

/-- The bytes of `abababa`. -/
def abababa : List UInt8 := [97, 98, 97, 98, 97, 98, 97]

/-- `aba` stands at three places of `abababa`, of which the middle one overlaps both others. -/
theorem aba_is_optimal :
    aba ≠ [] ∧ (OccursAt aba abababa 0 ∧ OccursAt aba abababa 2 ∧ OccursAt aba abababa 4) ∧
    IsGreatest {n | ∃ places, Apart aba abababa places ∧ places.length = n} 2 ∧
    (eraseNoting abababa aba).runs = [0, 4] ∧
    erase abababa aba = overwrite 3 [0, 4] abababa ∧
    overwrite 3 [0, 4] abababa = [0, 0, 0, 98, 0, 0, 0] ∧
    Fades aba abababa [97, 98, 97, 98, 0, 98, 97] ∧
    countOccurrences [97, 98, 97, 98, 0, 98, 97] aba ≤ 2 := by
  have hneedle : aba ≠ [] := by decide
  have hcount : countOccurrences abababa aba = 2 := by decide
  have hruns : (eraseNoting abababa aba).runs = [0, 4] := by decide
  have hfades : Fades aba abababa [97, 98, 97, 98, 0, 98, 97] := by
    simp [Fades, aba, abababa]
  obtain ⟨hgreatest, ⟨-, -, -, herase⟩, hfaded⟩ := counting_is_optimal hneedle abababa
  rw [hcount] at hgreatest hfaded
  rw [hruns] at herase
  exact ⟨hneedle, by decide, hgreatest, hruns, herase, by decide, hfades, hfaded _ hfades⟩

end ZAssembler.Abbreviation
