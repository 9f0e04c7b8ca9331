import Mathlib.Data.List.Forall2
import ZAssembler.Proofs.Abbreviating

/-
  Occurrences of a word in bytes. `countOccurrences` and `erase` read the bytes in the same way,
  from left to right and past a word where one stands; `scan_induction` is the induction over that
  reading.

  `Stands` says that a word stands at some number of places that do not overlap, wherever they are.
  Reading from the left finds the most of them (`Stands.le_count`): a word that ends first costs at
  most one of the others (`Stands.drop`). So overwriting bytes with others that are not the word's
  never gives a greater count (`count_le_of_fades`), and where the word itself is erased it does not
  stand any more (`not_infix_erase`).
-/

namespace ZAssembler.Abbreviation

/-! ## Reading from the left -/

/-- The bytes end, or the word stands at their beginning, or a byte is passed. -/
@[elab_as_elim]
theorem scan_induction {needle : List UInt8} (hneedle : needle ≠ []) {motive : List UInt8 → Prop}
    (nil : motive []) (here : ∀ rest, motive rest → motive (needle ++ rest))
    (pass : ∀ b rest, ¬ needle <+: b :: rest → motive rest → motive (b :: rest))
    (hay : List UInt8) :
    motive hay := by
  induction hlength : hay.length using Nat.strongRecOn generalizing hay with
  | ind length ih =>
    cases hay with
    | nil => exact nil
    | cons b rest =>
      by_cases hplace : needle <+: b :: rest
      · obtain ⟨more, hmore⟩ := hplace
        have hpos := List.length_pos_iff.mpr hneedle
        have hlengths := congrArg List.length hmore
        rw [List.length_append, hlength] at hlengths
        rw [← hmore]
        exact here more (ih more.length (by omega) more rfl)
      · exact pass b rest hplace (ih rest.length (by rw [← hlength]; simp) rest rfl)

theorem countFrom_add (needle : List UInt8) (found more skip : Nat) (hay : List UInt8) :
    countFrom needle (found + more) skip hay = countFrom needle found skip hay + more := by
  fun_induction countFrom needle found skip hay with
  | case1 found skip => rw [countFrom]
  | case2 found skip b rest ih => rw [countFrom, ih]
  | case3 found b rest hplace ih => rw [countFrom, if_pos hplace, Nat.add_right_comm, ih]
  | case4 found b rest hplace ih => rw [countFrom, if_neg hplace, ih]

theorem eraseFrom_append (needle passed done : List UInt8) (skip : Nat) (hay : List UInt8) :
    eraseFrom needle (done ++ passed) skip hay = passed.reverse ++
    eraseFrom needle done skip hay := by
  fun_induction eraseFrom needle done skip hay with
  | case1 done skip => rw [eraseFrom, List.reverse_append]
  | case2 done skip b rest ih => rw [eraseFrom, ← List.cons_append, ih]
  | case3 done b rest hplace ih => rw [eraseFrom, if_pos hplace, ← List.cons_append, ih]
  | case4 done b rest hplace ih => rw [eraseFrom, if_neg hplace, ← List.cons_append, ih]

theorem eraseFrom_skip (needle passed rest : List UInt8) :
    eraseFrom needle [] passed.length (passed ++ rest) =
      List.replicate passed.length gap ++ eraseFrom needle [] 0 rest := by
  induction passed with
  | nil => rfl
  | cons b passed ih =>
    rw [List.length_cons, List.cons_append, eraseFrom, ← List.nil_append [gap],
      eraseFrom_append, ih, List.replicate_succ]
    rfl

@[simp] theorem countOccurrences_nil (needle : List UInt8) : countOccurrences [] needle = 0 := by
  unfold countOccurrences countFrom
  exact ite_self 0

@[simp] theorem erase_nil (needle : List UInt8) : erase [] needle = [] := by
  unfold erase eraseFrom
  exact ite_self []

/-- The first byte of a word, and the others. -/
theorem place_cons (b : UInt8) (needle rest : List UInt8) :
    (b :: needle).isPrefixOf (b :: (needle ++ rest)) = true := by
  rw [List.isPrefixOf_iff_prefix]
  exact List.prefix_append (b :: needle) rest

theorem countOccurrences_here {needle : List UInt8} (hneedle : needle ≠ []) (rest : List UInt8) :
    countOccurrences (needle ++ rest) needle = countOccurrences rest needle + 1 := by
  obtain ⟨b, needle, rfl⟩ := List.exists_cons_of_ne_nil hneedle
  unfold countOccurrences
  rw [if_neg (by simp), if_neg (by simp), List.cons_append, countFrom,
    if_pos (place_cons b needle rest),
    List.length_cons, Nat.add_sub_cancel, countFrom_skip, countFrom_add]

theorem erase_here {needle : List UInt8} (hneedle : needle ≠ []) (rest : List UInt8) :
    erase (needle ++ rest) needle = List.replicate needle.length gap ++ erase rest needle := by
  obtain ⟨b, needle, rfl⟩ := List.exists_cons_of_ne_nil hneedle
  unfold erase
  rw [if_neg (by simp), if_neg (by simp), List.cons_append, eraseFrom,
    if_pos (place_cons b needle rest),
    List.length_cons, Nat.add_sub_cancel, ← List.nil_append [gap], eraseFrom_append, eraseFrom_skip,
    List.replicate_succ]
  rfl

theorem not_isEmpty_of_pass {needle hay : List UInt8} (h : ¬ needle <+: hay) :
    ¬ needle.isEmpty = true := by
  intro hempty
  rw [List.isEmpty_iff] at hempty
  exact h (hempty ▸ List.nil_prefix)

theorem countOccurrences_pass {needle rest : List UInt8} {b : UInt8} (h : ¬ needle <+: b :: rest) :
    countOccurrences (b :: rest) needle = countOccurrences rest needle := by
  unfold countOccurrences
  rw [if_neg (not_isEmpty_of_pass h), if_neg (not_isEmpty_of_pass h), countFrom,
    if_neg (by rwa [List.isPrefixOf_iff_prefix])]

theorem erase_pass {needle rest : List UInt8} {b : UInt8} (h : ¬ needle <+: b :: rest) :
    erase (b :: rest) needle = b :: erase rest needle := by
  unfold erase
  rw [if_neg (not_isEmpty_of_pass h), if_neg (not_isEmpty_of_pass h), eraseFrom,
    if_neg (by rwa [List.isPrefixOf_iff_prefix]), ← List.nil_append [b], eraseFrom_append]
  rfl

/-! ## Places that do not overlap -/

/-- The word stands at this many places of the bytes that do not overlap. -/
inductive Stands (needle : List UInt8) : List UInt8 → Nat → Prop
  | none {hay : List UInt8} : Stands needle hay 0
  | pass {b : UInt8} {rest : List UInt8} {n : Nat} : Stands needle rest n →
      Stands needle (b :: rest) n
  | here {rest : List UInt8} {n : Nat} : Stands needle rest n →
      Stands needle (needle ++ rest) (n + 1)

namespace Stands

variable {needle hay : List UInt8} {n : Nat}

theorem append_left (h : Stands needle hay n) (passed : List UInt8) :
    Stands needle (passed ++ hay) n := by
  induction passed with
  | nil => exact h
  | cons b passed ih => exact .pass ih

theorem fewer {m : Nat} (h : Stands needle hay n) (hm : m ≤ n) : Stands needle hay m := by
  induction h generalizing m with
  | none =>
    rw [Nat.le_zero.mp hm]
    exact .none
  | pass _ ih => exact .pass (ih hm)
  | here _ ih =>
    cases m with
    | zero => exact .none
    | succ m => exact .here (ih (Nat.le_of_succ_le_succ hm))

/-- Where no more bytes are left out than the word has, at most one place is lost. -/
theorem drop (h : Stands needle hay n) {k : Nat} (hk : k ≤ needle.length) :
    Stands needle (hay.drop k) (n - 1) := by
  induction h generalizing k with
  | none => exact .none
  | @pass b rest n h ih =>
    cases k with
    | zero => exact .pass (h.fewer (Nat.sub_le n 1))
    | succ k => exact ih (Nat.le_of_succ_le hk)
  | here h _ =>
    rw [List.drop_append_of_le_length hk]
    exact h.append_left _

theorem eq_zero_of_nil (hneedle : needle ≠ []) (h : Stands needle [] n) : n = 0 := by
  generalize hnil : ([] : List UInt8) = hay at h
  cases h with
  | none => rfl
  | pass _ => cases hnil
  | here _ => exact absurd (List.append_eq_nil_iff.mp hnil.symm).1 hneedle

/-- Where the word does not begin, the places are in the rest. -/
theorem rest {b : UInt8} {rest : List UInt8} (hnot : ¬ needle <+: b :: rest)
    (h : Stands needle (b :: rest) n) : Stands needle rest n := by
  generalize hcons : b :: rest = hay at h hnot
  cases h with
  | none => exact .none
  | pass h =>
    obtain ⟨-, rfl⟩ := List.cons.inj hcons
    exact h
  | here _ => exact absurd (List.prefix_append needle _) hnot

/-- No places that do not overlap are more than those found from the left. -/
theorem le_count (hneedle : needle ≠ []) (h : Stands needle hay n) :
    n ≤ countOccurrences hay needle := by
  induction hay using scan_induction hneedle generalizing n with
  | nil =>
    rw [h.eq_zero_of_nil hneedle]
    exact Nat.zero_le _
  | here rest ih =>
    have hrest := h.drop (Nat.le_refl needle.length)
    rw [List.drop_left] at hrest
    rw [countOccurrences_here hneedle]
    exact Nat.le_add_of_sub_le (ih hrest)
  | pass b rest hnot ih =>
    rw [countOccurrences_pass hnot]
    exact ih (h.rest hnot)

end Stands

theorem stands_count {needle : List UInt8} (hneedle : needle ≠ []) (hay : List UInt8) :
    Stands needle hay (countOccurrences hay needle) := by
  induction hay using scan_induction hneedle with
  | nil =>
    rw [countOccurrences_nil]
    exact .none
  | here rest ih =>
    rw [countOccurrences_here hneedle]
    exact .here ih
  | pass b rest hnot ih =>
    rw [countOccurrences_pass hnot]
    exact .pass ih

/-! ## Overwriting -/

/-- A text without a zero has none in its bytes. -/
theorem gap_notMem_utf8 {text : List Char} (h : '\x00' ∉ text) : gap ∉ utf8 text := by
  intro hgap
  obtain ⟨c, hc, hbyte⟩ := List.mem_flatMap.mp hgap
  obtain ⟨b, others, hbytes, -, hothers⟩ := exists_firstByte c
  rw [hbytes] at hbyte
  rcases List.mem_cons.mp hbyte with rfl | hlater
  · -- A zero begins the bytes of the zero character only.
    have hzero : String.utf8EncodeChar c ++ [] = String.utf8EncodeChar '\x00' ++ others := by
      rw [List.append_nil, hbytes]
      rfl
    exact h (encodeChar_append_inj hzero ▸ hc)
  · exact hothers gap hlater (by decide)

/-- Each byte is kept, or overwritten with one that the word does not have. -/
def Fades (needle : List UInt8) : List UInt8 → List UInt8 → Prop :=
  List.Forall₂ fun before after => after = before ∨ after ∉ needle

theorem Fades.refl (needle hay : List UInt8) : Fades needle hay hay :=
  List.forall₂_same.mpr fun _ _ => .inl rfl

/-- What has only bytes of the word stands where it stood before. -/
theorem Fades.split {needle word hay rest : List UInt8} (hword : ∀ b ∈ word, b ∈ needle)
    (h : Fades needle hay (word ++ rest)) :
    ∃ more, hay = word ++ more ∧ Fades needle more rest := by
  induction word generalizing hay with
  | nil => exact ⟨hay, rfl, h⟩
  | cons b word ih =>
    obtain ⟨hb, hword⟩ := List.forall_mem_cons.mp hword
    obtain ⟨c, others, hbyte, hothers, rfl⟩ := List.forall₂_cons_right_iff.mp h
    obtain ⟨more, rfl, hmore⟩ := ih hword hothers
    obtain rfl | hnot := hbyte
    · exact ⟨more, rfl, hmore⟩
    · exact absurd hb hnot

theorem Stands.of_fades {needle hay faded : List UInt8} {n : Nat} (h : Stands needle faded n)
    (hfades : Fades needle hay faded) : Stands needle hay n := by
  induction h generalizing hay with
  | none => exact .none
  | pass _ ih =>
    obtain ⟨c, others, -, hothers, rfl⟩ := List.forall₂_cons_right_iff.mp hfades
    exact .pass (ih hothers)
  | here _ ih =>
    obtain ⟨more, rfl, hmore⟩ := hfades.split fun _ hb => hb
    exact .here (ih hmore)

/-- Overwriting never gives a word more places. -/
theorem count_le_of_fades {needle hay faded : List UInt8} (hneedle : needle ≠ [])
    (hfades : Fades needle hay faded) :
    countOccurrences faded needle ≤ countOccurrences hay needle :=
  ((stands_count hneedle faded).of_fades hfades).le_count hneedle

theorem fades_blank {needle : List UInt8} (hgap : gap ∉ needle) (word : List UInt8) :
    Fades needle word (List.replicate word.length gap) := by
  induction word with
  | nil => exact .nil
  | cons b word ih => exact .cons (.inr hgap) ih

/-- Where one word is erased, those without a zero fade. -/
theorem fades_erase {needle : List UInt8} (hgap : gap ∉ needle) (hay other : List UInt8) :
    Fades needle hay (erase hay other) := by
  by_cases hother : other = []
  · subst hother
    exact .refl needle hay
  · induction hay using scan_induction hother with
    | nil =>
      rw [erase_nil]
      exact .nil
    | here rest ih =>
      rw [erase_here hother]
      exact List.rel_append (fades_blank hgap other) ih
    | pass b rest hnot ih =>
      rw [erase_pass hnot]
      exact .cons (.inl rfl) ih

theorem infix_of_append {needle passed rest : List UInt8} (hneedle : needle ≠ [])
    (hpassed : ∀ b ∈ passed, b ∉ needle) (h : needle <:+: passed ++ rest) : needle <:+: rest := by
  induction passed with
  | nil => exact h
  | cons b passed ih =>
    obtain ⟨hb, hpassed⟩ := List.forall_mem_cons.mp hpassed
    rcases List.infix_cons_iff.mp h with hhere | hlater
    · obtain ⟨first, others, rfl⟩ := List.exists_cons_of_ne_nil hneedle
      obtain ⟨rfl, -⟩ := List.cons_prefix_cons.mp hhere
      exact absurd List.mem_cons_self hb
    · exact ih hpassed hlater

/-- Where a word is erased it stands nowhere. -/
theorem not_infix_erase {needle : List UInt8} (hneedle : needle ≠ []) (hgap : gap ∉ needle)
    (hay : List UInt8) : ¬ needle <:+: erase hay needle := by
  induction hay using scan_induction hneedle with
  | nil =>
    rw [erase_nil, List.infix_nil]
    exact hneedle
  | here rest ih =>
    rw [erase_here hneedle]
    refine fun h => ih (infix_of_append hneedle (fun b hb => ?_) h)
    rw [List.eq_of_mem_replicate hb]
    exact hgap
  | pass b rest hnot ih =>
    intro h
    have hkept := fades_erase hgap (b :: rest) needle
    rw [erase_pass hnot] at h hkept
    rcases List.infix_cons_iff.mp h with ⟨more, hhere⟩ | hlater
    · rw [← hhere] at hkept
      obtain ⟨before, hbefore, -⟩ := hkept.split fun _ hc => hc
      exact hnot ⟨before, hbefore.symm⟩
    · exact ih hlater

end ZAssembler.Abbreviation
