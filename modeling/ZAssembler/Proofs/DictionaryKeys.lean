import ZAssembler.Dictionary
import ZAssembler.Proofs.Records
import ZAssembler.Proofs.TextCoding

/-
  Dictionary keys keep the order of their words. Five-bit codes are digits: the words that hold them
  are numbers with these digits and with their bytes as digits, so bytes compare as codes do
  (`compare_packTriples`). The end mark stands in the same word of two keys of one length.

  Lowercasing is any function that gives what `Dictionary.lower` gives up to characters outside
  ASCII (`Lowercases`); a key shows none of these.
-/

namespace ZAssembler

namespace ZText

/-! ## Digits -/

/-- Numbers with a last digit below `n` compare as the rests do, and then as the digits do. -/
theorem compare_digits {n x x' d d' : Nat} (hd : d < n) (hd' : d' < n) :
    compare (x * n + d) (x' * n + d') = (compare x x').then (compare d d') := by
  rcases Nat.lt_trichotomy x x' with hlt | rfl | hgt
  · have hle : (x + 1) * n ≤ x' * n := Nat.mul_le_mul_right n hlt
    rw [Nat.succ_mul] at hle
    rw [Nat.compare_eq_lt.mpr hlt, Nat.compare_eq_lt.mpr (by omega)]
    rfl
  · rw [Nat.compare_eq_eq.mpr rfl, Ordering.eq_then]
    rcases Nat.lt_trichotomy d d' with hlt | rfl | hgt
    · rw [Nat.compare_eq_lt.mpr hlt, Nat.compare_eq_lt.mpr (by omega)]
    · rw [Nat.compare_eq_eq.mpr rfl, Nat.compare_eq_eq.mpr rfl]
    · rw [Nat.compare_eq_gt.mpr hgt, Nat.compare_eq_gt.mpr (by omega)]
  · have hle : (x' + 1) * n ≤ x * n := Nat.mul_le_mul_right n hgt
    rw [Nat.succ_mul] at hle
    rw [Nat.compare_eq_gt.mpr hgt, Nat.compare_eq_gt.mpr (by omega)]
    rfl

/-- The bytes of two words compare as the words do. -/
theorem compare_wordBytes (w w' : UInt16) (rest rest' : List UInt8) :
    compare (wordBytes w ++ rest) (wordBytes w' ++ rest') =
      (compare w.toNat w'.toNat).then (compare rest rest') := by
  obtain ⟨high, low, hbytes, hword⟩ := wordBytes_eq w
  obtain ⟨high', low', hbytes', hword'⟩ := wordBytes_eq w'
  rw [hbytes, hbytes', ← hword, ← hword', compare_digits low.toNat_lt low'.toNat_lt,
    ← UInt8.compare_eq_toNat_compare_toNat, ← UInt8.compare_eq_toNat_compare_toNat,
    Ordering.then_assoc]
  exact List.compare_cons_cons.trans (congrArg _ List.compare_cons_cons)

/-- Two words with the same mark compare as their codes do. -/
theorem compare_packedWord {a b c a' b' c' : Nat} (h : a < 32 ∧ b < 32 ∧ c < 32)
    (h' : a' < 32 ∧ b' < 32 ∧ c' < 32) (last : Bool) :
    compare (packedWord a b c last).toNat (packedWord a' b' c' last).toNat =
      (compare a a').then ((compare b b').then (compare c c')) := by
  have hword : ∀ {a b c : Nat}, a < 32 ∧ b < 32 ∧ c < 32 → (packedWord a b c last).toNat =
      (((if last then 1 else 0) * 32 + a) * 32 + b) * 32 + c := by
    intro a b c h
    unfold packedWord
    rw [UInt16.toNat_ofNat']
    split <;> omega
  rw [hword h, hword h', compare_digits h.2.2 h'.2.2, compare_digits h.2.1 h'.2.1,
    compare_digits h.1 h'.1, Nat.compare_eq_eq.mpr rfl, Ordering.eq_then, Ordering.then_assoc]

/-! ## Packed codes -/

/-- The bytes of two lists of codes of one length, in whole triples, compare as the codes do. -/
theorem compare_packTriples {codes codes' : List Nat} (hlength : codes'.length = codes.length)
    (hwhole : codes.length % 3 = 0) (hlt : ∀ code ∈ codes, code < 32)
    (hlt' : ∀ code ∈ codes', code < 32) :
    compare (packTriples codes) (packTriples codes') = compare codes codes' := by
  fun_induction packTriples codes generalizing codes' with
  | case1 a b c rest ih =>
    rcases codes' with - | ⟨a', - | ⟨b', - | ⟨c', rest'⟩⟩⟩
    · cases hlength
    · cases hlength
    · cases hlength
    · simp only [List.length_cons, Nat.add_right_cancel_iff] at hlength hwhole
      simp only [List.mem_cons, forall_eq_or_imp] at hlt hlt'
      -- one list ends where the other does, so the marks are alike
      have hlast : rest'.isEmpty = rest.isEmpty := by
        rw [Bool.eq_iff_iff, List.isEmpty_iff_length_eq_zero, List.isEmpty_iff_length_eq_zero,
          hlength]
      rw [packTriples, hlast, compare_wordBytes,
        compare_packedWord ⟨hlt.1, hlt.2.1, hlt.2.2.1⟩ ⟨hlt'.1, hlt'.2.1, hlt'.2.2.1⟩,
        ih hlength (by omega) hlt.2.2.2 hlt'.2.2.2, Ordering.then_assoc, Ordering.then_assoc,
        List.compare_cons_cons, List.compare_cons_cons, List.compare_cons_cons]
  | case2 codes hshort =>
    obtain rfl : codes = [] := by
      rcases codes with - | ⟨a, - | ⟨b, - | ⟨c, rest⟩⟩⟩
      · rfl
      · cases hwhole
      · cases hwhole
      · exact absurd rfl (hshort a b c rest)
    rw [List.length_eq_zero_iff.mp hlength]
    rfl

theorem padded_of_whole {codes : List Nat} (hne : codes ≠ []) (hwhole : codes.length % 3 = 0) :
    padded codes = codes := by
  unfold padded
  rw [if_neg (by rwa [List.isEmpty_iff]), hwhole]
  exact List.append_nil codes

/-! ## Characters outside ASCII -/

theorem charZchars_outside (v : Version) {c : Char} (h : 128 ≤ c.toNat) :
    charZchars v c = charZchars v '\u0080' := by
  have hrow : ∀ row : List Char, row.all (fun d => decide (d.toNat < 128)) = true →
      row.idxOf? c = none := by
    intro row hrow
    rw [List.idxOf?_eq_none_iff]
    intro hc
    have hlt := of_decide_eq_true (List.all_eq_true.mp hrow c hc)
    omega
  have hsigns : (signRow v).idxOf? c = none := hrow _ (by cases v <;> decide)
  have hne : ∀ d : Char, d.toNat < 128 → c ≠ d := by
    rintro d hd rfl
    omega
  have hglyph : glyph v c = .escape 63 := by
    have hcode : escapeCode c = 63 := if_neg (by omega)
    unfold glyph
    rw [if_neg (hne ' ' (by decide)), if_neg (hne '\n' (by decide)), hrow alphabet0 (by decide),
      hrow alphabet1 (by decide)]
    unfold signRow at hsigns
    dsimp only
    rw [hsigns, hcode]
  have hglyph' : glyph v '\u0080' = .escape 63 := by cases v <;> decide
  rw [charZchars, charZchars, hglyph, hglyph']

theorem zchars_plain (v : Version) (text : String) :
    ({ version := v } : Encoder).zchars false text = text.toList.flatMap (charZchars v) := by
  unfold Encoder.zchars
  induction text.toList with
  | nil => rfl
  | cons c rest ih =>
    rw [List.flatMap_cons, ← ih]
    rfl

end ZText

namespace Dictionary

open ZText

/-! ## Lowercasing -/

/-- No key tells these characters apart. -/
def Alike (c d : Char) : Prop := c = d ∨ 128 ≤ c.toNat ∧ 128 ≤ d.toNat

/-- The function lowercases words, as far as a key can show it. -/
def Lowercases (lowercase : String → String) : Prop :=
  ∀ word, List.Forall₂ Alike (lowercase word).toList (lower word)

theorem charZchars_alike (v : Version) {c d : Char} (h : Alike c d) :
    charZchars v c = charZchars v d := by
  rcases h with rfl | ⟨hc, hd⟩
  · rfl
  · rw [charZchars_outside v hc, charZchars_outside v hd]

theorem flatMap_alike (v : Version) {text text' : List Char} (h : List.Forall₂ Alike text text') :
    text.flatMap (charZchars v) = text'.flatMap (charZchars v) := by
  induction h with
  | nil => rfl
  | cons hc _ ih => rw [List.flatMap_cons, List.flatMap_cons, charZchars_alike v hc, ih]

/-! ## Keys -/

/-- Codes cut or filled up with fives to a length. -/
def fitted (length : Nat) (codes : List Nat) : List Nat :=
  codes.take length ++ List.replicate (length - codes.length) 5

@[simp] theorem length_fitted (length : Nat) (codes : List Nat) :
    (fitted length codes).length = length := by
  simp only [fitted, List.length_append, List.length_take, List.length_replicate]
  omega

theorem fitted_lt (length : Nat) {codes : List Nat} (h : ∀ code ∈ codes, code < 32) :
    ∀ code ∈ fitted length codes, code < 32 := by
  intro code hcode
  rcases List.mem_append.mp hcode with hcode | hcode
  · exact h code (List.mem_of_mem_take hcode)
  · rw [List.eq_of_mem_replicate hcode]
    decide

/-- The plain Z-characters of the lowercased word, six of them up to version 3 and nine after. -/
def keyCodes (lowercase : String → String) (v : Version) (word : String) : List Nat :=
  fitted (if v.number ≤ 3 then 6 else 9)
    (({ version := v } : Encoder).zchars false (lowercase word))

theorem keyCodes_lt (lowercase : String → String) (v : Version) (word : String) :
    ∀ code ∈ keyCodes lowercase v word, code < 32 := by
  refine fitted_lt _ fun code hcode => ?_
  rw [zchars_plain] at hcode
  obtain ⟨c, -, hcode⟩ := List.mem_flatMap.mp hcode
  exact charZchars_lt v c code hcode

theorem length_keyCodes (lowercase : String → String) (v : Version) (word : String) :
    (keyCodes lowercase v word).length = if v.number ≤ 3 then 6 else 9 :=
  length_fitted _ _

/-- A key holds whole words, so packing adds nothing to its codes. -/
theorem key_eq {lowercase : String → String} (h : Lowercases lowercase) (v : Version)
    (word : String) : key v word = packTriples (keyCodes lowercase v word) := by
  have hcodes : keyZchars v word = keyCodes lowercase v word := by
    unfold keyCodes
    rw [zchars_plain, flatMap_alike v (h word)]
    rfl
  have hlength := length_keyCodes lowercase v word
  unfold key pack
  rw [hcodes, padded_of_whole]
  · intro hnil
    rw [hnil] at hlength
    split at hlength <;> cases hlength
  · rw [hlength]
    split <;> rfl

/-- The order in which a block is sorted. -/
theorem keyLE_eq_isLE (a b : List UInt8) : Vocabulary.keyLE a b = (compare a b).isLE := by
  fun_induction Vocabulary.keyLE a b with
  | case1 b => cases b <;> rfl
  | case2 a as => rfl
  | case3 a as b bs ih =>
    rw [List.compare_cons_cons, ih]
    show _ = ((compareOfLessAndEq a b).then (compare as bs)).isLE
    unfold compareOfLessAndEq
    by_cases hlt : a < b
    · simp [hlt]
    · by_cases heq : a = b
      · simp [heq]
      · simp [hlt, heq]

/-- Keys have a fixed size and keep dictionary order: a key takes two bytes for each three of its
    Z-characters and is marked in its last word only; two keys compare, byte by byte and where a
    block is sorted, as the Z-characters of the lowercased words do, and are equal only if these
    are. -/
theorem keys_keep_order {lowercase : String → String} (h : Lowercases lowercase) (v : Version)
    (a b : String) :
    (key v a).length = 2 * (if v.number ≤ 3 then 6 else 9) / 3 ∧
    Machine.EndMarked (key v a) ∧
    compare (key v a) (key v b) = compare (keyCodes lowercase v a) (keyCodes lowercase v b) ∧
    Vocabulary.keyLE (key v a) (key v b) =
      (compare (keyCodes lowercase v a) (keyCodes lowercase v b)).isLE ∧
    (key v a = key v b ↔ keyCodes lowercase v a = keyCodes lowercase v b) := by
  have hlength := length_keyCodes lowercase v
  have hwhole : (keyCodes lowercase v a).length % 3 = 0 := by
    rw [hlength]
    split <;> rfl
  have hne : keyCodes lowercase v a ≠ [] := by
    rw [← List.length_pos_iff, hlength]
    split <;> decide
  have hcompare : compare (key v a) (key v b) =
      compare (keyCodes lowercase v a) (keyCodes lowercase v b) := by
    rw [key_eq h, key_eq h]
    exact compare_packTriples (by rw [hlength, hlength]) hwhole (keyCodes_lt lowercase v a)
      (keyCodes_lt lowercase v b)
  refine ⟨?_, ?_, hcompare, ?_, ?_⟩
  · rw [key_eq h, length_packTriples, hlength]
    split <;> rfl
  · rw [key_eq h]
    exact (readWords_packTriples hne hwhole (keyCodes_lt lowercase v a) []).2
  · rw [keyLE_eq_isLE, hcompare]
  · rw [← Std.compare_eq_iff_eq, hcompare, Std.compare_eq_iff_eq]

/-- `É` in lower case, and what `lower` does to the rest. -/
def lowercaseAccented (word : String) : String :=
  String.ofList ((lower word).map fun c => if c = 'É' then 'é' else c)

theorem lowercases_accented : Lowercases lowercaseAccented := by
  intro word
  unfold lowercaseAccented
  rw [String.toList_ofList, List.forall₂_map_left_iff, List.forall₂_same]
  intro c _
  split
  · next heq =>
    subst heq
    exact .inr (by decide)
  · exact .inl rfl

/-- In a key of version 3, `Lampe` and `LAMPS` differ in their fifth code. No key tells the accented
    letters apart that lowercasing tells apart. -/
theorem lamps_keep_order :
    (key .v3 "LAMPS").length = 4 ∧ Machine.EndMarked (key .v3 "LAMPS") ∧
      compare (key .v3 "Lampe") (key .v3 "LAMPS") = .lt ∧ key .v5 "Élan" = key .v5 "élan" := by
  obtain ⟨hlength, hmarked, -⟩ := keys_keep_order lowercases_accented .v3 "LAMPS" ""
  refine ⟨hlength, hmarked, ?_, ?_⟩
  · rw [(keys_keep_order lowercases_accented .v3 "Lampe" "LAMPS").2.2.1]
    decide +kernel
  · rw [(keys_keep_order lowercases_accented .v5 "Élan" "élan").2.2.2.2]
    decide +kernel

end Dictionary

end ZAssembler
