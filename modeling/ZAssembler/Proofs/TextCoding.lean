import Mathlib.Algebra.GroupWithZero.Nat
import ZAssembler.Proofs.TextReader
import ZAssembler.ZText

/-
  The text encoder against the machine's reader. `printCodes_charZchars` reads the Z-characters of
  one character back, `printCodes_zcharsFrom` those of a text with references, and
  `readWords_packTriples` the words they are packed in. What comes back is the text with a question
  mark for each character that a Z-string cannot hold.
-/

namespace ZAssembler.ZText

open Machine

/-- The character that the machine prints for `c`. -/
def shownChar (c : Char) : Char :=
  if c = '\n' ∨ (0x20 ≤ c.toNat ∧ c.toNat ≤ 0x7E) then c else '?'

/-- The text that the machine prints. -/
def shown (text : List Char) : List Char := text.map shownChar

/-! ## Rows of the alphabets -/

/-- The third alphabet of a version, and its first Z-character. -/
def signRow (v : Version) : List Char := if v = .v1 then alphabet2Early else alphabet2

def firstSign (v : Version) : Nat := if v = .v1 then 7 else 8

/-- The characters of a row are printed as they are, and their Z-characters from `first` on are
    those that the machine reads in the alphabet. -/
structure Row (v : Version) (alphabet : Alphabet) (first : Nat) (row : List Char) : Prop where
  reads : ∀ i < row.length, letter v alphabet (first + i) = row[i]?
  codes : 6 ≤ first ∧ first + row.length ≤ 32
  shows : ∀ c ∈ row, shownChar c = c

theorem shown_of_all {row : List Char} (h : row.all (fun c => decide (shownChar c = c)) = true) :
    ∀ c ∈ row, shownChar c = c :=
  fun c hc => of_decide_eq_true (List.all_eq_true.mp h c hc)

theorem row_lower (v : Version) : Row v .lower 6 alphabet0 :=
  ⟨by cases v <;> decide, by decide, shown_of_all (by decide)⟩

theorem row_upper (v : Version) : Row v .upper 6 alphabet1 :=
  ⟨by cases v <;> decide, by decide, shown_of_all (by decide)⟩

theorem row_sign (v : Version) : Row v .sign (firstSign v) (signRow v) :=
  ⟨by cases v <;> decide, by cases v <;> decide, shown_of_all (by cases v <;> decide)⟩

theorem Row.reads_at {v : Version} {alphabet : Alphabet} {first : Nat} {row : List Char}
    (h : Row v alphabet first row) {c : Char} {i : Nat} (hi : row.idxOf? c = some i) :
    letter v alphabet (first + i) = some (shownChar c) ∧ first + i < 32 := by
  obtain ⟨hlt, hc, -⟩ := List.idxOf?_eq_some_iff.mp hi
  have hmem : c ∈ row := hc ▸ List.getElem_mem hlt
  have hcodes := h.codes
  refine ⟨?_, by omega⟩
  rw [h.reads i hlt, List.getElem?_eq_getElem hlt, hc, h.shows c hmem]

/-! ## Characters -/

/-- What the encoder knows of the character of a glyph. -/
inductive Glyph.Of (v : Version) (c : Char) : Glyph → Prop
  | space (h : c = ' ') : Glyph.Of v c .space
  | newline (h : c = '\n') : Glyph.Of v c .newline
  | lower {i : Nat} (h : alphabet0.idxOf? c = some i) : Glyph.Of v c (.lower (6 + i))
  | upper {i : Nat} (h : alphabet1.idxOf? c = some i) : Glyph.Of v c (.upper (6 + i))
  | sign {i : Nat} (h : (signRow v).idxOf? c = some i) : Glyph.Of v c (.sign (firstSign v + i))
  | escape (h : c ≠ '\n') : Glyph.Of v c (.escape (escapeCode c))

theorem glyph_of (v : Version) (c : Char) : (glyph v c).Of v c := by
  unfold glyph
  split
  · next h => exact .space h
  · split
    · next h => exact .newline h
    · next h =>
      split
      · next hi => exact .lower hi
      · next hi => exact .upper hi
      · split
        · next hi => exact .sign hi
        · exact .escape h

/-- The code in an escape is that of the character that is printed. -/
theorem character_escapeCode {c : Char} (h : c ≠ '\n') :
    character (escapeCode c) = some (shownChar c) ∧ escapeCode c < 1024 := by
  by_cases hc : 0x20 ≤ c.toNat ∧ c.toNat ≤ 0x7E
  · have hcode : escapeCode c = c.toNat := if_pos hc
    have hshown : shownChar c = c := if_pos (.inr hc)
    have hne : c.toNat ≠ 13 := by omega
    rw [hcode, hshown, character, if_neg hne, if_pos hc, Char.ofNat_toNat]
    exact ⟨rfl, by omega⟩
  · have hcode : escapeCode c = 63 := if_neg hc
    have hshown : shownChar c = '?' := if_neg (by simp [h, hc])
    rw [hcode, hshown]
    decide

section Characters

variable (v : Version) (abbreviation : Nat → Option (List Char))

theorem printCodes_shift1 (codes : List Nat) :
    printCodes v abbreviation (shift1 v :: codes) =
      readCodes v abbreviation .lower (.letter .upper) codes := by
  cases v <;> rfl

theorem printCodes_shift2 (codes : List Nat) :
    printCodes v abbreviation (shift2 v :: codes) =
      readCodes v abbreviation .lower (.letter .sign) codes := by
  cases v <;> rfl

theorem readCodes_letter {alphabet : Alphabet} {code : Nat} {c : Char} (hcode : 6 ≤ code)
    (hescape : ¬ (alphabet = .sign ∧ code = 6)) (hc : letter v alphabet code = some c)
    (codes : List Nat) :
    readCodes v abbreviation .lower (.letter alphabet) (code :: codes) =
      (printCodes v abbreviation codes).map (c :: ·) := by
  rw [readCodes, if_neg (by omega), if_neg hescape, hc]
  rfl

theorem readCodes_escape {code : Nat} {c : Char} (hcode : code < 1024)
    (hc : character code = some c) (codes : List Nat) :
    readCodes v abbreviation .lower (.letter .sign) (6 :: code / 32 % 32 :: code % 32 :: codes) =
      (printCodes v abbreviation codes).map (c :: ·) := by
  have hjoin : 32 * (code / 32 % 32) + code % 32 = code := by omega
  have hread : readCodes v abbreviation .lower (.letter .sign)
      (6 :: code / 32 % 32 :: code % 32 :: codes) = (do
        let c ← character (32 * (code / 32 % 32) + code % 32)
        (printCodes v abbreviation codes).map (c :: ·)) := rfl
  rw [hread, hjoin, hc]
  rfl

theorem printCodes_newline (codes : List Nat) :
    printCodes v abbreviation (Glyph.newline.zchars v ++ codes) =
      (printCodes v abbreviation codes).map ('\n' :: ·) := by
  by_cases h : v = .v1
  · subst h
    rfl
  · have hseven : letter v .sign 7 = some '\n' := by simp [letter, signs, h]
    rw [Glyph.zchars, if_neg h, List.cons_append, printCodes_shift2]
    exact readCodes_letter v abbreviation (by decide) (by simp) hseven codes

/-- The machine reads the Z-characters of a character back. -/
theorem printCodes_charZchars (c : Char) (codes : List Nat) :
    printCodes v abbreviation (charZchars v c ++ codes) =
      (printCodes v abbreviation codes).map (shownChar c :: ·) := by
  unfold charZchars
  generalize hg : glyph v c = g
  have hof : g.Of v c := hg ▸ glyph_of v c
  cases hof with
  | space h =>
    subst h
    rfl
  | newline h =>
    subst h
    exact printCodes_newline v abbreviation codes
  | @lower i h =>
    exact readCodes_letter v abbreviation (by omega) (by simp) ((row_lower v).reads_at h).1 codes
  | @upper i h =>
    rw [Glyph.zchars, List.cons_append, printCodes_shift1]
    exact readCodes_letter v abbreviation (by omega) (by simp) ((row_upper v).reads_at h).1 codes
  | @sign i h =>
    have hfirst : 6 < firstSign v := by unfold firstSign; split <;> decide
    rw [Glyph.zchars, List.cons_append, printCodes_shift2]
    exact readCodes_letter v abbreviation (by omega) (fun hc => by omega)
      ((row_sign v).reads_at h).1 codes
  | escape h =>
    obtain ⟨hc, hlt⟩ := character_escapeCode h
    rw [Glyph.zchars, List.cons_append, printCodes_shift2]
    exact readCodes_escape v abbreviation hlt hc codes

/-- A Z-character has five bits. -/
theorem charZchars_lt (c : Char) : ∀ code ∈ charZchars v c, code < 32 := by
  have h1 : shift1 v < 32 := by cases v <;> decide
  have h2 : shift2 v < 32 := by cases v <;> decide
  unfold charZchars
  generalize hg : glyph v c = g
  have hof : g.Of v c := hg ▸ glyph_of v c
  cases hof with
  | space h => simp [Glyph.zchars]
  | newline h =>
    by_cases hv : v = .v1
    · simp [Glyph.zchars, hv]
    · simp [Glyph.zchars, hv, h2]
  | lower h => simp [Glyph.zchars, ((row_lower v).reads_at h).2]
  | upper h => simp [Glyph.zchars, h1, ((row_upper v).reads_at h).2]
  | sign h => simp [Glyph.zchars, h2, ((row_sign v).reads_at h).2]
  | escape h =>
    simp only [Glyph.zchars, List.mem_cons, List.not_mem_nil, or_false]
    omega

end Characters

/-! ## Texts with references -/

/-- What changes the abbreviations of an encoder. -/
inductive Call
  | register (text : String)
  | truncate (count : Nat)
  deriving DecidableEq, Repr

/-- The encoder after a call; one that is refused changes nothing. -/
def Encoder.perform (e : Encoder) : Call → Encoder
  | .register text =>
    match e.register text with
    | .ok (_, registered) => registered
    | .error _ => e
  | .truncate count => e.truncate count

/-- The encoder of a version after calls. -/
def Encoder.after (v : Version) (calls : List Call) : Encoder :=
  calls.foldl Encoder.perform { version := v }

/-- No abbreviation is empty, and the banks of the version hold them. -/
structure Encoder.Sound (e : Encoder) : Prop where
  nonempty : ∀ a ∈ e.abbreviations, a ≠ ""
  room : e.abbreviations.length ≤ e.limit

theorem Encoder.register_ok {e e' : Encoder} {text : String} {number : Nat}
    (h : e.register text = .ok (number, e')) :
    text ≠ "" ∧ e.abbreviations.length < e.limit ∧
      e' = { e with abbreviations := e.abbreviations ++ [text] } := by
  unfold register at h
  split at h
  · cases h
  · next htext =>
    split at h
    · cases h
    · next hroom =>
      cases h
      exact ⟨fun hempty => htext (by simp [hempty]), by omega, rfl⟩

theorem Encoder.Sound.perform {e : Encoder} (h : e.Sound) (call : Call) :
    (e.perform call).version = e.version ∧ (e.perform call).Sound := by
  cases call with
  | register text =>
    unfold Encoder.perform
    dsimp only
    split
    · next hregister =>
      obtain ⟨htext, hroom, rfl⟩ := register_ok hregister
      refine ⟨rfl, fun a ha => ?_, ?_⟩
      · rcases List.mem_append.mp ha with ha | ha
        · exact h.nonempty a ha
        · rw [List.mem_singleton.mp ha]
          exact htext
      · rw [List.length_append]
        exact hroom
    · exact ⟨rfl, h⟩
  | truncate count =>
    refine ⟨rfl, fun a ha => h.nonempty a (List.mem_of_mem_take ha), ?_⟩
    show (e.abbreviations.take count).length ≤ e.limit
    rw [List.length_take]
    exact Nat.le_trans (Nat.min_le_right _ _) h.room

theorem Encoder.sound_after (v : Version) (calls : List Call) :
    (after v calls).version = v ∧ (after v calls).Sound := by
  have hfold : ∀ (calls : List Call) (e : Encoder), e.version = v → e.Sound →
      (calls.foldl perform e).version = v ∧ (calls.foldl perform e).Sound := by
    intro calls
    induction calls with
    | nil => exact fun e hv hsound => ⟨hv, hsound⟩
    | cons call rest ih =>
      intro e hv hsound
      obtain ⟨hversion, hnext⟩ := hsound.perform call
      exact ih _ (hversion.trans hv) hnext
  exact hfold calls _ rfl ⟨fun a ha => (nomatch ha), Nat.zero_le _⟩

/-- The choice is an abbreviation that the text starts with. -/
theorem Encoder.longestFrom_some {text : List Char} {index : Nat} {candidates : List String}
    {i n : Nat} (h : longestFrom text index candidates = some (i, n)) :
    index ≤ i ∧ ∃ a, candidates[i - index]? = some a ∧ a.toList <+: text ∧ n = a.toList.length := by
  induction candidates generalizing index with
  | nil => cases h
  | cons a rest ih =>
    have hlater : longestFrom text (index + 1) rest = some (i, n) → index ≤ i ∧
        ∃ b, (a :: rest)[i - index]? = some b ∧ b.toList <+: text ∧ n = b.toList.length := by
      intro hrest
      obtain ⟨hi, b, hb, hprefix, hn⟩ := ih hrest
      refine ⟨by omega, b, ?_, hprefix, hn⟩
      rw [show i - index = i - (index + 1) + 1 by omega, List.getElem?_cons_succ, hb]
    have hfirst : a.toList.isPrefixOf text = true → some (index, a.toList.length) = some (i, n) →
        index ≤ i ∧ ∃ b, (a :: rest)[i - index]? = some b ∧ b.toList <+: text ∧
          n = b.toList.length := by
      intro hprefix heq
      cases heq
      exact ⟨Nat.le_refl _, a, by simp, List.isPrefixOf_iff_prefix.mp hprefix, rfl⟩
    unfold longestFrom at h
    dsimp only at h
    split at h
    · next hprefix =>
      split at h
      · next hrest =>
        split at h
        · exact hlater (hrest.trans h)
        · exact hfirst hprefix h
      · exact hfirst hprefix h
    · exact hlater h

theorem Encoder.longest_some {e : Encoder} {text : List Char} {i n : Nat}
    (h : e.longest text = some (i, n)) :
    ∃ a, e.abbreviations[i]? = some a ∧ a.toList <+: text ∧ n = a.toList.length := by
  obtain ⟨-, hfound⟩ := longestFrom_some h
  rwa [Nat.sub_zero] at hfound

/-- The number of an abbreviation, in the banks of a version that has them. -/
theorem Encoder.Sound.index_lt {e : Encoder} (h : e.Sound) {i : Nat} {a : String}
    (ha : e.abbreviations[i]? = some a) : i < e.version.abbreviationBanks * 32 := by
  obtain ⟨hi, -⟩ := List.getElem?_eq_some_iff.mp ha
  exact Nat.lt_of_lt_of_le hi h.room

theorem control_reference {v : Version} {i : Nat} (h : i < v.abbreviationBanks * 32) :
    1 + i / 32 < 6 ∧ Control.of v .lower (1 + i / 32) = .reference (i / 32) := by
  have hbank : i / 32 < v.abbreviationBanks := by omega
  have hall : ∀ v ∈ Version.all, ∀ bank < v.abbreviationBanks,
      1 + bank < 6 ∧ Control.of v .lower (1 + bank) = .reference bank := by decide
  exact hall v v.mem_all _ hbank

theorem printCodes_reference {v : Version} {i : Nat} (h : i < v.abbreviationBanks * 32)
    {abbreviation : Nat → Option (List Char)} {text : List Char}
    (htext : abbreviation i = some text) (codes : List Nat) :
    printCodes v abbreviation ((1 + i / 32) :: i % 32 :: codes) =
      (printCodes v abbreviation codes).map (text ++ ·) := by
  obtain ⟨hlt, hcontrol⟩ := control_reference h
  have hjoin : 32 * (i / 32) + i % 32 = i := by omega
  rw [printCodes, readCodes, if_pos hlt, hcontrol]
  dsimp only
  rw [readCodes, hjoin, htext]
  rfl

section Texts

variable {e : Encoder} (hsound : e.Sound) {substitute : Bool}

include hsound

/-- The machine reads the Z-characters of a text back, if it has the texts of the abbreviations that
    are referred to. -/
theorem printCodes_zcharsFrom {abbreviation : Nat → Option (List Char)}
    (htable : substitute = true → ∀ i a, e.abbreviations[i]? = some a →
      abbreviation i = some (shown a.toList)) (skip : Nat) (text : List Char) (codes : List Nat) :
    printCodes e.version abbreviation (e.zcharsFrom substitute skip text ++ codes) =
      (printCodes e.version abbreviation codes).map (shown (text.drop skip) ++ ·) := by
  fun_induction Encoder.zcharsFrom e substitute skip text with
  | case1 skip => simp [shown]
  | case2 skip c rest ih => rw [ih, List.drop_succ_cons]
  | case3 c rest i n hchosen ih =>
    cases substitute with
    | false => simp at hchosen
    | true =>
      obtain ⟨a, ha, ⟨tail, htail⟩, hn⟩ := Encoder.longest_some hchosen
      have hpos : 0 < n := by
        rw [hn, List.length_pos_iff]
        exact fun hempty =>
          hsound.nonempty a (List.mem_of_getElem? ha) (String.toList_eq_nil_iff.mp hempty)
      have hdrop : rest.drop (n - 1) = tail := by
        rw [← List.drop_succ_cons (a := c), Nat.sub_add_cancel hpos, ← htail, hn, List.drop_left]
      rw [List.cons_append, List.cons_append, printCodes_reference (hsound.index_lt ha)
        (htable rfl i a ha), ih, hdrop, Option.map_map, List.drop_zero, ← htail]
      simp [shown, Function.comp_def]
  | case4 c rest hchosen ih =>
    rw [List.append_assoc, printCodes_charZchars, ih, Option.map_map]
    simp [shown, Function.comp_def]

theorem zcharsFrom_lt (skip : Nat) (text : List Char) :
    ∀ code ∈ e.zcharsFrom substitute skip text, code < 32 := by
  fun_induction Encoder.zcharsFrom e substitute skip text with
  | case1 skip => simp
  | case2 skip c rest ih => exact ih
  | case3 c rest i n hchosen ih =>
    cases substitute with
    | false => simp at hchosen
    | true =>
      obtain ⟨a, ha, -⟩ := Encoder.longest_some hchosen
      have hbank := (control_reference (hsound.index_lt ha)).1
      intro code hcode
      rcases List.mem_cons.mp hcode with rfl | hcode
      · omega
      · rcases List.mem_cons.mp hcode with rfl | hcode
        · omega
        · exact ih code hcode
  | case4 c rest hchosen ih =>
    intro code hcode
    rcases List.mem_append.mp hcode with hcode | hcode
    · exact charZchars_lt e.version c code hcode
    · exact ih code hcode

end Texts

/-! ## Packing -/

/-- Codes that fill up a string print nothing. -/
theorem readCodes_padding (v : Version) (abbreviation : Nat → Option (List Char)) (count : Nat)
    (locked alphabet : Alphabet) :
    readCodes v abbreviation locked (.letter alphabet) (List.replicate count padCode) =
    some [] := by
  induction count generalizing locked alphabet with
  | zero => rfl
  | succ count ih =>
    rw [List.replicate_succ, readCodes, if_pos (by decide)]
    by_cases h : v.number ≤ 2
    · have hlock : Control.of v locked padCode = .lock locked.previous := if_pos h
      rw [hlock]
      exact ih _ _
    · have hshift : Control.of v locked padCode = .shift .sign := if_neg h
      rw [hshift]
      exact ih _ _

/-- Padding fills whole words, of which there is at least one. -/
theorem padded_eq (zchars : List Nat) :
    ∃ count, padded zchars = zchars ++ List.replicate count padCode ∧
      (padded zchars).length % 3 = 0 ∧ padded zchars ≠ [] := by
  unfold padded
  cases zchars with
  | nil => exact ⟨3, rfl, rfl, List.cons_ne_nil _ _⟩
  | cons z rest =>
    refine ⟨_, rfl, ?_, List.cons_ne_nil _ _⟩
    simp only [List.isEmpty_cons, Bool.false_eq_true, if_false, List.length_append,
      List.length_replicate]
    omega

theorem wordBytes_eq (w : UInt16) :
    ∃ high low, wordBytes w = [high, low] ∧ high.toNat * 256 + low.toNat = w.toNat := by
  have hw := w.toNat_lt
  refine ⟨_, _, rfl, ?_⟩
  rw [UInt8.toNat_ofNat', UInt8.toNat_ofNat']
  omega

/-- A word holds its three Z-characters and the mark. -/
theorem packedWord_eq {a b c : Nat} (ha : a < 32) (hb : b < 32) (hc : c < 32) (last : Bool) :
    wordCodes (packedWord a b c last).toNat = [a, b, c] ∧
      (32768 ≤ (packedWord a b c last).toNat ↔ last = true) := by
  have hword : (packedWord a b c last).toNat =
      (if last then 32768 else 0) + a * 1024 + b * 32 + c := by
    unfold packedWord
    rw [UInt16.toNat_ofNat']
    split <;> omega
  rw [hword]
  cases last with
  | false =>
    simp only [wordCodes, Bool.false_eq_true, if_false, List.cons.injEq, and_true, iff_false]
    omega
  | true =>
    simp only [wordCodes, if_true, List.cons.injEq, and_true, iff_true]
    omega

/-- The machine finds the Z-characters of whole triples again, and the end of the string. -/
theorem readWords_packTriples {zchars : List Nat} (hne : zchars ≠ [])
    (hlength : zchars.length % 3 = 0) (hlt : ∀ z ∈ zchars, z < 32) (rest : List UInt8) :
    readWords (packTriples zchars ++ rest) = some (zchars, rest) ∧
      EndMarked (packTriples zchars) := by
  fun_induction packTriples zchars with
  | case1 a b c more ih =>
    simp only [List.mem_cons, forall_eq_or_imp] at hlt
    obtain ⟨ha, hb, hc, hmore⟩ := hlt
    obtain ⟨hcodes, hmark⟩ := packedWord_eq ha hb hc more.isEmpty
    obtain ⟨high, low, hbytes, hword⟩ := wordBytes_eq (packedWord a b c more.isEmpty)
    rw [hbytes]
    rw [← hword] at hcodes hmark
    cases more with
    | nil =>
      have hlast := hmark.mpr rfl
      have hend : EndMarked [high, low] :=
        ⟨by simp, [], _, rfl, hlast, fun word h => nomatch h⟩
      refine ⟨?_, hend⟩
      show readWords (high :: low :: rest) = _
      rw [readWords]
      dsimp only
      rw [if_pos hlast, hcodes]
    | cons d more =>
      have hfirst : ¬ 32768 ≤ high.toNat * 256 + low.toNat := fun h => nomatch hmark.mp h
      have hthree : (d :: more).length % 3 = 0 := by
        simp only [List.length_cons] at hlength ⊢
        omega
      obtain ⟨hread, hwhole, front, last, hwords, hlast, hfront⟩ :=
        ih (List.cons_ne_nil _ _) hthree hmore
      refine ⟨?_, ?_, (high.toNat * 256 + low.toNat) :: front, last, ?_, hlast, ?_⟩
      · show readWords (high :: low :: (packTriples (d :: more) ++ rest)) = _
        rw [readWords]
        dsimp only
        rw [if_neg hfirst, hread, hcodes]
        rfl
      · simp only [List.cons_append, List.nil_append, List.length_cons]
        omega
      · show (high.toNat * 256 + low.toNat) :: wordsOf (packTriples (d :: more)) = _
        rw [hwords]
        rfl
      · simp only [List.mem_cons, forall_eq_or_imp]
        exact ⟨Nat.lt_of_not_le hfirst, hfront⟩
  | case2 zchars hshort =>
    -- fewer than three Z-characters are none
    match zchars with
    | [] => exact absurd rfl hne
    | [_] => simp at hlength
    | [_, _] => simp at hlength
    | a :: b :: c :: more => exact absurd rfl (hshort a b c more)

theorem length_packTriples (zchars : List Nat) :
    (packTriples zchars).length = 2 * (zchars.length / 3) := by
  fun_induction packTriples zchars with
  | case1 a b c rest ih =>
    simp only [List.length_append, length_wordBytes, ih, List.length_cons]
    omega
  | case2 zchars hshort =>
    rcases zchars with - | ⟨a, - | ⟨b, - | ⟨c, rest⟩⟩⟩
    · simp
    · simp
    · simp
    · exact absurd rfl (hshort a b c rest)

/-- A word for each three Z-characters, and one at least. -/
theorem length_pack (zchars : List Nat) :
    (pack zchars).length = 2 * ((max zchars.length 1 + 2) / 3) := by
  unfold pack padded
  rw [length_packTriples]
  cases zchars with
  | nil => rfl
  | cons z rest =>
    simp only [List.isEmpty_cons, Bool.false_eq_true, if_false, List.length_append,
      List.length_replicate, List.length_cons]
    omega

theorem length_zcharsFrom (e : Encoder) (text : List Char) :
    (e.zcharsFrom false 0 text).length =
    (text.map fun c => (charZchars e.version c).length).sum := by
  induction text with
  | nil => rfl
  | cons c rest ih =>
    show (charZchars e.version c ++ e.zcharsFrom false 0 rest).length = _
    rw [List.length_append, ih, List.map_cons, List.sum_cons]

theorem length_encodePlain (e : Encoder) (text : String) :
    (e.encodePlain text).length =
      2 * ((max (text.toList.map fun c => (charZchars e.version c).length).sum 1 + 2) / 3) := by
  unfold Encoder.encodePlain Encoder.zchars
  rw [length_pack, length_zcharsFrom]

section Strings

variable {e : Encoder} (hsound : e.Sound)

include hsound

theorem readString_pack (substitute : Bool) {abbreviation : Nat → Option (List Char)}
    (htable : substitute = true → ∀ i a, e.abbreviations[i]? = some a →
      abbreviation i = some (shown a.toList)) (text : String) (rest : List UInt8) :
    readString e.version abbreviation (pack (e.zchars substitute text) ++ rest) =
      some (shown text.toList, rest) ∧ EndMarked (pack (e.zchars substitute text)) := by
  obtain ⟨count, hpadded, hlength, hne⟩ := padded_eq (e.zchars substitute text)
  have hlt : ∀ z ∈ padded (e.zchars substitute text), z < 32 := by
    intro z hz
    rw [hpadded] at hz
    rcases List.mem_append.mp hz with hz | hz
    · exact zcharsFrom_lt hsound 0 text.toList z hz
    · rw [List.eq_of_mem_replicate hz]
      decide
  obtain ⟨hread, hmarked⟩ := readWords_packTriples hne hlength hlt rest
  refine ⟨?_, hmarked⟩
  have hprint : printCodes e.version abbreviation (padded (e.zchars substitute text)) =
      some (shown text.toList) := by
    have hpadding : printCodes e.version abbreviation (List.replicate count padCode) = some [] :=
      readCodes_padding e.version abbreviation count .lower .lower
    rw [hpadded, Encoder.zchars, printCodes_zcharsFrom hsound htable, hpadding, List.drop_zero]
    simp
  unfold readString pack
  rw [hread]
  dsimp only [Option.bind_eq_bind, Option.bind_some]
  rw [hprint]
  rfl

/-- A string without references reads the same whatever the abbreviations are. -/
theorem readString_encodePlain (abbreviation : Nat → Option (List Char)) (text : String)
    (rest : List UInt8) :
    readString e.version abbreviation (e.encodePlain text ++ rest) =
      some (shown text.toList, rest) ∧ EndMarked (e.encodePlain text) :=
  readString_pack hsound false (fun h => nomatch h) text rest

theorem readText_encode (text : String) (rest : List UInt8) :
    readText e.version (e.abbreviations.map e.encodePlain) (e.encode text ++ rest) =
      some (shown text.toList, rest) ∧ EndMarked (e.encode text) := by
  refine readString_pack hsound _ (fun _ i a ha => ?_) text rest
  have hplain := (readString_encodePlain hsound (fun _ => none) a []).1
  rw [List.append_nil] at hplain
  rw [List.getElem?_map, ha]
  show Option.map (·.1) (readString e.version (fun _ => none) (e.encodePlain a)) = _
  rw [hplain]
  rfl

end Strings

/-- Text survives coding, for every encoder that registering and forgetting abbreviations can make.
    The machine, which expands references from the abbreviations' own strings, reads from `encode`
    the text with a question mark for each character that is neither a new line nor printable ASCII;
    from `encodePlain` it reads the same with any table, so no reference is made. Both mark the last
    word and no other. -/
theorem text_survives_coding (v : Version) (calls : List Call) (text : String) (rest : List UInt8) :
    let e := Encoder.after v calls
    readText v (e.abbreviations.map e.encodePlain) (e.encode text ++ rest) =
        some (shown text.toList, rest) ∧
      EndMarked (e.encode text) ∧
      (∀ table, readText v table (e.encodePlain text ++ rest) = some (shown text.toList, rest)) ∧
      EndMarked (e.encodePlain text) := by
  obtain ⟨hv, hsound⟩ := Encoder.sound_after v calls
  intro e
  obtain ⟨hread, hmarked⟩ := readText_encode hsound text rest
  have hplain := fun table => readString_encodePlain hsound table text rest
  rw [hv] at hread hplain
  exact ⟨hread, hmarked, fun table => (hplain _).1, (hplain fun _ => none).2⟩

-- "the " is a reference, and so is "é!", which prints as its own string does
example :
    let e := Encoder.after .v2 [.register "the", .truncate 0, .register "é!", .register "the "]
    e.zchars true "the é!T" = [1, 1, 1, 0, 2, 25] ∧
      readText .v2 (e.abbreviations.map e.encodePlain) (e.encode "the é!T") =
        some ("the ?!T".toList, []) := by
  decide +kernel

end ZAssembler.ZText
