import Mathlib.Algebra.GroupWithZero.Nat
import ZAssembler.Abbreviation
import ZAssembler.Proofs.TextCoding

/-
  What the finder promises is what the encoder delivers. `Cut` reads a text from left to right and
  counts the places where a word stands, without overlap. The finder counts the same places in the
  bytes of all texts (`count_added`): a character begins where no other can go on, so that bytes
  match where characters do, and no word stands across a zero. The encoder refers to the word at
  these places and writes everything else as it is (`Cut.length_zcharsFrom`).
-/

namespace ZAssembler.Abbreviation

/-! ## Places of a word -/

/-- In the text, read from left to right, the word stands at this many places that do not
    overlap. -/
inductive Cut (word : List Char) : List Char → Nat → Prop
  | done : Cut word [] 0
  | pass {c : Char} {rest : List Char} {n : Nat} :
    ¬ word <+: c :: rest → Cut word rest n → Cut word (c :: rest) n
  | here {rest : List Char} {n : Nat} : Cut word rest n → Cut word (word ++ rest) (n + 1)

theorem exists_cut {word : List Char} (hword : word ≠ []) (text : List Char) :
    ∃ n, Cut word text n := by
  -- A place takes the whole word off, so the induction is on the length of what is left.
  induction hlength : text.length using Nat.strongRecOn generalizing text with
  | ind length ih =>
    cases text with
    | nil => exact ⟨0, .done⟩
    | cons c rest =>
      by_cases hplace : word <+: c :: rest
      · obtain ⟨more, hmore⟩ := hplace
        have hpos := List.length_pos_iff.mpr hword
        have hlengths := congrArg List.length hmore
        rw [List.length_append] at hlengths
        obtain ⟨n, hn⟩ := ih more.length (by omega) more rfl
        exact ⟨n + 1, hmore ▸ .here hn⟩
      · obtain ⟨n, hn⟩ := ih rest.length (by rw [← hlength]; simp) rest rfl
        exact ⟨n, .pass hplace hn⟩

/-- What ends before a character that the word does not have ends before what follows it. -/
theorem prefix_of_prefix_append_cons {word text rest : List Char} {c : Char} (hc : c ∉ word)
    (h : word <+: text ++ c :: rest) : word <+: text := by
  rcases List.prefix_or_prefix_of_prefix h (List.prefix_append text (c :: rest)) with hle | hle
  · exact hle
  · obtain ⟨more, rfl⟩ := hle
    rw [List.prefix_append_right_inj] at h
    cases more with
    | nil => simp
    | cons d more =>
      obtain ⟨rfl, -⟩ := List.cons_prefix_cons.mp h
      simp at hc

theorem Cut.append {word text rest : List Char} {c : Char} {m n : Nat} (hword : word ≠ [])
    (hc : c ∉ word) (h : Cut word text m) (hrest : Cut word rest n) :
    Cut word (text ++ c :: rest) (m + n) := by
  induction h with
  | done =>
    rw [Nat.zero_add]
    refine .pass (fun hplace => hword ?_) hrest
    exact List.prefix_nil.mp (prefix_of_prefix_append_cons hc hplace)
  | pass hnot _ ih => exact .pass (fun hplace => hnot (prefix_of_prefix_append_cons hc hplace)) ih
  | here _ ih =>
    rw [List.append_assoc, Nat.add_right_comm]
    exact .here ih

/-! ## Places in bytes -/

theorem utf8_cons (c : Char) (text : List Char) :
    utf8 (c :: text) = String.utf8EncodeChar c ++ utf8 text :=
  rfl

theorem utf8_append (text rest : List Char) : utf8 (text ++ rest) = utf8 text ++ utf8 rest :=
  List.flatMap_append

theorem utf8_eq_nil {text : List Char} (h : utf8 text = []) : text = [] := by
  cases text with
  | nil => rfl
  | cons c text =>
    rw [utf8_cons, List.append_eq_nil_iff] at h
    exact absurd h.1 String.utf8EncodeChar_ne_nil

/-- A character has one first byte. -/
theorem exists_firstByte (c : Char) : ∃ b others, String.utf8EncodeChar c = b :: others ∧
    b.IsUTF8FirstByte ∧ ∀ x ∈ others, ¬ x.IsUTF8FirstByte := by
  cases hbytes : String.utf8EncodeChar c with
  | nil => exact absurd hbytes String.utf8EncodeChar_ne_nil
  | cons b others =>
    have hat : ∀ (i : Nat) (hi : i < (b :: others).length),
        (b :: others)[i].IsUTF8FirstByte ↔ i = 0 := by
      rw [← hbytes]
      intro i hi
      exact UInt8.isUTF8FirstByte_getElem_utf8EncodeChar
    refine ⟨b, others, rfl, (hat 0 (by simp)).mpr rfl, fun x hx hfirst => ?_⟩
    obtain ⟨i, hi, rfl⟩ := List.getElem_of_mem hx
    have hzero := (hat (i + 1) (by simpa using hi)).mp (by simpa using hfirst)
    omega

/-- The bytes of a character do not begin those of another. -/
theorem encodeChar_append_inj {c d : Char} {bytes others : List UInt8}
    (h : String.utf8EncodeChar c ++ bytes = String.utf8EncodeChar d ++ others) : c = d := by
  have hdecode : ∀ (c : Char) (bytes : List UInt8),
      ((String.utf8EncodeChar c ++ bytes).toByteArray).utf8DecodeChar? 0 = some c := by
    intro c bytes
    rw [List.toByteArray_append]
    exact ByteArray.utf8DecodeChar?_utf8EncodeChar_append
  have hsome := hdecode c bytes
  rw [h, hdecode] at hsome
  exact (Option.some.inj hsome).symm

theorem prefix_of_utf8 {word text : List Char} (h : utf8 word <+: utf8 text) : word <+: text := by
  induction word generalizing text with
  | nil => exact List.nil_prefix
  | cons c word ih =>
    cases text with
    | nil =>
      have hnil := utf8_eq_nil (List.prefix_nil.mp h)
      cases hnil
    | cons d text =>
      obtain ⟨more, hmore⟩ := h
      rw [utf8_cons, utf8_cons, List.append_assoc] at hmore
      obtain rfl := encodeChar_append_inj hmore
      rw [List.cons_prefix_cons]
      exact ⟨rfl, ih ⟨more, List.append_cancel_left hmore⟩⟩

theorem countFrom_skip (needle : List UInt8) (found : Nat) (passed rest : List UInt8) :
    countFrom needle found passed.length (passed ++ rest) = countFrom needle found 0 rest := by
  induction passed with
  | nil => rfl
  | cons b passed ih =>
    rw [List.length_cons, List.cons_append, countFrom]
    exact ih

/-- Bytes that go on with a character are passed over. -/
theorem countFrom_others {b : UInt8} {needle : List UInt8} (hb : b.IsUTF8FirstByte) (found : Nat)
    {others : List UInt8} (hothers : ∀ x ∈ others, ¬ x.IsUTF8FirstByte) (rest : List UInt8) :
    countFrom (b :: needle) found 0 (others ++ rest) = countFrom (b :: needle) found 0 rest := by
  induction others with
  | nil => rfl
  | cons x others ih =>
    have hne : (b == x) = false := by
      rw [beq_eq_false_iff_ne]
      rintro rfl
      exact hothers b List.mem_cons_self hb
    rw [List.cons_append, countFrom, List.isPrefixOf, hne, Bool.false_and, if_neg (by simp)]
    exact ih fun y hy => hothers y (List.mem_cons_of_mem _ hy)

theorem Cut.countFrom_eq {word text : List Char} {n : Nat} (hword : word ≠ []) (h : Cut word text n)
    (found : Nat) : countFrom (utf8 word) found 0 (utf8 text) = found + n := by
  obtain ⟨first, word, rfl⟩ := List.exists_cons_of_ne_nil hword
  obtain ⟨b, others, hfirst, hb, -⟩ := exists_firstByte first
  have hneedle : utf8 (first :: word) = b :: (others ++ utf8 word) := by
    rw [utf8_cons, hfirst, List.cons_append]
  induction h generalizing found with
  | done => rfl
  | @pass c rest n hnot _ ih =>
    obtain ⟨x, more, hc, -, hmore⟩ := exists_firstByte c
    have hplace : ¬ (utf8 (first :: word)).isPrefixOf (x :: (more ++ utf8 rest)) = true := by
      rw [List.isPrefixOf_iff_prefix]
      intro hplace
      refine hnot (prefix_of_utf8 ?_)
      rw [utf8_cons c, hc]
      exact hplace
    rw [utf8_cons c, hc, List.cons_append, countFrom, if_neg hplace, hneedle,
      countFrom_others hb found hmore, ← hneedle]
    exact ih found
  | @here rest n _ ih =>
    have hplace :
        (utf8 (first :: word)).isPrefixOf (b :: (others ++ utf8 word ++ utf8 rest)) = true := by
      rw [List.isPrefixOf_iff_prefix, hneedle]
      exact ⟨utf8 rest, rfl⟩
    have hlength : (utf8 (first :: word)).length - 1 = (others ++ utf8 word).length := by
      rw [hneedle]
      rfl
    rw [utf8_append, hneedle, List.cons_append, countFrom, ← hneedle, if_pos hplace, hlength,
      countFrom_skip, ih (found + 1)]
    omega

theorem Cut.count_eq {word text : List Char} {n : Nat} (hword : word ≠ []) (h : Cut word text n) :
    countOccurrences (utf8 text) (utf8 word) = n := by
  have hne : (utf8 word).isEmpty = false := by
    rw [List.isEmpty_eq_false_iff]
    exact fun hnil => hword (utf8_eq_nil hnil)
  rw [countOccurrences, hne, if_neg (by simp), h.countFrom_eq hword, Nat.zero_add]

theorem Cut.of_nil {word : List Char} {n : Nat} (hword : word ≠ [])
    (h : Cut word [] n) : n = 0 := by
  rw [← h.count_eq hword]
  exact ite_self 0

/-! ## The texts of a finder -/

theorem utf8_gap (text : List Char) : gap :: utf8 text = utf8 ('\x00' :: text) :=
  rfl

theorem text_add {f : Finder} {text : String} {before : List Char} (hzero : '\x00' ∉ text.toList)
    (hbefore : f.text.toList = utf8 before) :
    (f.add text).text.toList = utf8
      (if text.toList = [] then before
       else if before = [] then text.toList else before ++ '\x00' :: text.toList) := by
  have hkept : text.toList.filter (· != '\x00') = text.toList := by
    refine List.filter_eq_self.mpr fun c hc => ?_
    rw [bne_iff_ne]
    rintro rfl
    exact hzero hc
  by_cases hempty : text.toList = []
  · rw [if_pos hempty, ← hbefore, Finder.add, if_pos (by simpa using hempty)]
  · rw [if_neg hempty, Finder.add, if_neg (by simpa using hempty), hkept]
    by_cases hfirst : before = []
    · subst hfirst
      have hnone : f.text = #[] := by simpa [utf8] using hbefore
      simp [hnone]
    · have hsome : f.text.isEmpty = false := by
        rw [Array.isEmpty_eq_false_iff]
        intro hnone
        rw [hnone] at hbefore
        exact hfirst (utf8_eq_nil hbefore.symm)
      simp [hsome, hfirst, hbefore, utf8_append, ← utf8_gap]

/-- In the text of a finder a word stands where it stands in the texts that were added. -/
theorem count_added {word : List Char} (hword : word ≠ []) (hzero : '\x00' ∉ word)
    {texts : List String} (htexts : ∀ t ∈ texts, '\x00' ∉ t.toList) {f : Finder}
    {before : List Char} {n : Nat} (hbefore : f.text.toList = utf8 before)
    (hn : Cut word before n) :
    countOccurrences (texts.foldl Finder.add f).text.toList (utf8 word) =
      n + (texts.map fun t => countOccurrences (utf8 t.toList) (utf8 word)).sum := by
  induction texts generalizing f before n with
  | nil =>
    rw [List.foldl_nil, hbefore, hn.count_eq hword]
    rfl
  | cons t texts ih =>
    obtain ⟨ht, htexts⟩ := List.forall_mem_cons.mp htexts
    obtain ⟨m, hm⟩ := exists_cut hword t.toList
    have hnext : Cut word (if t.toList = [] then before
        else if before = [] then t.toList else before ++ '\x00' :: t.toList) (n + m) := by
      split
      · next hempty =>
        rw [hempty] at hm
        rw [hm.of_nil hword]
        exact hn
      · split
        · next hfirst =>
          rw [hfirst] at hn
          rw [hn.of_nil hword, Nat.zero_add]
          exact hm
        · exact hn.append hword hzero hm
    rw [List.foldl_cons, ih htexts (text_add ht hbefore) hnext, List.map_cons, List.sum_cons,
      hm.count_eq hword, Nat.add_assoc]

/-! ## Candidates -/

/-- What holds of a candidate: its text is longer than a reference, and it has no zero. -/
structure Candidate.Sound (c : Candidate) : Prop where
  perUse : c.perUse + ZText.referenceCost = ZText.cost c.text.toList
  longer : ZText.referenceCost < ZText.cost c.text.toList
  noZero : '\x00' ∉ c.text.toList

theorem Candidate.Sound.ne_nil {c : Candidate} (h : c.Sound) : c.text.toList ≠ [] := by
  intro hnil
  have hlonger := h.longer
  rw [hnil] at hlonger
  exact absurd hlonger (by decide)

/-- The characters of tokens are those of the text. -/
theorem tokensFrom_all {p : Char → Prop} {before : Option Char} {run text : List Char}
    (hbefore : ∀ c ∈ before, p c) (hrun : ∀ c ∈ run, p c) (htext : ∀ c ∈ text, p c) :
    ∀ t ∈ tokensFrom before run text,
      (∀ c ∈ t.left, p c) ∧ (∀ c ∈ t.chars, p c) ∧ ∀ c ∈ t.right, p c := by
  have hreverse : ∀ c ∈ run.reverse, p c := fun c hc => hrun c (List.mem_reverse.mp hc)
  fun_induction tokensFrom before run text with
  | case1 before run hempty => exact fun t ht => by cases ht
  | case2 before run hempty =>
    refine List.forall_mem_singleton.mpr ⟨hbefore, hreverse, fun c hc => by cases hc⟩
  | case3 before run c rest hdelimiter hempty ih =>
    obtain ⟨hc, hrest⟩ := List.forall_mem_cons.mp htext
    exact ih (fun d hd => Option.some.inj hd ▸ hc) (fun d hd => by cases hd) hrest fun d hd => by
      cases hd
  | case4 before run c rest hdelimiter hempty ih =>
    obtain ⟨hc, hrest⟩ := List.forall_mem_cons.mp htext
    refine List.forall_mem_cons.mpr ⟨⟨hbefore, hreverse, fun d hd => Option.some.inj hd ▸ hc⟩, ?_⟩
    exact ih (fun d hd => Option.some.inj hd ▸ hc) (fun d hd => by cases hd) hrest fun d hd => by
      cases hd
  | case5 before run c rest hdelimiter ih =>
    obtain ⟨hc, hrest⟩ := List.forall_mem_cons.mp htext
    have hlonger : ∀ d ∈ c :: run, p d := List.forall_mem_cons.mpr ⟨hc, hrun⟩
    exact ih hbefore hlonger hrest fun d hd => hlonger d (List.mem_reverse.mp hd)

theorem offers_all {p : Char → Prop} {t : Token} (hleft : ∀ c ∈ t.left, p c)
    (hchars : ∀ c ∈ t.chars, p c) (hright : ∀ c ∈ t.right, p c) :
    ∀ text ∈ t.offers, ∀ c ∈ text, p c := by
  obtain ⟨left, chars, right⟩ := t
  cases left <;> cases right <;> simp_all [Token.offers, or_imp]

theorem offer_sound {candidates : Array Candidate} {text : List Char}
    (hcandidates : ∀ c ∈ candidates, c.Sound) (htext : '\x00' ∉ text) :
    ∀ c ∈ Finder.offer candidates text, c.Sound := by
  intro c hc
  unfold Finder.offer at hc
  dsimp only at hc
  split at hc
  · exact hcandidates c hc
  · split at hc
    · exact hcandidates c hc
    · next hcost =>
      rcases Array.mem_push.mp hc with hc | rfl
      · exact hcandidates c hc
      · have hlonger : ZText.referenceCost < ZText.cost text := Nat.not_le.mp hcost
        exact ⟨by rw [String.toList_ofList]; exact Nat.sub_add_cancel (Nat.le_of_lt hlonger),
          by rw [String.toList_ofList]; exact hlonger, by rw [String.toList_ofList]; exact htext⟩

theorem foldl_offer_sound {offers : List (List Char)} (hoffers : ∀ text ∈ offers, '\x00' ∉ text)
    {candidates : Array Candidate} (hcandidates : ∀ c ∈ candidates, c.Sound) :
    ∀ c ∈ offers.foldl Finder.offer candidates, c.Sound := by
  induction offers generalizing candidates with
  | nil => exact hcandidates
  | cons text offers ih =>
    obtain ⟨htext, hoffers⟩ := List.forall_mem_cons.mp hoffers
    exact ih hoffers (offer_sound hcandidates htext)

theorem add_sound {f : Finder} (hf : ∀ c ∈ f.candidates, c.Sound) (text : String) :
    ∀ c ∈ (f.add text).candidates, c.Sound := by
  unfold Finder.add
  split
  · exact hf
  · refine foldl_offer_sound (fun offered hoffered hzero => ?_) hf
    obtain ⟨t, ht, hoffer⟩ := List.mem_flatMap.mp hoffered
    have hkept : ∀ c ∈ text.toList.filter (· != '\x00'), c ≠ '\x00' := by
      intro c hc
      simpa using (List.mem_filter.mp hc).2
    obtain ⟨hleft, hchars, hright⟩ :=
      tokensFrom_all (fun c hc => by cases hc) (fun c hc => by cases hc) hkept t ht
    exact offers_all hleft hchars hright offered hoffer '\x00' hzero rfl

theorem foldl_add_sound {f : Finder} (hf : ∀ c ∈ f.candidates, c.Sound) (texts : List String) :
    ∀ c ∈ (texts.foldl Finder.add f).candidates, c.Sound := by
  induction texts generalizing f with
  | nil => exact hf
  | cons text texts ih => exact ih (add_sound hf text)

theorem mem_of_best {scores : List Scored} {s : Scored} (h : best scores = some s) :
    s ∈ scores := by
  induction scores generalizing s with
  | nil => cases h
  | cons first rest ih =>
    unfold best at h
    split at h
    · next t ht =>
      obtain rfl := Option.some.inj h
      split
      · exact List.mem_cons_of_mem _ (ih ht)
      · exact List.mem_cons_self
    · obtain rfl := Option.some.inj h
      exact List.mem_cons_self

/-- The first choice is a candidate that was scored on the whole text. -/
theorem first_of_results {f : Finder} {max : Nat} {choice : Choice} {others : List Choice}
    (h : f.results max = choice :: others) :
    ∃ c ∈ f.candidates, choice.text = c.text ∧
      choice.count = countOccurrences f.text.toList (utf8 c.text.toList) ∧
      choice.savings = savings choice.count c.perUse ∧ 0 < choice.savings := by
  unfold Finder.results at h
  cases max with
  | zero => cases h
  | succ max =>
    unfold selectFrom at h
    dsimp only at h
    split at h
    · cases h
    · next s hs =>
      obtain ⟨hchoice, -⟩ := List.cons.inj h
      obtain ⟨hmem, hsaves⟩ := List.mem_filter.mp (mem_of_best hs)
      obtain ⟨c, hc, rfl⟩ := List.mem_map.mp hmem
      subst hchoice
      exact ⟨c, Array.mem_toList_iff.mp hc, rfl, rfl, rfl, of_decide_eq_true hsaves⟩

/-! ## References -/

section References

open ZText

/-- The standard cost of a character is its cost in every version with the standard alphabets. -/
theorem length_charZchars {v : Version} (hv : v ≠ .v1) (c : Char) :
    (charZchars v c).length = charCost c := by
  have hglyph : glyph v c = glyph .standard c := by
    simp [glyph, hv, Version.standard]
  unfold charZchars charCost
  rw [hglyph]
  cases glyph .standard c <;> simp [Glyph.zchars, hv]

theorem length_plain {e : Encoder} (hv : e.version ≠ .v1) (text : List Char) :
    (e.zcharsFrom false 0 text).length = zcharCount text := by
  induction text with
  | nil => rfl
  | cons c text ih =>
    rw [zcharCount, ← ih, ← length_charZchars hv c, ← List.length_append]
    rfl

theorem zcharsFrom_skip (e : Encoder) (substitute : Bool) (passed rest : List Char) :
    e.zcharsFrom substitute passed.length (passed ++ rest) = e.zcharsFrom substitute 0 rest := by
  induction passed with
  | nil => rfl
  | cons c passed ih =>
    rw [List.length_cons, List.cons_append, Encoder.zcharsFrom]
    exact ih

theorem zcharCount_append (text rest : List Char) :
    zcharCount (text ++ rest) = zcharCount text + zcharCount rest := by
  induction text with
  | nil => rw [List.nil_append, zcharCount, Nat.zero_add]
  | cons c text ih => rw [List.cons_append, zcharCount, zcharCount, ih, Nat.add_assoc]

/-- Each place of the only abbreviation takes a reference, and everything else what it takes
    alone. -/
theorem Cut.length_zcharsFrom {e : Encoder} (hv : e.version ≠ .v1) {word : String}
    (habbreviations : e.abbreviations = [word]) (hword : word.toList ≠ [])
    {text : List Char} {n : Nat} (h : Cut word.toList text n) :
    (e.zcharsFrom true 0 text).length + n * zcharCount word.toList =
      zcharCount text + n * referenceCost := by
  have hlongest : ∀ text, e.longest text =
      if word.toList.isPrefixOf text then some (0, word.toList.length) else none := by
    intro text
    rw [Encoder.longest, habbreviations]
    rfl
  induction h with
  | done => simp [Encoder.zcharsFrom, zcharCount]
  | @pass c rest n hnot _ ih =>
    have hnone : e.longest (c :: rest) = none := by
      rw [hlongest, if_neg (by rw [List.isPrefixOf_iff_prefix]; exact hnot)]
    rw [Encoder.zcharsFrom, if_pos rfl, hnone]
    dsimp only
    rw [List.length_append, length_charZchars hv, zcharCount]
    omega
  | @here rest n _ ih =>
    obtain ⟨first, others, hfirst⟩ := List.exists_cons_of_ne_nil hword
    have hsome : e.longest (word.toList ++ rest) = some (0, word.toList.length) := by
      rw [hlongest, if_pos (by rw [List.isPrefixOf_iff_prefix]; exact List.prefix_append _ _)]
    have hcodes :
        e.zcharsFrom true 0 (word.toList ++ rest) = 1 :: 0 :: e.zcharsFrom true 0 rest := by
      rw [hfirst] at hsome ⊢
      rw [List.cons_append, Encoder.zcharsFrom, if_pos rfl, ← List.cons_append, hsome]
      dsimp only
      rw [List.length_cons, Nat.add_sub_cancel, zcharsFrom_skip]
    rw [hcodes, zcharCount_append, Nat.add_mul, Nat.add_mul]
    simp only [List.length_cons, referenceCost] at ih ⊢
    omega

end References

/-! ## Promise and delivery -/

/-- Z-characters of all the texts. -/
def totalZchars (e : ZText.Encoder) (substitute : Bool) (texts : List String) : Nat :=
  (texts.map fun t => (e.zchars substitute t).length).sum

theorem totalZchars_eq {e : ZText.Encoder} (hv : e.version ≠ .v1) {word : String}
    (habbreviations : e.abbreviations = [word]) (hword : word.toList ≠ []) (texts : List String) :
    totalZchars e true texts +
        (texts.map fun t => countOccurrences (utf8 t.toList) (utf8 word.toList)).sum *
          ZText.zcharCount word.toList =
      totalZchars e false texts +
        (texts.map fun t => countOccurrences (utf8 t.toList) (utf8 word.toList)).sum *
          ZText.referenceCost := by
  induction texts with
  | nil => simp [totalZchars]
  | cons t texts ih =>
    obtain ⟨n, hn⟩ := exists_cut hword t.toList
    have hlength := hn.length_zcharsFrom hv habbreviations hword
    have hplain := length_plain hv t.toList
    unfold totalZchars at ih ⊢
    simp only [List.map_cons, List.sum_cons, hn.count_eq hword, ZText.Encoder.zchars, hplain,
      Nat.add_mul] at ih ⊢
    omega

theorem register_first {v : Version} (hv : v ≠ .v1) {word : String} (hword : word.toList ≠ []) :
    ({ version := v } : ZText.Encoder).register word =
    .ok (0, { version := v, abbreviations := [word] }) := by
  have hroom : ¬ ({ version := v } : ZText.Encoder).limit ≤ ([] : List String).length := by
    cases v with
    | v1 => exact absurd rfl hv
    | v2 | v3 | v4 | v5 | v6 | v7 | v8 => decide
  rw [ZText.Encoder.register, if_neg (by simpa using hword)]
  exact if_neg hroom

/-- Only what occurs more than once is promised to save something. -/
theorem exists_more_of_savings_pos {count perUse : Nat} (h : 0 < savings count perUse) :
    ∃ more, count = more + 2 := by
  have hreference : ZText.referenceCost = 2 := rfl
  unfold savings at h
  match count with
  | 0 =>
    rw [hreference, Int.sub_mul] at h
    omega
  | 1 =>
    rw [hreference, Int.sub_mul] at h
    omega
  | more + 2 => exact ⟨more, rfl⟩

/-- The places of a word, each taken by a reference, save what is promised for them and the word
    itself, exactly if the cost of the word is the count of its Z-characters. -/
theorem saved_eq_iff {more perUse zchars plain short : Nat}
    (htotal : short + (more + 2) * zchars = plain + (more + 2) * ZText.referenceCost) :
    (plain : Int) - short = savings (more + 2) perUse + zchars ↔
      perUse + ZText.referenceCost = zchars := by
  have hreference : ZText.referenceCost = 2 := rfl
  have hpromise : savings (more + 2) perUse = (more : Int) * perUse + perUse - 2 := by
    unfold savings
    rw [hreference, show ((more + 2 : Nat) : Int) - 1 = more + 1 by omega, Int.add_mul, Int.one_mul]
    rfl
  rw [hreference, Nat.add_mul, Nat.add_mul] at htotal
  rw [hpromise, hreference]
  constructor
  · intro heq
    have hproduct : (more + 1) * (perUse + 2) = (more + 1) * zchars := by
      rw [Nat.add_mul, Nat.add_mul, Nat.mul_add]
      omega
    exact Nat.eq_of_mul_eq_mul_left (Nat.succ_pos more) hproduct
  · rintro rfl
    rw [Nat.mul_add] at htotal
    omega

/-- The first result of the optimizer, taken as the only abbreviation, saves what is promised and
    the text of its own definition, exactly if the count of the Z-characters of that text is no more
    than 32 bits hold. Else its cost has wrapped. -/
theorem promise_delivered {v : Version} (hv : v ≠ .v1) {texts : List String}
    (htexts : ∀ t ∈ texts, '\x00' ∉ t.toList) {max : Nat} {choice : Choice} {others : List Choice}
    (h : (texts.foldl Finder.add {}).results max = choice :: others) :
    ∃ e, ({ version := v } : ZText.Encoder).register choice.text = .ok (0, e) ∧
      ((totalZchars e false texts : Int) - totalZchars e true texts =
        choice.savings + (e.zchars false choice.text).length ↔
          (e.zchars false choice.text).length < 4294967296) := by
  obtain ⟨saved, count, word⟩ := choice
  obtain ⟨c, hc, hword, hcount, hsavings, hpos⟩ := first_of_results h
  dsimp only at hword hcount hsavings hpos ⊢
  subst hword
  have hsound := foldl_add_sound (f := {}) (fun c hc => by simp at hc) texts c hc
  have hbegin : ({} : Finder).text.toList = utf8 [] := rfl
  rw [count_added hsound.ne_nil hsound.noZero htexts hbegin .done, Nat.zero_add] at hcount
  have htotal :=
    totalZchars_eq (e := { version := v, abbreviations := [c.text] }) hv rfl hsound.ne_nil texts
  have hplain := length_plain (e := { version := v, abbreviations := [c.text] }) hv c.text.toList
  refine ⟨_, register_first hv hsound.ne_nil, ?_⟩
  rw [← hcount] at htotal
  rw [hsavings] at hpos ⊢
  rw [ZText.Encoder.zchars, hplain]
  obtain ⟨more, rfl⟩ := exists_more_of_savings_pos hpos
  rw [saved_eq_iff htotal, hsound.perUse, ZText.cost]
  exact Nat.mod_eq_iff_lt (by decide)

/-- A word with a character of two bytes, in two of three texts, one of which is empty. -/
theorem cafe_delivered :
    (["the café, the café!", "", "café café"].foldl Finder.add {}).results 2 = [⟨13, 4, "café"⟩] ∧
    ∃ e, ({ version := .v2 } : ZText.Encoder).register "café" = .ok (0, e) ∧
      (totalZchars e false ["the café, the café!", "", "café café"] : Int) -
          totalZchars e true ["the café, the café!", "", "café café"] =
        13 + (e.zchars false "café").length := by
  have hresults :
      (["the café, the café!", "", "café café"].foldl Finder.add {}).results 2 =
      [⟨13, 4, "café"⟩] := by
    decide +kernel
  obtain ⟨e, hregister, hdelivers⟩ := promise_delivered (v := .v2) (by decide) (by decide) hresults
  refine ⟨hresults, e, hregister, hdelivers.mpr ?_⟩
  cases hregister.symm.trans (register_first (v := .v2) (by decide) (by decide))
  decide +kernel

end ZAssembler.Abbreviation
