import ZAssembler.Assemble
import ZAssembler.Proofs.Image

/-
  The story holds the image. The header and the checksum are written into the first 64 bytes, and
  the image is lengthened at its end (`padded`), so every byte from 64 on is the byte that the
  assembling pass left. The parts of the header do not overlap (`ranges_apart`), so each is read
  back as it was written (`readByte_part`). `finishStory_ok` says when there is a story and what it
  is.

  The length is a 32-bit number. An image of 2^32 bytes is cut where a story of fewer bytes is
  lengthened, and the length wraps to 0 if the last unit of an image reaches 2^32
  (`lengthFor_cases`).
-/

namespace ZAssembler

theorem dvd_add_alignment {divisor : Nat} (h : 0 < divisor) (position : Nat) :
    divisor ∣ position + alignment divisor position := by
  have hlt := Nat.mod_lt position h
  have hdiv := Nat.div_add_mod position divisor
  unfold alignment
  by_cases hzero : position % divisor = 0
  · rw [hzero, Nat.sub_zero, Nat.mod_self]
    exact Nat.dvd_of_mod_eq_zero hzero
  · have hpad : (divisor - position % divisor) % divisor = divisor - position % divisor :=
      Nat.mod_eq_of_lt (by omega)
    refine ⟨position / divisor + 1, ?_⟩
    rw [hpad, Nat.mul_add, Nat.mul_one]
    omega

theorem alignment_lt {divisor : Nat} (h : 0 < divisor) (position : Nat) :
    alignment divisor position < divisor :=
  Nat.mod_lt _ h

namespace Story

theorem length_fitted (count : Nat) (filler : Char) (chars : List Char) :
    (fitted count filler chars).length = count := by
  simp [fitted]

theorem symbolWords_within (v : Version) : ∀ word ∈ symbolWords v, word.1 + 2 ≤ headerSize := by
  cases v <;> decide

/-- Each part of the header lies in the header. -/
theorem headerPatches_within (v : Version) (id : Identity) (s : Assembly.State) (length : Nat) :
    ∀ patch ∈ headerPatches v id s length, patch.1 + patch.2.length ≤ headerSize := by
  intro patch h
  simp only [headerPatches, List.mem_append, List.mem_cons, List.mem_map, List.not_mem_nil,
    or_false] at h
  rcases h with ((h | ⟨word, hword, rfl⟩) | h) | ⟨creator, -, rfl⟩
  · rcases h with rfl | rfl | rfl <;> simp [headerSize]
  · have := symbolWords_within v word hword
    simpa using this
  · rcases h with rfl | rfl | rfl | rfl | rfl <;> simp [headerSize, serialBytes, length_fitted]
  · simp [headerSize, creatorBytes, length_fitted]

theorem patches_within (patches : List (Nat × List UInt8)) (im : Image)
    (h : ∀ patch ∈ patches, patch.1 + patch.2.length ≤ headerSize) (hsize : headerSize ≤ im.size) :
    (patches.foldl (fun im (addr, bytes) => im.patch addr bytes) im).size = im.size ∧
      ∀ a, headerSize ≤ a →
        (patches.foldl (fun im (addr, bytes) => im.patch addr bytes) im).readByte a =
          im.readByte a := by
  induction patches generalizing im with
  | nil => exact ⟨rfl, fun _ _ => rfl⟩
  | cons patch rest ih =>
    obtain ⟨hs, hb⟩ := im.patch_within patch.1 patch.2 (h patch List.mem_cons_self) (by decide)
    have hsize' := hs hsize
    obtain ⟨hs', hb'⟩ := ih (im.patch patch.1 patch.2)
      (fun p hp => h p (List.mem_cons_of_mem _ hp)) (by omega)
    exact ⟨hs'.trans hsize', fun a ha => (hb' a ha).trans (hb a ha)⟩

/-! ## The length -/

theorem lengthUnit_pos (v : Version) : 0 < v.lengthUnit := by
  cases v <;> decide

theorem lengthUnit_le (v : Version) : v.lengthUnit ≤ 8 := by
  cases v <;> decide

theorem lengthUnit_dvd_wrap (v : Version) : v.lengthUnit ∣ 2 ^ 32 := by
  cases v <;> decide

/-- A story has whole units, even where its length wraps. -/
theorem lengthUnit_dvd (v : Version) (length : Nat) : v.lengthUnit ∣ lengthFor v length :=
  (Nat.dvd_mod_iff (lengthUnit_dvd_wrap v)).mpr (dvd_add_alignment (lengthUnit_pos v) _)

theorem add_alignment_le {divisor position limit : Nat} (hpos : 0 < divisor)
    (hlimit : divisor ∣ limit) (h : position ≤ limit) :
    position + alignment divisor position ≤ limit := by
  obtain ⟨count, rfl⟩ := hlimit
  obtain ⟨units, hunits⟩ := dvd_add_alignment hpos position
  have hless := alignment_lt hpos position
  have hcount : units < count + 1 := by
    refine Nat.lt_of_mul_lt_mul_left (a := divisor) ?_
    rw [Nat.mul_add, Nat.mul_one]
    omega
  rw [hunits]
  exact Nat.mul_le_mul_left _ (Nat.le_of_lt_succ hcount)

/-- The length of a story wraps to 0 if the last unit of the image reaches 2^32. -/
theorem lengthFor_cases (v : Version) (length : Nat) (h : length < 2 ^ 32) :
    (lengthFor v length = 0 ∧ 2 ^ 32 < length + v.lengthUnit) ∨
      (length ≤ lengthFor v length ∧ minSize ≤ lengthFor v length) := by
  have hless := alignment_lt (lengthUnit_pos v) (max length minSize)
  have hle := lengthUnit_le v
  have hmin : minSize = 512 := rfl
  have hwhole := add_alignment_le (lengthUnit_pos v) (lengthUnit_dvd_wrap v)
    (Nat.max_le.mpr ⟨Nat.le_of_lt h, by decide⟩ : max length minSize ≤ 2 ^ 32)
  unfold lengthFor wrapAddress
  dsimp only
  omega

/-- A length that does not wrap is the image's or more. -/
theorem lengthFor_ge (v : Version) {length : Nat} (h : length + v.lengthUnit ≤ 2 ^ 32) :
    length ≤ lengthFor v length ∧ minSize ≤ lengthFor v length := by
  have hpos := lengthUnit_pos v
  obtain ⟨-, hwraps⟩ | hge := lengthFor_cases v length (by omega)
  · omega
  · exact hge

/-- The image with the length of its story. -/
def padded (v : Version) (im : Image) : Image := im.padTo (lengthFor v im.length)

theorem size_padTo_of_lt {im : Image} {length : Nat} (h : im.length < length) :
    (im.padTo length).size = length := by
  unfold Image.padTo
  rw [if_pos h]
  simp only [Image.size, Array.take_eq_extract, Array.size_append, Array.size_extract,
    Array.size_replicate]
  omega

theorem padTo_of_le {im : Image} {length : Nat} (h : length ≤ im.length) : im.padTo length = im :=
  if_neg (Nat.not_lt.mpr h)

theorem size_padTo {im : Image} (him : im.size < 2 ^ 32) (length : Nat) :
    (im.padTo length).size = max im.size length := by
  have hlength := Image.length_of_lt him
  by_cases h : im.length < length
  · rw [size_padTo_of_lt h]
    omega
  · rw [padTo_of_le (Nat.le_of_not_lt h)]
    omega

theorem readByte_padTo {im : Image} (him : im.size < 2 ^ 32) (length a : Nat) :
    (im.padTo length).readByte a = im.readByte a := by
  have hlength := Image.length_of_lt him
  by_cases h : im.length < length
  · have hsize : im.bytes.size ≤ length := (hlength ▸ Nat.le_of_lt h : im.size ≤ length)
    unfold Image.padTo Image.readByte
    rw [if_pos h, Array.take_eq_extract, Array.extract_eq_self_of_le hsize,
      Array.getD_eq_getD_getElem?, Array.getD_eq_getD_getElem?, Array.getElem?_append]
    split
    · rfl
    · rw [Array.getElem?_replicate, Array.getElem?_eq_none (by omega)]
      split <;> rfl
  · rw [padTo_of_le (Nat.le_of_not_lt h)]

theorem size_padded (v : Version) {im : Image} (him : im.size + v.lengthUnit ≤ 2 ^ 32) :
    (padded v im).size = lengthFor v im.size := by
  have hpos := lengthUnit_pos v
  have hlt : im.size < 2 ^ 32 := by omega
  have hge := lengthFor_ge v him
  unfold padded
  rw [size_padTo hlt, Image.length_of_lt hlt]
  omega

/-- The length of a story is what it should be, or it has wrapped and the story almost fills 2^32
    bytes. -/
theorem size_padded_cases (v : Version) (im : Image) :
    (padded v im).size = lengthFor v im.length ∨ 2 ^ 32 < (padded v im).size + v.lengthUnit := by
  have hlength : im.length = im.size % 2 ^ 32 := rfl
  unfold padded
  by_cases h : im.length < lengthFor v im.length
  · exact .inl (size_padTo_of_lt h)
  · rw [padTo_of_le (Nat.le_of_not_lt h)]
    have hpos := lengthUnit_pos v
    obtain hwraps | hge := lengthFor_cases v im.length (Nat.mod_lt _ (by decide))
    · omega
    · omega

/-- A story has `minSize` bytes or more, whatever the length of its image. -/
theorem minSize_le_padded (v : Version) (im : Image) : minSize ≤ (padded v im).size := by
  have hmin : minSize = 512 := rfl
  have hle := lengthUnit_le v
  have hmod : im.length ≤ im.size := Nat.mod_le _ _
  obtain hsize | hlong := size_padded_cases v im
  · obtain hwraps | hge := lengthFor_cases v im.length (Nat.mod_lt _ (by decide))
    · have hkept : padded v im = im := padTo_of_le (hwraps.1 ▸ Nat.zero_le _)
      rw [hkept]
      omega
    · exact hsize ▸ hge.2
  · omega

/-! ## The header -/

/-- The image with its final length and its header, the checksum apart. -/
def headed (v : Version) (id : Identity) (s : Assembly.State) : Image :=
  (headerPatches v id s (lengthFor v s.image.length)).foldl
    (fun im (addr, bytes) => im.patch addr bytes) (padded v s.image)

theorem finish_eq (v : Version) (id : Identity) (s : Assembly.State) :
    finish v id s =
    (headed v id s).patch 0x1C (wordBytes (checksum (headed v id s).bytes.toList)) :=
  rfl

theorem headerSize_le_padded (v : Version) (im : Image) : headerSize ≤ (padded v im).size :=
  Nat.le_trans (by decide) (minSize_le_padded v im)

theorem headed_keeps (v : Version) (id : Identity) (s : Assembly.State) :
    (headed v id s).size = (padded v s.image).size ∧
      ∀ a, headerSize ≤ a → (headed v id s).readByte a = (padded v s.image).readByte a :=
  patches_within _ _ (headerPatches_within v id s _) (headerSize_le_padded v s.image)

/-- Finishing a story writes its header and leaves the rest. -/
theorem finish_keeps (v : Version) (id : Identity) (s : Assembly.State) :
    (finish v id s).size = (padded v s.image).size ∧
      ∀ a, headerSize ≤ a → (finish v id s).readByte a = (padded v s.image).readByte a := by
  obtain ⟨hsize, hbyte⟩ := headed_keeps v id s
  have hroom := headerSize_le_padded v s.image
  have hsumEnd :
      0x1C + (wordBytes (checksum (headed v id s).bytes.toList)).length ≤ headerSize := by
    rw [length_wordBytes]
    decide
  rw [finish_eq]
  obtain ⟨hsum, hrest⟩ := (headed v id s).patch_within 0x1C _ hsumEnd (by decide)
  exact ⟨(hsum (hsize ▸ hroom)).trans hsize, fun a ha => (hrest a ha).trans (hbyte a ha)⟩

/-- The length of a story, if it does not wrap. -/
theorem size_finish (v : Version) (id : Identity) {s : Assembly.State}
    (h : s.image.size + v.lengthUnit ≤ 2 ^ 32) : (finish v id s).size = lengthFor v s.image.size :=
  (finish_keeps v id s).1.trans (size_padded v h)

/-- The patch writes the byte at `a`. -/
def Covers (patch : Nat × List UInt8) (a : Nat) : Prop :=
  patch.1 ≤ a ∧ a < patch.1 + patch.2.length

/-- No byte is written by both patches. -/
def Apart (p q : Nat × List UInt8) : Prop :=
  p.1 + p.2.length ≤ q.1 ∨ q.1 + q.2.length ≤ p.1

theorem readByte_patch (im : Image) {addr : Nat} {bytes : List UInt8}
    (h : addr + bytes.length < 4294967296) (a : Nat) :
    (Covers (addr, bytes) a → (im.patch addr bytes).readByte a = bytes.getD (a - addr) 0) ∧
      (¬ Covers (addr, bytes) a → (im.patch addr bytes).readByte a = im.readByte a) := by
  induction bytes generalizing im addr with
  | nil => exact ⟨fun ha => absurd ha.2 (Nat.not_lt.mpr ha.1), fun _ => rfl⟩
  | cons b rest ih =>
    rw [List.length_cons] at h
    rw [Image.patch, wrapAddress_of_lt (by omega)]
    have hrest : addr + 1 + rest.length < 4294967296 := by omega
    obtain ⟨hin, hout⟩ := ih (im.patchByte addr b) hrest
    unfold Covers at *
    rw [List.length_cons]
    dsimp only at *
    by_cases hfirst : a = addr
    · subst hfirst
      rw [hout (by omega), Image.readByte_patchByte, if_pos rfl, Nat.sub_self]
      exact ⟨fun _ => rfl, fun hno => absurd (by omega) hno⟩
    · refine ⟨fun ha => ?_, fun hno => ?_⟩
      · rw [hin (by omega), show a - addr = a - (addr + 1) + 1 by omega, List.getD_cons_succ]
      · rw [hout (by omega), Image.readByte_patchByte, if_neg hfirst]

section Patches

variable {patches : List (Nat × List UInt8)}
  (hwithin : ∀ patch ∈ patches, patch.1 + patch.2.length < 4294967296)

include hwithin

theorem readByte_patches_out (im : Image) {a : Nat} (h : ∀ patch ∈ patches, ¬ Covers patch a) :
    (patches.foldl (fun im (addr, bytes) => im.patch addr bytes) im).readByte a =
    im.readByte a := by
  induction patches generalizing im with
  | nil => rfl
  | cons patch rest ih =>
    rw [List.foldl_cons, ih (fun p hp => hwithin p (List.mem_cons_of_mem _ hp)) _
      fun p hp => h p (List.mem_cons_of_mem _ hp)]
    exact (readByte_patch im (hwithin patch List.mem_cons_self) a).2 (h patch List.mem_cons_self)

/-- What a patch writes can be read back, if no later patch writes there. -/
theorem readByte_patches_last (im : Image) {before after : List (Nat × List UInt8)}
    {patch : Nat × List UInt8} (heq : patches = before ++ patch :: after) {a : Nat}
    (ha : Covers patch a) (hafter : ∀ later ∈ after, ¬ Covers later a) :
    (patches.foldl (fun im (addr, bytes) => im.patch addr bytes) im).readByte a =
      patch.2.getD (a - patch.1) 0 := by
  subst heq
  rw [List.foldl_append, List.foldl_cons,
    readByte_patches_out (fun p hp => hwithin p (by simp [hp])) _ hafter]
  exact (readByte_patch _ (hwithin patch (by simp)) a).1 ha

/-- What a patch writes can be read back, if no other patch writes there. -/
theorem readByte_patches_in (im : Image) (hapart : patches.Pairwise Apart)
    {patch : Nat × List UInt8} (hmem : patch ∈ patches) {a : Nat} (ha : Covers patch a) :
    (patches.foldl (fun im (addr, bytes) => im.patch addr bytes) im).readByte a =
      patch.2.getD (a - patch.1) 0 := by
  obtain ⟨before, after, heq⟩ := List.append_of_mem hmem
  refine readByte_patches_last hwithin im heq ha fun later hlater hcovers => ?_
  rw [heq, List.pairwise_append, List.pairwise_cons] at hapart
  have hlaters := hapart.2.1.1 later hlater
  unfold Covers Apart at *
  omega

end Patches

/-! ## The parts of the header -/

/-- The word at an address of a story. -/
def wordAt (bytes : List UInt8) (addr : Nat) : Nat :=
  256 * (bytes.getD addr 0).toNat + (bytes.getD (addr + 1) 0).toNat

theorem wordAt_of_bytes {im : Image} {addr : Nat} {w : UInt16}
    (hhigh : im.readByte addr = UInt8.ofNat (w.toNat / 256))
    (hlow : im.readByte (addr + 1) = UInt8.ofNat w.toNat) :
    wordAt im.bytes.toList addr = w.toNat := by
  have hw := w.toNat_lt
  have hread : ∀ a, im.bytes.toList.getD a 0 = im.readByte a := fun a => by
    simp [Image.readByte, List.getD_eq_getElem?_getD, Array.getD_eq_getD_getElem?]
  unfold wordAt
  rw [hread, hread, hhigh, hlow, UInt8.toNat_ofNat', UInt8.toNat_ofNat']
  omega

/-- All that is written into the header. -/
def allPatches (v : Version) (id : Identity) (s : Assembly.State) : List (Nat × List UInt8) :=
  headerPatches v id s (lengthFor v s.image.length) ++
    [(0x1C, wordBytes (checksum (headed v id s).bytes.toList))]

theorem finish_patches (v : Version) (id : Identity) (s : Assembly.State) :
    finish v id s = (allPatches v id s).foldl (fun im (addr, bytes) => im.patch addr bytes)
      (padded v s.image) := by
  have hheaded : (headerPatches v id s (lengthFor v s.image.length)).foldl
      (fun im (addr, bytes) => im.patch addr bytes) (padded v s.image) =
        headed v id s := rfl
  rw [allPatches, List.foldl_append, hheaded, finish_eq, List.foldl_cons, List.foldl_nil]

/-- Where the parts of the header are and how long they are; `signed` if it names its creator. -/
def ranges (v : Version) (signed : Bool) : List (Nat × Nat) :=
  [(0x00, 1), (0x01, 1), (0x02, 2)] ++ (symbolWords v).map (fun word => (word.1, 2)) ++
    [(0x10, 2), (0x12, 6), (0x1A, 2), (0x28, 2), (0x2A, 2)] ++
    (if signed then [(0x3C, 4)] else []) ++
    [(0x1C, 2)]

theorem ranges_allPatches (v : Version) (id : Identity) (s : Assembly.State) :
    (allPatches v id s).map (fun patch => (patch.1, patch.2.length)) =
    ranges v id.creator.isSome := by
  cases hcreator :
    id.creator <;> simp [allPatches, headerPatches, ranges, serialBytes, creatorBytes,
    length_fitted, Function.comp_def, hcreator]

theorem ranges_apart (v : Version) (signed : Bool) :
    (ranges v signed).Pairwise fun p q => p.1 + p.2 ≤ q.1 ∨ q.1 + q.2 ≤ p.1 := by
  cases signed <;> cases v <;> decide +kernel

theorem ranges_within (v : Version) (signed : Bool) :
    ∀ range ∈ ranges v signed, range.1 + range.2 ≤ headerSize := by
  cases signed <;> cases v <;> decide +kernel

/-- The parts from 0x1E on. -/
theorem ranges_cases (v : Version) (signed : Bool) : ∀ range ∈ ranges v signed,
    range.1 + range.2 ≤ 0x1E ∨ (0x28 ≤ range.1 ∧ range.1 + range.2 ≤ 0x2C) ∨
      (5 ≤ v.number ∧ (range = (0x2E, 2) ∨ range = (0x36, 2))) ∨
      (signed = true ∧ range = (0x3C, 4)) := by
  cases signed <;> cases v <;> decide +kernel

section Parts

variable (v : Version) (id : Identity) (s : Assembly.State)

theorem allPatches_apart : (allPatches v id s).Pairwise Apart := by
  have hranges := ranges_apart v id.creator.isSome
  rw [← ranges_allPatches v id s, List.pairwise_map] at hranges
  exact hranges

theorem mem_ranges {patch : Nat × List UInt8} (h : patch ∈ allPatches v id s) :
    (patch.1, patch.2.length) ∈ ranges v id.creator.isSome := by
  rw [← ranges_allPatches v id s]
  exact List.mem_map_of_mem h

theorem allPatches_within : ∀ patch ∈ allPatches v id s, patch.1 + patch.2.length ≤ headerSize :=
  fun _ hpatch => ranges_within v _ _ (mem_ranges v id s hpatch)

theorem allPatches_fit : ∀ patch ∈ allPatches v id s, patch.1 + patch.2.length < 4294967296 :=
  fun patch hpatch => Nat.lt_of_le_of_lt (allPatches_within v id s patch hpatch) (by decide)

/-- The bytes of a part of the header. -/
theorem readByte_part {patch : Nat × List UInt8} (hmem : patch ∈ allPatches v id s) {a : Nat}
    (ha : Covers patch a) : (finish v id s).readByte a = patch.2.getD (a - patch.1) 0 := by
  rw [finish_patches]
  exact readByte_patches_in (allPatches_fit v id s) _ (allPatches_apart v id s) hmem ha

/-- The bytes between the parts are those of the image. -/
theorem readByte_between (him : s.image.size < 2 ^ 32) {a : Nat}
    (ha : ∀ range ∈ ranges v id.creator.isSome, ¬ (range.1 ≤ a ∧ a < range.1 + range.2)) :
    (finish v id s).readByte a = s.image.readByte a := by
  rw [finish_patches, readByte_patches_out (allPatches_fit v id s), padded, readByte_padTo him]
  exact fun patch hpatch => ha _ (mem_ranges v id s hpatch)

theorem wordAt_part {addr : Nat} {w : UInt16} (hmem : (addr, wordBytes w) ∈ allPatches v id s) :
    wordAt (finish v id s).bytes.toList addr = w.toNat := by
  refine wordAt_of_bytes ?_ ?_
  · rw [readByte_part v id s hmem ⟨Nat.le_refl _, by simp⟩, Nat.sub_self]
    rfl
  · rw [readByte_part v id s hmem ⟨Nat.le_add_right _ 1, by simp⟩, Nat.add_sub_cancel_left]
    rfl

/-- The story reaches beyond the header. -/
theorem headerSize_le_finish : headerSize ≤ (finish v id s).size := by
  rw [(finish_keeps v id s).1]
  exact headerSize_le_padded v s.image

theorem getElem?_finish {a : Nat} (ha : a < headerSize) :
    (finish v id s).bytes.toList[a]? = some ((finish v id s).readByte a) := by
  have hsize : a < (finish v id s).bytes.size := Nat.lt_of_lt_of_le ha (headerSize_le_finish v id s)
  rw [Array.getElem?_toList, Image.readByte, Array.getD_eq_getD_getElem?,
    Array.getElem?_eq_getElem hsize]
  rfl

theorem part_bytes {addr : Nat} {bytes : List UInt8} (hmem : (addr, bytes) ∈ allPatches v id s) :
    ((finish v id s).bytes.toList.drop addr).take bytes.length = bytes := by
  have hwithin : addr + bytes.length ≤ headerSize := allPatches_within v id s _ hmem
  refine List.ext_getElem? fun i => ?_
  rw [List.getElem?_take, List.getElem?_drop]
  split
  · next hi =>
    rw [getElem?_finish v id s (by omega),
      readByte_part v id s hmem ⟨Nat.le_add_right _ i, by simpa using hi⟩, Nat.add_sub_cancel_left]
    simp [hi]
  · next hi => rw [List.getElem?_eq_none (by omega)]

end Parts

end Story

end ZAssembler

namespace ZAssembler.Assembly

/-! ## Where a pass begins -/

theorem cursor_fill : (Image.fill {} Story.headerSize 0).cursor = Story.headerSize :=
  Image.cursor_store {} (List.replicate Story.headerSize 0) (by decide)

theorem size_fill : (Image.fill {} Story.headerSize 0).size = Story.headerSize := by
  decide +kernel

theorem readByte_fill (a : Nat) : (Image.fill {} Story.headerSize 0).readByte a = 0 := by
  have hbytes : (Image.fill {} Story.headerSize 0).bytes = Array.replicate 64 0 := by decide +kernel
  unfold Image.readByte
  rw [hbytes, Array.getD_eq_getD_getElem?, Array.getElem?_replicate]
  split <;> rfl

/-! ## The story -/

/-- There is a story if no error was reported and the image is not too long. -/
theorem finishStory_ok {o : Options} {v : Version} {story : AssembledStory} {s t : State}
    (h : finishStory o v s = .ok story t) :
    errorCount s.diagnostics.toList = 0 ∧ Story.lengthFor v s.image.length ≤ v.maxStorySize ∧
      story.bytes = (Story.finish v o.identity s).bytes.toList ∧ story.text = s.text ∧
      t.diagnostics = s.diagnostics ∧ t.handed = s.handed ++ s.debug := by
  unfold finishStory at h
  dsimp only at h
  split at h
  · nomatch h
  · next herrors =>
    split at h
    · nomatch h
    · next hlength =>
      injection h with hstory ht
      rw [← hstory, ← ht]
      refine ⟨Nat.eq_zero_of_not_pos herrors, Nat.le_of_not_lt hlength, ?_⟩
      simp only [and_self]

theorem maxStorySize_le (v : Version) : v.maxStorySize ≤ 2 ^ 19 := by
  cases v <;> decide

/-- From the header's end on the story holds the image. -/
theorem story_byte {o : Options} {v : Version} {story : AssembledStory} {s t : State}
    (h : finishStory o v s = .ok story t) (hfit : s.image.size < 2 ^ 32) {a : Nat}
    (hlow : Story.headerSize ≤ a) (hhigh : a < s.image.size) :
    story.bytes[a]? = some (s.image.readByte a) := by
  obtain ⟨-, -, hbytes, -⟩ := finishStory_ok h
  obtain ⟨hsize, hbyte⟩ := Story.finish_keeps v o.identity s
  rw [Story.padded, Story.size_padTo hfit] at hsize
  have ha : a < (Story.finish v o.identity s).bytes.size := by
    show a < (Story.finish v o.identity s).size
    omega
  rw [hbytes, ← Story.readByte_padTo hfit (Story.lengthFor v s.image.length) a, ← Story.padded,
    ← hbyte a hlow, Array.getElem?_toList]
  unfold Image.readByte
  rw [Array.getD_eq_getD_getElem?, Array.getElem?_eq_getElem ha]
  rfl

end ZAssembler.Assembly
