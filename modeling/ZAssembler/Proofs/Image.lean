import Mathlib.Algebra.Group.Nat.Defs
import ZAssembler.Image

/-
  The image under writing. As long as it stays below 2^32 bytes no address wraps: a write leaves
  what is below it alone, storing advances the cursor, and the bytes that were stored can be read
  back. The bound is on the image that results, since an image never shrinks by writing.
-/

namespace ZAssembler.Image

/-! ## Patches -/

theorem size_le_patchByte (im : Image) (addr : Nat) (value : UInt8) :
    im.size ≤ (im.patchByte addr value).size ∧ addr < (im.patchByte addr value).size := by
  rw [size_patchByte]
  omega

theorem size_le_patch (im : Image) (addr : Nat) (bytes : List UInt8) :
    im.size ≤ (im.patch addr bytes).size := by
  induction bytes generalizing im addr with
  | nil => exact Nat.le_refl _
  | cons b rest ih =>
    exact Nat.le_trans (size_le_patchByte im addr b).1 (ih _ _)

/-- The first byte of a patch lies in the image, so the next address does not wrap. -/
theorem patch_cons (im : Image) (addr : Nat) (b : UInt8) (rest : List UInt8)
    (h : (im.patch addr (b :: rest)).size < 2 ^ 32) :
    im.patch addr (b :: rest) = (im.patchByte addr b).patch (addr + 1) rest := by
  have hsize := size_le_patch (im.patchByte addr b) (wrapAddress (addr + 1)) rest
  have haddr := (size_le_patchByte im addr b).2
  rw [patch] at h ⊢
  rw [wrapAddress_of_lt (by omega)]

theorem readByte_patch_below (im : Image) (addr : Nat) (bytes : List UInt8)
    (h : (im.patch addr bytes).size < 2 ^ 32) {a : Nat} (ha : a < addr) :
    (im.patch addr bytes).readByte a = im.readByte a := by
  induction bytes generalizing im addr with
  | nil => rfl
  | cons b rest ih =>
    have heq := patch_cons im addr b rest h
    rw [heq] at h ⊢
    rw [ih _ _ h (by omega), readByte_patchByte, if_neg (by omega)]

/-- A patch leaves what is above it alone, and it stays within an image that reaches that far. -/
theorem patch_within (im : Image) (addr : Nat) (bytes : List UInt8) {length : Nat}
    (h : addr + bytes.length ≤ length) (hlength : length < 4294967296) :
    (length ≤ im.size → (im.patch addr bytes).size = im.size) ∧
      ∀ a, length ≤ a → (im.patch addr bytes).readByte a = im.readByte a := by
  induction bytes generalizing im addr with
  | nil => exact ⟨fun _ => rfl, fun _ _ => rfl⟩
  | cons b rest ih =>
    rw [List.length_cons] at h
    rw [patch, wrapAddress_of_lt (by omega)]
    obtain ⟨hsize, hbyte⟩ := ih (im.patchByte addr b) (addr + 1) (by omega)
    refine ⟨fun hl => ?_, fun a ha => ?_⟩
    · have hfirst : (im.patchByte addr b).size = im.size := by
        rw [size_patchByte]
        omega
      rw [hsize (by omega), hfirst]
    · rw [hbyte a ha, readByte_patchByte, if_neg (by omega)]

theorem readByte_truncate (im : Image) {length a : Nat} (h : a < length) :
    (im.truncate length).readByte a = im.readByte a := by
  unfold truncate readByte
  rw [Array.getD_eq_getD_getElem?, Array.getD_eq_getD_getElem?, Array.take_eq_extract,
    Array.getElem?_extract]
  by_cases ha : a < im.bytes.size
  · rw [if_pos (by omega), Nat.zero_add]
  · rw [if_neg (by omega), Array.getElem?_eq_none (by omega)]

/-! ## Storing -/

theorem size_le_store (im : Image) (bytes : List UInt8) : im.size ≤ (im.store bytes).size := by
  induction bytes generalizing im with
  | nil => exact Nat.le_refl _
  | cons b rest ih =>
    have hb : im.size ≤ (im.storeByte b).size := (size_le_patchByte im im.cursor b).1
    exact Nat.le_trans hb (ih (im.storeByte b))

/-- Storing a byte advances the cursor, which stays within the image. -/
theorem storeByte_eq (im : Image) (b : UInt8) (h : (im.storeByte b).size < 2 ^ 32) :
    im.storeByte b = (im.patchByte im.cursor b).seek (im.cursor + 1) := by
  have hsize : (im.storeByte b).size = (im.patchByte im.cursor b).size := rfl
  have haddr := (size_le_patchByte im im.cursor b).2
  unfold storeByte
  rw [wrapAddress_of_lt (by omega)]

theorem cursor_store_le (im : Image) (bytes : List UInt8) (h : (im.store bytes).size < 2 ^ 32)
    (hc : im.cursor ≤ im.size) :
    (im.store bytes).cursor = im.cursor + bytes.length ∧
      (im.store bytes).cursor ≤ (im.store bytes).size := by
  induction bytes generalizing im with
  | nil => exact ⟨rfl, hc⟩
  | cons b rest ih =>
    have hb : (im.storeByte b).size < 2 ^ 32 := Nat.lt_of_le_of_lt (size_le_store _ rest) h
    have heq := storeByte_eq im b hb
    have hcursor : (im.storeByte b).cursor = im.cursor + 1 := by rw [heq]; rfl
    have hsize : im.cursor < (im.storeByte b).size := (size_le_patchByte im im.cursor b).2
    obtain ⟨h1, h2⟩ := ih (im.storeByte b) h (by omega)
    refine ⟨?_, h2⟩
    rw [store, h1, hcursor, List.length_cons]
    omega

theorem size_store_le (im : Image) (bytes : List UInt8)
    (h : im.cursor + bytes.length < 4294967296) :
    (im.store bytes).size ≤ max im.size (im.cursor + bytes.length) := by
  induction bytes generalizing im with
  | nil => exact Nat.le_max_left _ _
  | cons b rest ih =>
    rw [List.length_cons] at h ⊢
    have hcursor : (im.storeByte b).cursor = im.cursor + 1 := wrapAddress_of_lt (by omega)
    have hsize : (im.storeByte b).size = max im.size (im.cursor + 1) :=
      size_patchByte im im.cursor b
    have hrest := ih (im.storeByte b) (by omega)
    rw [store]
    omega

theorem readByte_store_below (im : Image) (bytes : List UInt8)
    (h : (im.store bytes).size < 2 ^ 32) {a : Nat} (ha : a < im.cursor) :
    (im.store bytes).readByte a = im.readByte a := by
  induction bytes generalizing im with
  | nil => rfl
  | cons b rest ih =>
    have hb : (im.storeByte b).size < 2 ^ 32 := Nat.lt_of_le_of_lt (size_le_store _ rest) h
    have heq := storeByte_eq im b hb
    have hcursor : (im.storeByte b).cursor = im.cursor + 1 := by rw [heq]; rfl
    rw [store, ih (im.storeByte b) h (by omega), heq]
    show (im.patchByte im.cursor b).readByte a = _
    rw [readByte_patchByte, if_neg (by omega)]

/-- What is stored can be read back from where the cursor stood. -/
theorem readByte_store_at (im : Image) (bytes : List UInt8) (h : (im.store bytes).size < 2 ^ 32)
    (i : Nat) (hi : i < bytes.length) :
    (im.store bytes).readByte (im.cursor + i) = bytes[i] := by
  induction bytes generalizing im i with
  | nil => simp at hi
  | cons b rest ih =>
    have hb : (im.storeByte b).size < 2 ^ 32 := Nat.lt_of_le_of_lt (size_le_store _ rest) h
    have heq := storeByte_eq im b hb
    have hcursor : (im.storeByte b).cursor = im.cursor + 1 := by rw [heq]; rfl
    cases i with
    | zero =>
      rw [store, readByte_store_below (im.storeByte b) rest h (by omega), heq]
      show (im.patchByte im.cursor b).readByte im.cursor = b
      rw [readByte_patchByte, if_pos rfl]
    | succ i =>
      have := ih (im.storeByte b) h i (by simpa using hi)
      rw [hcursor, Nat.add_right_comm, Nat.add_assoc] at this
      exact this

/-- Images that read the same below `length` hold the same bytes there. -/
theorem take_eq_of_readByte {im im' : Image} {length : Nat} (h : length ≤ im.size)
    (h' : length ≤ im'.size) (hread : ∀ a, a < length → im.readByte a = im'.readByte a) :
    im.bytes.toList.take length = im'.bytes.toList.take length := by
  refine List.ext_getElem ?_ fun a ha ha' => ?_
  · simp only [size] at h h'
    simp [h, h']
  · simp only [List.length_take, Array.length_toList, Nat.lt_min] at ha ha'
    have heq := hread a ha.1
    simp only [readByte, Array.getD_eq_getD_getElem?, Array.getElem?_eq_getElem ha.2,
      Array.getElem?_eq_getElem ha'.2, Option.getD_some] at heq
    simpa using heq

end ZAssembler.Image
