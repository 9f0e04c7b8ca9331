import ZAssembler.Word

/-
  The story image: bytes from address 0 on, and the cursor where the next byte is stored. Bytes
  that were never written read as zero, and writing past the end fills the gap with zeros.
  Addresses wrap at 32 bits, and so does the length.
-/

namespace ZAssembler

structure Image where
  bytes : Array UInt8 := #[]
  cursor : Nat := 0
  deriving DecidableEq, Repr, Inhabited

namespace Image

/-- How many bytes there are. -/
def size (im : Image) : Nat := im.bytes.size

/-- The length as a 32-bit number: an image of 2^32 bytes has the length 0. -/
def length (im : Image) : Nat := wrapAddress im.size

def seek (im : Image) (addr : Nat) : Image := { im with cursor := addr }

/-- Overwrites the byte at `addr`; the cursor stays. -/
def patchByte (im : Image) (addr : Nat) (value : UInt8) : Image :=
  if h : addr < im.bytes.size then
    { im with bytes := im.bytes.set addr value }
  else
    { im with bytes := (im.bytes ++ Array.replicate (addr - im.bytes.size) 0).push value }

/-- Overwrites the bytes from `addr` on; the cursor stays. -/
def patch (im : Image) (addr : Nat) : List UInt8 → Image
  | [] => im
  | b :: rest => (im.patchByte addr b).patch (wrapAddress (addr + 1)) rest

def patchWord (im : Image) (addr : Nat) (value : UInt16) : Image := im.patch addr (wordBytes value)

/-- Stores a byte at the cursor and advances it. -/
def storeByte (im : Image) (value : UInt8) : Image :=
  (im.patchByte im.cursor value).seek (wrapAddress (im.cursor + 1))

def store (im : Image) : List UInt8 → Image
  | [] => im
  | b :: rest => (im.storeByte b).store rest

def storeWord (im : Image) (value : UInt16) : Image := im.store (wordBytes value)

def fill (im : Image) (count : Nat) (value : UInt8) : Image := im.store (List.replicate count value)

def readByte (im : Image) (addr : Nat) : UInt8 := im.bytes.getD addr 0

/-- The `count` bytes from `addr` on. -/
def read (im : Image) (addr count : Nat) : List UInt8 :=
  (List.range count).map fun i => im.readByte (wrapAddress (addr + i))

/-- Drops everything from `length` on and clamps the cursor to it. -/
def truncate (im : Image) (length : Nat) : Image :=
  { bytes := im.bytes.take length, cursor := min im.cursor length }

/-- Brings an image of a lesser length to `length` bytes: with zeros, or by a cut where the length
    has wrapped. -/
def padTo (im : Image) (length : Nat) : Image :=
  if im.length < length then
    { im with bytes := im.bytes.take length ++ Array.replicate (length - im.bytes.size) 0 }
  else im

theorem length_of_lt {im : Image} (h : im.size < 4294967296) : im.length = im.size :=
  wrapAddress_of_lt h

/-! ## What a byte reads as after a write -/

theorem readByte_patchByte (im : Image) (addr : Nat) (value : UInt8) (i : Nat) :
    (im.patchByte addr value).readByte i = if i = addr then value else im.readByte i := by
  unfold patchByte readByte
  split
  · next h =>
    by_cases hi : i = addr
    · subst hi
      simp [h]
    · simp [Array.getD_eq_getD_getElem?, hi, Ne.symm hi]
  · next h =>
    have hs : (im.bytes ++ Array.replicate (addr - im.bytes.size) (0 : UInt8)).size = addr := by
      simp only [Array.size_append, Array.size_replicate]
      omega
    rw [Array.getD_eq_getD_getElem?, Array.getD_eq_getD_getElem?, Array.getElem?_push, hs]
    by_cases hi : i = addr
    · simp [hi]
    · rw [if_neg hi, if_neg hi, Array.getElem?_append]
      split
      · rfl
      · next hb =>
        rw [Array.getElem?_replicate, Array.getElem?_eq_none (by omega)]
        split <;> rfl

theorem size_patchByte (im : Image) (addr : Nat) (value : UInt8) :
    (im.patchByte addr value).size = max im.size (addr + 1) := by
  unfold patchByte size
  split
  · simp only [Array.size_set]
    omega
  · simp only [Array.size_push, Array.size_append, Array.size_replicate]
    omega

@[simp] theorem cursor_patchByte (im : Image) (addr : Nat) (value : UInt8) :
    (im.patchByte addr value).cursor = im.cursor := by
  unfold patchByte
  split <;> rfl

@[simp] theorem cursor_patch (im : Image) (addr : Nat) (bytes : List UInt8) :
    (im.patch addr bytes).cursor = im.cursor := by
  induction bytes generalizing im addr with
  | nil => rfl
  | cons b rest ih => rw [patch, ih, cursor_patchByte]

/-- Storing advances the cursor by what is stored, as long as addresses do not wrap. -/
theorem cursor_store (im : Image) (bytes : List UInt8)
    (h : im.cursor + bytes.length < 4294967296) :
    (im.store bytes).cursor = im.cursor + bytes.length := by
  induction bytes generalizing im with
  | nil => rfl
  | cons b rest ih =>
    rw [List.length_cons] at h
    have hc : (im.storeByte b).cursor = im.cursor + 1 := wrapAddress_of_lt (by omega)
    rw [store, ih _ (by omega), hc, List.length_cons]
    omega

end Image

end ZAssembler
