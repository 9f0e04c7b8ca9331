import ZAssembler.Assembly.State

/-
  The finished story: its length, its header and its checksum. The header is a list of patches; the
  words of the symbols it names are zero where a symbol has no value.
-/

namespace ZAssembler.Story

/-- The bytes that every pass keeps free for the header. -/
def headerSize : Nat := 64

def minSize : Nat := 512

/-- The length of a story for an image of length `length`: whole units, and at least `minSize`, as a
    32-bit number. -/
def lengthFor (v : Version) (length : Nat) : Nat :=
  let needed := max length minSize
  wrapAddress (needed + alignment v.lengthUnit needed)

/-- What the header holds that is no part of the program. -/
structure Identity where
  serial : String
  /-- The release number, if not the one that the program gives. -/
  release : Option UInt16 := none
  creator : Option String := none
  deriving DecidableEq, Repr

/-- The first `count` of the characters, filled up at the end. -/
def fitted (count : Nat) (filler : Char) (chars : List Char) : List UInt8 :=
  ((chars ++ List.replicate count filler).take count).map fun c => UInt8.ofNat c.toNat

/-- Six printable characters; others are left out. -/
def serialBytes (serial : String) : List UInt8 :=
  fitted 6 '0' (serial.toList.filter fun c => 0x21 ≤ c.toNat && c.toNat ≤ 0x7E)

/-- Four ASCII characters; others are left out. -/
def creatorBytes (creator : String) : List UInt8 :=
  fitted 4 ' ' (creator.toList.filter fun c => c.toNat < 0x80)

/-- The words that hold the values of symbols. -/
def symbolWords (v : Version) : List (Nat × String) :=
  [(0x04, "ENDLOD"), (0x06, "START"), (0x08, "VOCAB"), (0x0A, "OBJECT"), (0x0C, "GLOBAL"),
    (0x0E, "IMPURE"), (0x18, "WORDS")] ++
  if v.hasExtendedHeader then [(0x2E, "TCHARS"), (0x36, "EXTAB")] else []

def symbolWord (globals : SymbolTable) (name : String) : UInt16 :=
  (globals.valueOf name).elim 0 lowWord

/-- The bytes of the header and where they go, the checksum apart. -/
def headerPatches (v : Version) (id : Identity) (s : Assembly.State) (length : Nat) :
    List (Nat × List UInt8) :=
  let (routines, strings) := s.packing.headerOffsets
  [(0x00, [UInt8.ofNat v.number]),
    (0x01, [if s.timed then 0x02 else 0]),
    (0x02, wordBytes (id.release.getD (symbolWord s.globals "ZORKID")))] ++
  (symbolWords v).map (fun (addr, name) => (addr, wordBytes (symbolWord s.globals name))) ++
  [(0x10, wordBytes (if s.sound then 0x80 else 0)),
    (0x12, serialBytes id.serial),
    (0x1A, wordBytes (UInt16.ofNat (length / v.lengthUnit))),
    (0x28, wordBytes routines),
    (0x2A, wordBytes strings)] ++
  (id.creator.toList.map fun creator => (0x3C, creatorBytes creator))

/-- The sum of the bytes after the header. -/
def checksum (bytes : List UInt8) : UInt16 :=
  (bytes.drop headerSize).foldl (fun sum b => sum + b.toUInt16) 0

/-- The image with its final length, header and checksum. -/
def finish (v : Version) (id : Identity) (s : Assembly.State) : Image :=
  let length := lengthFor v s.image.length
  let headed := (headerPatches v id s length).foldl (fun im (addr, bytes) => im.patch addr bytes)
    (s.image.padTo length)
  headed.patchWord 0x1C (checksum headed.bytes.toList)

end ZAssembler.Story
