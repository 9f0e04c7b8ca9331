import ZAssembler.Assembly.Label
import ZAssembler.Assembly.Value
import ZAssembler.Dictionary

/-
  Directives that write data: numbers, strings, abbreviations, global variables, objects and
  property headers.
-/

namespace ZAssembler.Assembly

def maxGlobals : Nat := 240

/-- Variables below this number are the stack and the locals. -/
def firstGlobal : Nat := 16

def values (cx : Context) (width : Width) (es : List Expr) : Step Unit :=
  es.forM (writeValue cx width)

/-- Writes a value, or a zero word if there is none. -/
def writeDefault (cx : Context) (e : Option Expr) : Step Unit :=
  match e with
  | some e => writeValue cx .word e
  | none => storeWord 0

/-! ## Strings -/

def encodeText (text : String) : Step (List UInt8) := return (← get).encoder.encode text

/-- The number of words of a string, which has to fit a byte. -/
def storeLength (encoded : List UInt8) : Step Unit :=
  let words := encoded.length / 2
  if 255 < words then skip .stringTooLong else storeByte (UInt8.ofNat words)

def stringData (text : String) : Step Unit := do
  store (← encodeText text)
  collectText text

def countedString (text : String) : Step Unit := do
  storeLength (← encodeText text)
  stringData text

def stringLength (text : String) : Step Unit := do
  storeLength (← encodeText text)

def dictionaryWord (cx : Context) (text : String) : Step Unit :=
  store (Dictionary.key cx.version text)

/-- Pads to where a routine or string may start and gives its packed address, with a warning if
    that is too large for a word. -/
def placePacked (cx : Context) (kind : PackedKind) (name : String) : Step Nat := do
  let s ← get
  let (padding, packing) := s.packing.padding kind s.image.cursor
  set { s with packing }
  pad padding
  let packed := packing.pack kind (← position)
  if 0xFFFF < packed then warn cx (.packedOverflow packed name)
  return packed

def packedString (cx : Context) (name text : String) : Step Unit := do
  let packed ← placePacked cx .string name
  defineGlobal cx name .string (Int32.ofNat (packed % 65536))
  stringData text

/-- An abbreviation: registered for the strings that follow, and written without references at an
    even address; its symbol is the address in words. -/
def abbreviation (cx : Context) (name text : String) : Step Unit := do
  match (← get).encoder.register text with
  | .error error => skip (.abbreviation error name)
  | .ok (_, encoder) =>
    modify fun s => { s with encoder }
    if (← position) % 2 ≠ 0 then storeByte 0
    defineGlobal cx name .constant (Int32.ofNat ((← position) / 2))
    store (encoder.encodePlain text)

/-! ## Symbols -/

/-- An equate keeps the kind of a symbol it renames; any other value is a constant. -/
def equate (cx : Context) (name : String) (e : Expr) : Step Unit := do
  match ← evaluate cx e with
  | .known kind value =>
    let kind := match e with
      | .symbol _ => kind
      | _ => .constant
    defineGlobal cx name kind value
  | .unknown symbol =>
    addFixup { symbol, expr := e, target := .dependency }
    modify fun s => { s with globals := s.globals.mention name }

def globalVariable (cx : Context) (name : String) (default : Option Expr) : Step Unit := do
  let number := (← get).globalVars
  if maxGlobals ≤ number then skip (.tooManyGlobals name)
  modify fun s => { s with globalVars := number + 1 }
  defineGlobal cx name .var (Int32.ofNat (firstGlobal + number))
  writeDefault cx default

/-! ## Objects and properties -/

/-- How objects are stored in a version. -/
structure ObjectLayout where
  flagWords : Nat
  maxObjects : Nat
  linkWidth : Width
  maxPropertySize : Nat
  maxPropertyNumber : Nat
  deriving DecidableEq, Repr

def objectLayout (v : Version) : ObjectLayout :=
  if v.hasSmallObjects then ⟨2, 255, .byte, 8, 31⟩ else ⟨3, 65535, .word, 64, 63⟩

def object (cx : Context) (entry : ObjectEntry) : Step Unit := do
  let layout := objectLayout cx.version
  if layout.flagWords < entry.flags.length then
    skip (.tooManyFlagWords cx.version layout.flagWords entry.name)
  let count := (← get).objects
  if layout.maxObjects ≤ count then skip (.tooManyObjects entry.name)
  modify fun s => { s with objects := count + 1 }
  defineGlobal cx entry.name .object (Int32.ofNat (count + 1))
  values cx .word entry.flags
  pad (2 * (layout.flagWords - entry.flags.length))
  values cx layout.linkWidth [entry.parent, entry.sibling, entry.child]
  writeValue cx .word entry.properties

/-- The header of a property: one byte where objects are small, else one byte for the sizes 1 and
    2 and two bytes above. -/
def propertyHeader (v : Version) (size number : Nat) : List UInt8 :=
  if v.hasSmallObjects then [UInt8.ofNat (32 * (size - 1) + number)]
  else if size = 1 then [UInt8.ofNat number]
  else if size = 2 then [UInt8.ofNat (0x40 + number)]
  else [UInt8.ofNat (0x80 + number), UInt8.ofNat (0x80 + size % 64)]

def property (cx : Context) (size number : Expr) : Step Unit := do
  let size ← constant cx "Property size" size
  let number ← constant cx "Property number" number
  let layout := objectLayout cx.version
  if size.toInt < 1 ∨ layout.maxPropertySize < size.toInt then skip (.propertySize size)
  if number.toInt < 1 ∨ layout.maxPropertyNumber < number.toInt then skip (.propertyNumber number)
  store (propertyHeader cx.version size.toInt.toNat number.toInt.toNat)

end ZAssembler.Assembly
