import ZAssembler.ZText

/-
  Dictionary words. A key is the lowercased word's Z-characters, cut or filled up to the version's
  key length, packed as a Z-string.
-/

namespace ZAssembler.Dictionary

/-- The lowercase of a character as far as a key can show it. Outside ASCII two characters have a
    lowercase that reaches into ASCII: dotted capital I, and the Kelvin sign. All others stay
    outside ASCII in either case, and Z-text writes each of them as a question mark. -/
def lowerChar (c : Char) : List Char :=
  if c = '\u0130' then ['i', '\u0307']
  else if c = '\u212a' then ['k']
  else [c.toLower]

def lower (word : String) : List Char := word.toList.flatMap lowerChar

/-- The Z-characters of a key. -/
def keyZchars (v : Version) (word : String) : List Nat :=
  let codes := (lower word).flatMap (ZText.charZchars v)
  let length := v.dictionaryKeyLength
  codes.take length ++ List.replicate (length - codes.length) ZText.padCode

def key (v : Version) (word : String) : List UInt8 := ZText.pack (keyZchars v word)

end ZAssembler.Dictionary
