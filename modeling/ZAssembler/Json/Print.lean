import ZAssembler.Json

/-
  JSON text of values, in one line or indented by two blanks a level. In a string, quotes,
  backslashes and control characters are escaped, and all else stands for itself.
-/

namespace ZAssembler.Json

def leftBrace : Char := '\x7b'

def rightBrace : Char := '\x7d'

/-- Four hexadecimal digits. -/
def hexUnit (n : Nat) : List Char :=
  [n / 4096 % 16, n / 256 % 16, n / 16 % 16, n % 16].map Nat.digitChar

def escapedChar (c : Char) : List Char :=
  if c = '"' then ['\\', '"']
  else if c = '\\' then ['\\', '\\']
  else if c = '\x08' then ['\\', 'b']
  else if c = '\x0c' then ['\\', 'f']
  else if c = '\n' then ['\\', 'n']
  else if c = '\r' then ['\\', 'r']
  else if c = '\t' then ['\\', 't']
  else if c.toNat < 0x20 then '\\' :: 'u' :: hexUnit c.toNat
  else [c]

def quotedChars (s : String) : List Char := '"' :: s.toList.flatMap escapedChar ++ ['"']

def intChars (n : Int) : List Char :=
  if n < 0 then '-' :: Nat.toDigits 10 n.natAbs else Nat.toDigits 10 n.natAbs

/-- The text of a value that is neither array nor object. -/
def scalarChars : Json → List Char
  | .bool true => "true".toList
  | .bool false => "false".toList
  | .int n => intChars n
  | .real lexeme => lexeme.toList
  | .string s => quotedChars s
  | _ => "null".toList

/-! ## In one line -/

mutual

def chars : Json → List Char
  | .array items => '[' :: itemsChars items ++ [']']
  | .object members => leftBrace :: membersChars members ++ [rightBrace]
  | scalar => scalarChars scalar

def itemsChars : List Json → List Char
  | [] => []
  | [item] => chars item
  | item :: rest => chars item ++ ',' :: itemsChars rest

def membersChars : List (String × Json) → List Char
  | [] => []
  | [(name, value)] => quotedChars name ++ ':' :: chars value
  | (name, value) :: rest => quotedChars name ++ ':' :: chars value ++ ',' :: membersChars rest

end

def compact (j : Json) : String := String.ofList (chars j)

/-! ## Indented -/

def lineStart (level : Nat) : List Char := '\n' :: List.replicate (2 * level) ' '

mutual

def prettyChars (level : Nat) : Json → List Char
  | .array [] => ['[', ']']
  | .array items => '[' :: prettyItems (level + 1) items ++ lineStart level ++ [']']
  | .object [] => [leftBrace, rightBrace]
  | .object members =>
    leftBrace :: prettyMembers (level + 1) members ++ lineStart level ++ [rightBrace]
  | scalar => scalarChars scalar

def prettyItems (level : Nat) : List Json → List Char
  | [] => []
  | [item] => lineStart level ++ prettyChars level item
  | item :: rest => lineStart level ++ prettyChars level item ++ ',' :: prettyItems level rest

def prettyMembers (level : Nat) : List (String × Json) → List Char
  | [] => []
  | [(name, value)] => lineStart level ++ quotedChars name ++ [':', ' '] ++ prettyChars level value
  | (name, value) :: rest =>
    lineStart level ++ quotedChars name ++ [':', ' '] ++ prettyChars level value ++
      ',' :: prettyMembers level rest

end

def pretty (j : Json) : String := String.ofList (prettyChars 0 j)

end ZAssembler.Json
