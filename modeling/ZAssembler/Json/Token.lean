import ZAssembler.Json

/-
  JSON tokens. The text is read character by character: `Mode` says what the characters since the
  last token are part of, and `step` gives the tokens that a character completes and the mode after
  it. Numbers and literals end at the first character that cannot belong to them.
-/

namespace ZAssembler.Json

inductive Token
  | leftBracket | rightBracket | leftBrace | rightBrace | colon | comma
  /-- A number, `true`, `false` or `null`. -/
  | scalar (value : Json)
  /-- A string; none if it holds half a surrogate pair. -/
  | text (content : Option String)

/-- A part of a string: a character, or a UTF-16 unit written as an escape. -/
inductive Piece
  | char (c : Char)
  | unit (value : Nat)
  deriving DecidableEq, Repr

inductive Mode
  | between
  /-- Letters read so far, last first. -/
  | word (chars : List Char)
  /-- Characters of a number read so far, last first. -/
  | number (chars : List Char)
  /-- Parts of a string read so far, last first. -/
  | text (pieces : List Piece)
  /-- After a backslash. -/
  | escape (pieces : List Piece)
  /-- After a backslash and a `u`: digits still to come, and the value so far. -/
  | unit (pieces : List Piece) (left value : Nat)
  deriving DecidableEq, Repr

/-! ## Numbers and literals -/

def isDigit (c : Char) : Bool := '0' ≤ c && c ≤ '9'

/-- At least one digit, and nothing else. -/
def allDigits (chars : List Char) : Bool := !chars.isEmpty && chars.all isDigit

/-- An exponent, from its mark on, or nothing. -/
def isExponent : List Char → Bool
  | [] => true
  | e :: '+' :: rest => (e == 'e' || e == 'E') && allDigits rest
  | e :: '-' :: rest => (e == 'e' || e == 'E') && allDigits rest
  | e :: rest => (e == 'e' || e == 'E') && allDigits rest

/-- What may follow the integer part: a fraction, then an exponent. -/
def isFraction : List Char → Bool
  | '.' :: rest =>
    let digits := rest.takeWhile isDigit
    !digits.isEmpty && isExponent (rest.dropWhile isDigit)
  | rest => isExponent rest

def digitsValue (digits : List Char) : Nat :=
  digits.foldl (fun value c => value * 10 + (c.toNat - '0'.toNat)) 0

/-- A number has no leading zeros; without fraction and exponent it is an integer, except minus
    zero. -/
def numberValue? (chars : List Char) : Option Json :=
  let (negative, rest) := match chars with
    | '-' :: rest => (true, rest)
    | rest => (false, rest)
  let digits := rest.takeWhile isDigit
  let tail := rest.dropWhile isDigit
  let value := digitsValue digits
  if digits.isEmpty || (digits.head? == some '0' && 1 < digits.length) then none
  else if tail.isEmpty && !(negative && value == 0) then
    some (.int (if negative then -value else value))
  else if isFraction tail then some (.real (String.ofList chars))
  else none

def literal? (chars : List Char) : Option Json :=
  if chars = "null".toList then some .null
  else if chars = "true".toList then some (.bool true)
  else if chars = "false".toList then some (.bool false)
  else none

/-! ## Strings -/

def isHighSurrogate (u : Nat) : Bool := 0xD800 ≤ u && u < 0xDC00

def isLowSurrogate (u : Nat) : Bool := 0xDC00 ≤ u && u < 0xE000

/-- The text of a string's parts; none if a surrogate has no partner. -/
def joinPieces : List Piece → Option (List Char)
  | [] => some []
  | .char c :: rest => (joinPieces rest).map (c :: ·)
  | .unit high :: .unit low :: rest =>
    if isHighSurrogate high then
      if isLowSurrogate low then
        (joinPieces rest).map
          (Char.ofNat (0x10000 + (high - 0xD800) * 0x400 + (low - 0xDC00)) :: ·)
      else none
    else if isLowSurrogate high then none
    else (joinPieces (.unit low :: rest)).map (Char.ofNat high :: ·)
  | .unit u :: rest =>
    if isHighSurrogate u || isLowSurrogate u then none
    else (joinPieces rest).map (Char.ofNat u :: ·)

/-- The character a one-letter escape stands for. -/
def escaped? : Char → Option Char
  | '"' => some '"'
  | '\\' => some '\\'
  | '/' => some '/'
  | 'b' => some '\x08'
  | 'f' => some '\x0c'
  | 'n' => some '\n'
  | 'r' => some '\r'
  | 't' => some '\t'
  | _ => none

def hexDigit? (c : Char) : Option Nat :=
  if '0' ≤ c && c ≤ '9' then some (c.toNat - '0'.toNat)
  else if 'a' ≤ c && c ≤ 'f' then some (c.toNat - 'a'.toNat + 10)
  else if 'A' ≤ c && c ≤ 'F' then some (c.toNat - 'A'.toNat + 10)
  else none

/-! ## Reading characters -/

def isBlank (c : Char) : Bool := c == ' ' || c == '\t' || c == '\n' || c == '\r'

def isNumberChar (c : Char) : Bool :=
  isDigit c || c == '-' || c == '+' || c == '.' || c == 'e' || c == 'E'

def isLetter (c : Char) : Bool := 'a' ≤ c && c ≤ 'z'

/-- A character that continues no token. -/
def start (c : Char) : Option (List Token × Mode) :=
  if isBlank c then some ([], .between)
  else if c = '[' then some ([.leftBracket], .between)
  else if c = ']' then some ([.rightBracket], .between)
  else if c = '\x7b' then some ([.leftBrace], .between)
  else if c = '\x7d' then some ([.rightBrace], .between)
  else if c = ':' then some ([.colon], .between)
  else if c = ',' then some ([.comma], .between)
  else if c = '"' then some ([], .text [])
  else if c = '-' || isDigit c then some ([], .number [c])
  else if isLetter c then some ([], .word [c])
  else none

/-- The token of a value that ends where `c` stands, and what `c` starts. -/
def finishBefore (value : Option Json) (c : Char) : Option (List Token × Mode) :=
  match value, start c with
  | some v, some (tokens, mode) => some (.scalar v :: tokens, mode)
  | _, _ => none

def step : Mode → Char → Option (List Token × Mode)
  | .between, c => start c
  | .word chars, c =>
    if isLetter c then some ([], .word (c :: chars)) else finishBefore (literal? chars.reverse) c
  | .number chars, c =>
    if isNumberChar c then some ([], .number (c :: chars))
    else finishBefore (numberValue? chars.reverse) c
  | .text pieces, c =>
    if c = '"' then some ([.text ((joinPieces pieces.reverse).map String.ofList)], .between)
    else if c = '\\' then some ([], .escape pieces)
    else if c.toNat < 0x20 then none
    else some ([], .text (.char c :: pieces))
  | .escape pieces, c =>
    if c = 'u' then some ([], .unit pieces 4 0)
    else (escaped? c).map fun e => ([], .text (.char e :: pieces))
  | .unit pieces left value, c =>
    (hexDigit? c).map fun digit =>
      let value := value * 16 + digit
      if left ≤ 1 then ([], .text (.unit value :: pieces)) else ([], .unit pieces (left - 1) value)

/-- The token that the end of the text completes. -/
def finish : Mode → Option (List Token)
  | .between => some []
  | .word chars => (literal? chars.reverse).map fun v => [.scalar v]
  | .number chars => (numberValue? chars.reverse).map fun v => [.scalar v]
  | _ => none

/-- The tokens of a text read from `mode` on; `done` holds earlier tokens, last first. -/
def tokensFrom (done : List Token) (mode : Mode) : List Char → Option (List Token)
  | [] => (finish mode).map fun last => (last.reverse ++ done).reverse
  | c :: rest =>
    match step mode c with
    | some (tokens, mode) => tokensFrom (tokens.reverse ++ done) mode rest
    | none => none

def tokens? (text : List Char) : Option (List Token) := tokensFrom [] .between text

end ZAssembler.Json
