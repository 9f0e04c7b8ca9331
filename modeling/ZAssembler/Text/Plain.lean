/-
  Text without control characters and without the control sequences of a terminal. A sequence
  begins with an escape character; what ends it depends on its second character. Controls that lay
  out text are kept. One of them inside a sequence, unless this is a string for a device or a
  program, begins a run of text that interrupts the sequence: the first character after it that is
  not text goes on with the sequence.
-/

namespace ZAssembler.Text

/-- How far a control sequence has been read. -/
inductive Sequence
  /-- Not in a sequence. -/
  | ground
  | escape
  | intermediate
  /-- A control sequence proper, up to its final character. -/
  | control
  | deviceEntry
  | deviceParameter
  | deviceIntermediate
  /-- A string for a device or a program, up to its terminator. -/
  | payload
  /-- A command to the system, up to a bell. -/
  | command
  deriving DecidableEq, Repr

namespace Sequence

/-- The controls that lay out text: tab, line feed, form feed, carriage return. -/
def isLayout (n : Nat) : Bool := n == 9 || n == 10 || n == 12 || n == 13

/-- The terminator of a payload may be a byte within the encoding of a character. -/
def endsPayload (c : Char) : Bool := 128 ≤ c.toNat && c.toString.toUTF8.data.contains 0x9C

/-- The state after a character that is not shown and does not begin or cancel a sequence. -/
def next (s : Sequence) (c : Char) : Sequence :=
  let n := c.toNat
  let within (lo hi : Nat) : Bool := lo ≤ n && n ≤ hi
  match s with
  | ground => ground
  | escape =>
    if within 0x20 0x2F then intermediate
    else if n == 0x5B then control
    else if n == 0x5D then command
    else if n == 0x50 then deviceEntry
    else if n == 0x58 || n == 0x5E || n == 0x5F then payload
    else if within 0x30 0x7E then ground
    else escape
  | intermediate => if within 0x30 0x7E then ground else intermediate
  | control => if within 0x40 0x7E then ground else control
  | deviceEntry =>
    if within 0x20 0x2F then deviceIntermediate
    else if within 0x30 0x3F then deviceParameter
    else if within 0x40 0x7E then payload
    else deviceEntry
  | deviceParameter =>
    if within 0x20 0x2F then deviceIntermediate
    else if within 0x3C 0x7E then payload
    else deviceParameter
  | deviceIntermediate => if within 0x30 0x7E then payload else deviceIntermediate
  | payload => if endsPayload c then ground else payload
  | command => if n == 7 then ground else command

/-- Text is shown outside a sequence, and what lays it out also where it interrupts a sequence. -/
def shows (s : Sequence) (c : Char) : Bool :=
  let n := c.toNat
  match s with
  | ground => isLayout n || (32 ≤ n && n ≠ 127)
  | escape | intermediate | control => isLayout n
  | _ => false

/-- An escape begins a sequence wherever it stands; cancel and substitute end one. -/
def hide (s : Sequence) (c : Char) : Sequence :=
  if c.toNat == 0x1B then escape
  else if c.toNat == 0x18 || c.toNat == 0x1A then ground
  else s.next c

/-- The sequence that is open after a character of text: a character outside ASCII closes the one
    that the text interrupts. -/
def afterText (s : Sequence) (c : Char) : Sequence := if c.toNat < 128 then s else ground

/-- The characters that are shown; `inText` says that the last one was. -/
def shown : (inText : Bool) → Sequence → List Char → List Char
  | _, _, [] => []
  | inText, s, c :: cs =>
    if (if inText then ground else s).shows c then c :: shown true (s.afterText c) cs
    else shown false (s.hide c) cs

end Sequence

/-- The text that remains when controls and control sequences are taken out. -/
def plain (text : String) : String := String.ofList (Sequence.shown false .ground text.toList)

end ZAssembler.Text
