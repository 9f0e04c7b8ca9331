import ZAssembler.Version

/-
  The instruction set. An opcode has a number whose range fixes its form (1 to 31 take two
  operands, 128 to 143 one, 176 to 191 none, 224 to 255 a variable number, from 256 on they are
  extended), a range of versions, a range of operand counts, and flags for what follows the
  operands. A mnemonic may name different opcodes in different versions.
-/

namespace ZAssembler

/-- The shape of an instruction's first bytes. -/
inductive Form
  | twoOp | oneOp | zeroOp | var | ext
  deriving DecidableEq, Repr

structure Opcode where
  name : String
  number : Nat
  firstVersion : Nat := 1
  lastVersion : Nat := 8
  minOperands : Nat
  maxOperands : Nat
  stores : Bool := false
  branches : Bool := false
  /-- An inline Z-string follows. -/
  printsText : Bool := false
  /-- The mnemonic that takes over above four operands. -/
  extra : Option String := none
  deriving DecidableEq, Repr, Inhabited

namespace Opcode

def form (op : Opcode) : Form :=
  if op.number ≤ 31 then .twoOp
  else if 128 ≤ op.number ∧ op.number ≤ 143 then .oneOp
  else if 176 ≤ op.number ∧ op.number ≤ 191 then .zeroOp
  else if 224 ≤ op.number ∧ op.number ≤ 255 then .var
  else .ext

/-- Opcodes that take more than four operands carry two operand-type bytes. -/
def hasDoubleTypes (op : Opcode) : Bool := 4 < op.maxOperands

def availableIn (op : Opcode) (v : Version) : Bool :=
  op.firstVersion ≤ v.number ∧ v.number ≤ op.lastVersion

/-! ## The table -/

private def op (name : String) (number minOperands maxOperands : Nat) : Opcode :=
  { name, number, minOperands, maxOperands }

private def st (o : Opcode) : Opcode := { o with stores := true }

private def br (o : Opcode) : Opcode := { o with branches := true }

private def text (o : Opcode) : Opcode := { o with printsText := true }

private def since (o : Opcode) (first : Nat) : Opcode := { o with firstVersion := first }

private def during (o : Opcode) (first last : Nat) : Opcode :=
  { o with firstVersion := first, lastVersion := last }

private def upTo (o : Opcode) (last : Nat) : Opcode := { o with lastVersion := last }

private def extraTo (o : Opcode) (name : String) : Opcode := { o with extra := some name }

/-- Every opcode; of two entries with one name, the versions do not overlap. -/
def table : List Opcode := [
  (op "EQUAL?" 1 2 4).br,
  (op "LESS?" 2 2 2).br,
  (op "GRTR?" 3 2 2).br,
  (op "DLESS?" 4 2 2).br,
  (op "IGRTR?" 5 2 2).br,
  (op "IN?" 6 2 2).br,
  (op "BTST" 7 2 2).br,
  (op "BOR" 8 2 2).st,
  (op "BAND" 9 2 2).st,
  (op "FSET?" 10 2 2).br,
  op "FSET" 11 2 2,
  op "FCLEAR" 12 2 2,
  op "SET" 13 2 2,
  op "MOVE" 14 2 2,
  (op "GET" 15 2 2).st,
  (op "GETB" 16 2 2).st,
  (op "GETP" 17 2 2).st,
  (op "GETPT" 18 2 2).st,
  (op "NEXTP" 19 2 2).st,
  (op "ADD" 20 2 2).st,
  (op "SUB" 21 2 2).st,
  (op "MUL" 22 2 2).st,
  (op "DIV" 23 2 2).st,
  (op "MOD" 24 2 2).st,
  (op "CALL2" 25 2 2).st.since 4,
  (op "ICALL2" 26 2 2).since 5,
  (op "COLOR" 27 2 3).since 5,
  (op "THROW" 28 2 2).since 5,
  (op "ZERO?" 128 1 1).br,
  (op "NEXT?" 129 1 1).st.br,
  (op "FIRST?" 130 1 1).st.br,
  (op "LOC" 131 1 1).st,
  (op "PTSIZE" 132 1 1).st,
  op "INC" 133 1 1,
  op "DEC" 134 1 1,
  op "PRINTB" 135 1 1,
  (op "CALL1" 136 1 1).st.since 4,
  op "REMOVE" 137 1 1,
  op "PRINTD" 138 1 1,
  op "RETURN" 139 1 1,
  op "JUMP" 140 1 1,
  op "PRINT" 141 1 1,
  (op "VALUE" 142 1 1).st,
  (op "BCOM" 143 1 1).st.upTo 4,
  (op "ICALL1" 143 1 1).since 5,
  op "RTRUE" 176 0 0,
  op "RFALSE" 177 0 0,
  (op "PRINTI" 178 0 0).text,
  (op "PRINTR" 179 0 0).text,
  op "NOOP" 180 0 0,
  (op "SAVE" 181 0 0).br.upTo 3,
  (op "SAVE" 181 0 0).st.during 4 4,
  (op "RESTORE" 182 0 0).br.upTo 3,
  (op "RESTORE" 182 0 0).st.during 4 4,
  op "RESTART" 183 0 0,
  op "RSTACK" 184 0 0,
  (op "FSTACK" 185 0 0).upTo 4,
  (op "CATCH" 185 0 0).st.since 5,
  op "QUIT" 186 0 0,
  op "CRLF" 187 0 0,
  (op "USL" 188 0 0).upTo 3,
  (op "VERIFY" 189 0 0).br.since 3,
  (op "ORIGINAL?" 191 0 0).br.since 5,
  (op "CALL" 224 1 4).st.extraTo "XCALL",
  op "PUT" 225 3 3,
  op "PUTB" 226 3 3,
  op "PUTP" 227 3 3,
  (op "READ" 228 1 4).upTo 4,
  (op "READ" 228 1 4).st.since 5,
  op "PRINTC" 229 1 1,
  op "PRINTN" 230 1 1,
  (op "RANDOM" 231 1 1).st,
  op "PUSH" 232 1 1,
  (op "POP" 233 0 1).upTo 5,
  (op "POP" 233 0 1).st.during 6 6,
  (op "POP" 233 0 1).since 7,
  (op "SPLIT" 234 1 1).since 3,
  (op "SCREEN" 235 1 1).since 3,
  (op "XCALL" 236 1 8).st.since 4,
  (op "CLEAR" 237 1 1).since 4,
  (op "ERASE" 238 1 1).since 4,
  (op "CURSET" 239 1 3).since 4,
  (op "CURGET" 240 1 1).since 4,
  (op "HLIGHT" 241 1 1).since 4,
  (op "BUFOUT" 242 1 1).since 4,
  (op "DIROUT" 243 1 4).since 3,
  (op "DIRIN" 244 1 1).since 3,
  (op "SOUND" 245 1 4).since 3,
  (op "INPUT" 246 1 3).st.since 4,
  (op "INTBL?" 247 3 4).st.br.since 4,
  (op "BCOM" 248 1 1).st.since 5,
  ((op "ICALL" 249 1 4).since 5).extraTo "IXCALL",
  (op "IXCALL" 250 1 8).since 5,
  (op "LEX" 251 2 4).since 5,
  (op "ZWSTR" 252 4 4).since 5,
  (op "COPYT" 253 3 3).since 5,
  (op "PRINTT" 254 2 4).since 5,
  (op "ASSIGNED?" 255 1 1).br.since 5,
  (op "SAVE" 256 0 4).st.since 5,
  (op "RESTORE" 257 0 4).st.since 5,
  (op "SHIFT" 258 2 2).st.since 5,
  (op "ASHIFT" 259 2 2).st.since 5,
  (op "FONT" 260 1 2).st.since 5,
  (op "DISPLAY" 261 1 3).during 6 6,
  (op "PICINF" 262 2 2).br.during 6 6,
  (op "DCLEAR" 263 1 3).during 6 6,
  (op "MARGIN" 264 2 3).during 6 6,
  (op "ISAVE" 265 0 0).st.since 5,
  (op "IRESTORE" 266 0 0).st.since 5,
  (op "PRINTU" 267 1 1).since 5,
  (op "CHECKU" 268 1 1).st.since 5,
  (op "WINPOS" 272 3 3).during 6 6,
  (op "WINSIZE" 273 3 3).during 6 6,
  (op "WINATTR" 274 2 3).during 6 6,
  (op "WINGET" 275 2 2).st.during 6 6,
  (op "SCROLL" 276 2 2).during 6 6,
  (op "FSTACK" 277 1 2).during 6 6,
  (op "MOUSE-INFO" 278 1 1).during 6 6,
  (op "MOUSE-LIMIT" 279 0 1).during 6 6,
  (op "XPUSH" 280 2 2).br.during 6 6,
  (op "WINPUT" 281 3 3).during 6 6,
  (op "PRINTF" 282 1 1).during 6 6,
  (op "MENU" 283 2 2).br.during 6 6,
  (op "PICSET" 284 1 1).during 6 6]

/-! ## Looking a mnemonic up -/

inductive Lookup
  | found (op : Opcode)
  /-- The mnemonic exists, but not in this version. -/
  | wrongVersion
  | unknown
  deriving DecidableEq, Repr

/-- The entry for a mnemonic, written in any ASCII case. -/
def lookup (name : String) (v : Version) : Lookup :=
  let upper := name.map Char.toUpper
  let entries := table.filter (·.name == upper)
  match entries.find? (·.availableIn v) with
  | some o => .found o
  | none => if entries.isEmpty then .unknown else .wrongVersion

/-- The entry for a mnemonic with `count` operands: above four, an opcode with an extra-operand
    variant gives way to it. -/
def select (name : String) (count : Nat) (v : Version) : Lookup :=
  match lookup name v with
  | .found o =>
    if 4 < count then
      match o.extra with
      | some other => lookup other v
      | none => .found o
    else .found o
  | other => other

end Opcode

end ZAssembler
