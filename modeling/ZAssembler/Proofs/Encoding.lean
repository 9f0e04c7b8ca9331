import Mathlib.Algebra.Group.Nat.Defs
import ZAssembler.Proofs.Decoder

/-
  The encoder against the machine's reader. `locate_encode_append`: what `Bytecode.encode` makes of
  a request for an opcode of the table, the machine reads back as the opcode's number, the operands,
  the store byte and the branch of the request, each where the encoder reports it, and it leaves the
  inline text. `encode_fails_iff` says which requests cannot be encoded.

  Addresses are kept below 2^30, so that no branch offset wraps.
-/

namespace ZAssembler.Machine

open Bytecode

/-! ## The opcode table -/

/-- The opcode's number lies in the range of its form, and its operands fit the form's type
    bytes. -/
def formFits (op : Opcode) : Bool :=
  match op.form with
  | .twoOp => op.number < 32 && 2 ≤ op.minOperands && op.maxOperands ≤ 4
  | .oneOp => 128 ≤ op.number && op.number < 144 && op.minOperands = 1 && op.maxOperands = 1
  | .zeroOp => 176 ≤ op.number && op.number < 192 && op.number ≠ 190 && op.maxOperands = 0
  | .var => 224 ≤ op.number && op.number < 256 && op.maxOperands ≤ 8 &&
      op.hasDoubleTypes = decide (op.number = 236 ∨ op.number = 250)
  | .ext => 256 ≤ op.number && op.number < 512 && op.maxOperands ≤ 4 && 5 ≤ op.firstVersion

theorem table_formFits : ∀ op ∈ Opcode.table, formFits op = true := by
  decide +kernel

/-- What the assembler puts after the operands is what the machine expects there. -/
theorem table_follows : ∀ op ∈ Opcode.table, ∀ v ∈ Version.all, op.availableIn v = true →
    hasStore v op.number = op.stores ∧ hasBranch v op.number = op.branches ∧
      hasText op.number = op.printsText := by
  decide +kernel

/-! ## Operand types -/

theorem typeBits_lt (o : Operand) : o.typeBits < 3 := by
  cases o <;> simp [Operand.typeBits]

theorem slotBits_lt (operands : List Operand) (slot : Nat) : slotBits operands slot < 4 := by
  unfold slotBits
  cases operands[slot]? with
  | none => decide
  | some o =>
    have := typeBits_lt o
    simp only [Option.elim_some]
    omega

theorem unpackTypes_typeByte (operands : List Operand) (first : Nat) :
    unpackTypes (typeByte operands first) =
      [slotBits operands first, slotBits operands (first + 1), slotBits operands (first + 2),
        slotBits operands (first + 3)] := by
  have h0 := slotBits_lt operands first
  have h1 := slotBits_lt operands (first + 1)
  have h2 := slotBits_lt operands (first + 2)
  have h3 := slotBits_lt operands (first + 3)
  simp only [unpackTypes, typeByte, UInt8.toNat_ofNat', List.cons.injEq, and_true]
  refine ⟨?_, ?_, ?_, ?_⟩ <;> omega

/-- With a slot for each operand, the types up to the first empty slot are those of the operands. -/
theorem presentTypes_slots (operands : List Operand) (n : Nat) (h : operands.length ≤ n) :
    presentTypes ((List.range n).map (slotBits operands)) = operands.map Operand.typeBits := by
  unfold presentTypes
  induction operands generalizing n with
  | nil =>
    cases n with
    | zero => rfl
    | succ n => rw [List.range_succ_eq_map]; rfl
  | cons o os ih =>
    cases n with
    | zero => simp at h
    | succ n =>
      have ho : o.typeBits ≠ 3 := by have := typeBits_lt o; omega
      have hshift : slotBits (o :: os) ∘ Nat.succ = slotBits os := by
        funext i
        simp [slotBits]
      have hfirst : slotBits (o :: os) 0 = o.typeBits := rfl
      rw [List.range_succ_eq_map, List.map_cons, List.map_map, hshift, hfirst, List.takeWhile_cons,
        if_pos (by simpa using ho), ih n (by simpa using h), List.map_cons]

theorem presentTypes_typeByte (operands : List Operand) (h : operands.length ≤ 4) :
    presentTypes (unpackTypes (typeByte operands 0)) = operands.map Operand.typeBits := by
  rw [unpackTypes_typeByte]
  exact presentTypes_slots operands 4 h

theorem presentTypes_typeBytes (operands : List Operand) (h : operands.length ≤ 8) :
    presentTypes (unpackTypes (typeByte operands 0) ++ unpackTypes (typeByte operands 4)) =
      operands.map Operand.typeBits := by
  rw [unpackTypes_typeByte, unpackTypes_typeByte]
  exact presentTypes_slots operands 8 h

/-! ## Operands -/

theorem readOperand_bytes (o : Operand) (rest : List UInt8) :
    readOperand o.typeBits (o.bytes ++ rest) = some (o, rest) := by
  cases o with
  | word value =>
    have hv := value.toNat_lt
    have h : UInt16.ofNat ((value.toNat / 256) % 256 * 256 + value.toNat % 256) = value := by
      apply UInt16.toNat_inj.mp
      rw [UInt16.toNat_ofNat']
      omega
    simp [Operand.bytes, Operand.typeBits, wordBytes, readOperand, h]
  | byte value => rfl
  | var number => rfl

/-- Operands are read one after another, from the place of the first on. -/
theorem readOperands_bytes (operands : List Operand) (rest : List UInt8) {size : Nat} (start : Nat)
    (hsize : size = start + (operands.flatMap Operand.bytes ++ rest).length) :
    readOperands size (operands.map Operand.typeBits) (operands.flatMap Operand.bytes ++ rest) =
      some (operands.zip (offsetsFrom start operands), rest) := by
  induction operands generalizing start with
  | nil => rfl
  | cons o os ih =>
    rw [List.flatMap_cons, List.append_assoc, List.length_append] at hsize
    have hrest := ih (start + o.bytes.length) (by omega)
    have hplace : size - (o.bytes ++ (os.flatMap Operand.bytes ++ rest)).length = start := by
      rw [List.length_append]
      omega
    simp only [List.map_cons, List.flatMap_cons, List.append_assoc, readOperands,
      readOperand_bytes, Option.bind_eq_bind, Option.bind_some, hrest, hplace]
    rfl

/-! ## Opening bytes -/

/-- The table's operand counts, for a request that meets them. -/
def countFits (op : Opcode) (operands : List Operand) : Prop :=
  op.minOperands ≤ operands.length ∧ operands.length ≤ op.maxOperands

theorem readTypes_typeByte (number : Nat) (operands : List Operand) (rest : List UInt8)
    (hn : ¬ (number = 236 ∨ number = 250)) (h : operands.length ≤ 4) :
    readTypes number (typeByte operands 0 :: rest) =
      some ⟨number, operands.map Operand.typeBits, rest⟩ := by
  unfold readTypes
  dsimp only
  rw [if_neg hn, presentTypes_typeByte operands h]

theorem readTypes_typeBytes (number : Nat) (operands : List Operand) (rest : List UInt8)
    (hn : number = 236 ∨ number = 250) (h : operands.length ≤ 8) :
    readTypes number (typeByte operands 0 :: typeByte operands 4 :: rest) =
      some ⟨number, operands.map Operand.typeBits, rest⟩ := by
  unfold readTypes
  dsimp only
  rw [if_pos hn, presentTypes_typeBytes operands h]

/-- Two operands in the long form: bits 6 and 5 tell a variable from a byte. -/
theorem readOpening_long (v : Version) (number : Nat) (a b : Operand) (rest : List UInt8)
    (hn : number < 32) (ha : a.isWord = false) (hb : b.isWord = false) :
    readOpening v (UInt8.ofNat (number + (if a.isVar then 0x40 else 0) +
        (if b.isVar then 0x20 else 0)) :: rest) =
      some ⟨number, [a.typeBits, b.typeBits], rest⟩ := by
  have key : ∀ x y : Nat, x < 2 → y < 2 →
      readOpening v (UInt8.ofNat (number + x * 64 + y * 32) :: rest) =
        some ⟨number, [x + 1, y + 1], rest⟩ := by
    intro x y hx hy
    have hbyte : (UInt8.ofNat (number + x * 64 + y * 32)).toNat = number + x * 64 + y * 32 := by
      rw [UInt8.toNat_ofNat']; omega
    have h6 : (number + x * 64 + y * 32) / 64 % 2 = x := by omega
    have h5 : (number + x * 64 + y * 32) / 32 % 2 = y := by omega
    have hm : (number + x * 64 + y * 32) % 32 = number := by omega
    unfold readOpening
    dsimp only
    rw [hbyte, if_pos (by omega), h6, h5, hm]
    have bit : ∀ z : Nat, z < 2 → (if z = 1 then 2 else 1) = z + 1 := by
      intro z hz
      split <;> omega
    rw [bit x hx, bit y hy]
  cases a with
  | word _ => simp [Operand.isWord] at ha
  | byte _ =>
    cases b with
    | word _ => simp [Operand.isWord] at hb
    | byte _ => exact key 0 0 (by decide) (by decide)
    | var _ => exact key 0 1 (by decide) (by decide)
  | var _ =>
    cases b with
    | word _ => simp [Operand.isWord] at hb
    | byte _ => exact key 1 0 (by decide) (by decide)
    | var _ => exact key 1 1 (by decide) (by decide)

theorem readOpening_twoOpVar (v : Version) (number : Nat) (rest : List UInt8) (hn : number < 32) :
    readOpening v (UInt8.ofNat (0xC0 + number) :: rest) = readTypes number rest := by
  have hb : (UInt8.ofNat (0xC0 + number)).toNat = 0xC0 + number := by
    rw [UInt8.toNat_ofNat']; omega
  have hm : (0xC0 + number) % 32 = number := by omega
  unfold readOpening
  dsimp only
  rw [hb, if_neg (by omega), if_neg (by omega), if_neg (by omega), if_neg (by omega),
    if_pos (by omega), hm]

theorem readOpening_oneOp (v : Version) (number type : Nat) (rest : List UInt8)
    (hn : number < 16) (ht : type < 3) :
    readOpening v (UInt8.ofNat (0x80 + type * 16 + number) :: rest) =
      some ⟨128 + number, [type], rest⟩ := by
  have hb : (UInt8.ofNat (0x80 + type * 16 + number)).toNat = 0x80 + type * 16 + number := by
    rw [UInt8.toNat_ofNat']; omega
  have hm : (0x80 + type * 16 + number) % 16 = number := by omega
  have hd : (0x80 + type * 16 + number) / 16 % 4 = type := by omega
  unfold readOpening
  dsimp only
  rw [hb, if_neg (by omega), if_pos (by omega), hm, hd]

theorem readOpening_zeroOp (v : Version) (number : Nat) (rest : List UInt8)
    (hn : number < 16) (he : number ≠ 14) :
    readOpening v (UInt8.ofNat (0xB0 + number) :: rest) = some ⟨176 + number, [], rest⟩ := by
  have hb : (UInt8.ofNat (0xB0 + number)).toNat = 0xB0 + number := by
    rw [UInt8.toNat_ofNat']; omega
  have hm : (0xB0 + number) % 16 = number := by omega
  unfold readOpening
  dsimp only
  rw [hb, if_neg (by omega), if_neg (by omega), if_neg (by omega), if_pos (by omega), hm]

theorem readOpening_var (v : Version) (number : Nat) (rest : List UInt8)
    (hlo : 224 ≤ number) (hhi : number < 256) :
    readOpening v (UInt8.ofNat number :: rest) = readTypes number rest := by
  have hb : (UInt8.ofNat number).toNat = number := by
    rw [UInt8.toNat_ofNat']; omega
  unfold readOpening
  dsimp only
  rw [hb, if_neg (by omega), if_neg (by omega), if_neg (by omega), if_neg (by omega),
    if_neg (by omega)]

theorem readOpening_ext (v : Version) (number : Nat) (rest : List UInt8)
    (hv : 5 ≤ v.number) (hn : number < 256) :
    readOpening v (0xBE :: UInt8.ofNat number :: rest) = readTypes (256 + number) rest := by
  have hb : (UInt8.ofNat number).toNat = number := by
    rw [UInt8.toNat_ofNat']; omega
  have hbe : (0xBE : UInt8).toNat = 0xBE := rfl
  unfold readOpening
  dsimp only
  rw [hbe, if_neg (by omega), if_neg (by omega), if_pos ⟨rfl, hv⟩, hb]

theorem readOpening_opening (v : Version) (op : Opcode) (operands : List Operand)
    (rest : List UInt8) (hfits : formFits op = true) (hv : op.availableIn v = true)
    (hc : countFits op operands) :
    readOpening v (opening op operands ++ rest) =
      some ⟨op.number, operands.map Operand.typeBits, rest⟩ := by
  obtain ⟨hmin, hmax⟩ := hc
  unfold formFits at hfits
  unfold opening
  cases hform : op.form with
  | twoOp =>
    simp only [hform, Bool.and_eq_true, decide_eq_true_eq] at hfits
    obtain ⟨⟨hn, h2⟩, h4⟩ := hfits
    have hvar : readOpening v
        ([UInt8.ofNat (0xC0 + op.number % 32), typeByte operands 0] ++ rest) =
          some ⟨op.number, operands.map Operand.typeBits, rest⟩ := by
      rw [Nat.mod_eq_of_lt hn]
      exact (readOpening_twoOpVar v op.number _ hn).trans
        (readTypes_typeByte _ _ _ (by omega) (by omega))
    dsimp only
    split
    · next a b =>
      split
      · exact hvar
      · next hw =>
        simp only [Bool.or_eq_true, not_or, Bool.not_eq_true] at hw
        rw [Nat.mod_eq_of_lt hn]
        exact readOpening_long v op.number a b rest hn hw.1 hw.2
    · exact hvar
  | oneOp =>
    simp only [hform, Bool.and_eq_true, decide_eq_true_eq] at hfits
    obtain ⟨⟨⟨hlo, hhi⟩, h1⟩, h1'⟩ := hfits
    obtain ⟨o, rfl⟩ := List.length_eq_one_iff.mp (show operands.length = 1 by omega)
    have h := readOpening_oneOp v (op.number % 16) o.typeBits rest (by omega) (typeBits_lt o)
    rw [show 128 + op.number % 16 = op.number by omega] at h
    exact h
  | zeroOp =>
    simp only [hform, Bool.and_eq_true, decide_eq_true_eq, ne_eq] at hfits
    obtain ⟨⟨⟨hlo, hhi⟩, h190⟩, h0⟩ := hfits
    obtain rfl := List.length_eq_zero_iff.mp (show operands.length = 0 by omega)
    have hnum : 176 + op.number % 16 = op.number := by omega
    have h := readOpening_zeroOp v (op.number % 16) rest (by omega) (by omega)
    dsimp only
    rw [hnum] at h ⊢
    exact h
  | var =>
    simp only [hform, Bool.and_eq_true, decide_eq_true_eq] at hfits
    obtain ⟨⟨⟨hlo, hhi⟩, h8⟩, hdouble⟩ := hfits
    have hnum : 0xE0 + op.number % 32 = op.number := by omega
    dsimp only
    rw [hnum]
    by_cases hd : op.number = 236 ∨ op.number = 250
    · rw [decide_eq_true hd] at hdouble
      rw [if_pos hdouble]
      exact (readOpening_var v op.number _ hlo hhi).trans
        (readTypes_typeBytes _ _ _ hd (by omega))
    · rw [decide_eq_false hd] at hdouble
      have h4 : op.maxOperands ≤ 4 := by
        simpa [Opcode.hasDoubleTypes] using hdouble
      rw [if_neg (by simp [hdouble])]
      exact (readOpening_var v op.number _ hlo hhi).trans
        (readTypes_typeByte _ _ _ hd (by omega))
  | ext =>
    simp only [hform, Bool.and_eq_true, decide_eq_true_eq] at hfits
    obtain ⟨⟨⟨hlo, hhi⟩, h4⟩, h5⟩ := hfits
    have hv5 : 5 ≤ v.number := by
      simp only [Opcode.availableIn, Bool.decide_and, Bool.and_eq_true, decide_eq_true_eq] at hv
      omega
    have h := (readOpening_ext v (op.number - 256) (typeByte operands 0 :: rest) hv5
      (by omega)).trans (readTypes_typeByte _ operands rest (by omega) (by omega))
    rw [show 256 + (op.number - 256) = op.number by omega] at h
    exact h

/-! ## Branches -/

/-- Below these bounds the offset of a branch is the plain distance. -/
theorem branchOffset_eq (target after : Nat) (ht : target < 1073741824) (ha : after < 1073742080) :
    branchOffset target after = (target : Int) - after + 2 := by
  unfold branchOffset
  exact wrap32_of_small (by omega) (by omega)

/-- The offset of a branch to `target` whose field begins at `start`, in the one-byte form. -/
def shortOffset (target start : Nat) : Int := (target : Int) - (start + 1) + 2

/-- The offset of a branch to `target` whose field begins at `start`, in the two-byte form. -/
def longOffset (target start : Nat) : Int := (target : Int) - (start + 2) + 2

/-- A branch field at `start` cannot reach `target` in either form. -/
def Unreachable (target start : Nat) : Prop :=
  ¬ (2 ≤ shortOffset target start ∧ shortOffset target start ≤ 63) ∧
    (longOffset target start < -8192 ∨ 8191 < longOffset target start ∨
      longOffset target start = 0)

theorem branchBytes_fails_iff (branch : BranchField) (start : Nat) (hs : start < 1073742000)
    (ht : ∀ target, branch.destination = .address target → target < 1073741824) :
    (∃ e, branchBytes branch start = .error e) ↔
      ∃ target, branch.destination = .address target ∧ Unreachable target start := by
  cases hd : branch.destination with
  | ret value => simp [branchBytes, hd]
  | address target =>
    have ht := ht target hd
    have hshort : branchOffset target (start + 1) = shortOffset target start := by
      rw [branchOffset_eq _ _ ht (by omega)]; unfold shortOffset; omega
    have hlong : branchOffset target (start + 2) = longOffset target start := by
      rw [branchOffset_eq _ _ ht (by omega)]; unfold longOffset; omega
    have hnext : shortOffset target start = longOffset target start + 1 := by
      unfold shortOffset longOffset; omega
    simp only [branchBytes, hd, hshort, hlong, Destination.address.injEq, exists_eq_left']
    unfold Unreachable
    split
    · next h => simp [h]
    · next h =>
      split
      · next hr =>
        simp only [Except.error.injEq, exists_eq', true_iff]
        exact ⟨h, by omega⟩
      · next hr =>
        split
        · next h0 =>
          simp only [Except.error.injEq, exists_eq', true_iff]
          exact ⟨h, by omega⟩
        · next h0 =>
          simp only [reduceCtorEq, exists_false, false_iff]
          omega

theorem branchDestination_address (after target : Nat) (offset : Int)
    (ho : offset = (target : Int) - after + 2) (h0 : offset ≠ 0) (h1 : offset ≠ 1) :
    branchDestination after offset = .address target := by
  unfold branchDestination
  rw [if_neg h0, if_neg h1]
  congr 1
  omega

/-- The byte of a short branch field, read back. -/
theorem readBranch_short (start offset : Nat) (onTrue : Bool) (rest : List UInt8)
    (ho : offset ≤ 63) :
    readBranch start (UInt8.ofNat ((if onTrue then 0x80 else 0) + 0x40 + offset) :: rest) =
      some (⟨onTrue, branchDestination (start + 1) offset⟩, rest) := by
  have hb : (UInt8.ofNat ((if onTrue then 0x80 else 0) + 0x40 + offset)).toNat =
      (if onTrue then 0x80 else 0) + 0x40 + offset := by
    rw [UInt8.toNat_ofNat']
    split <;> omega
  unfold readBranch
  dsimp only
  rw [hb]
  cases onTrue with
  | true =>
    simp only [if_true]
    rw [if_pos (by omega), decide_eq_true (by omega), show (128 + 64 + offset) % 64 =
      offset by omega]
  | false =>
    simp only [Bool.false_eq_true, if_false]
    rw [if_pos (by omega), decide_eq_false (by omega),
      show (0 + 64 + offset) % 64 = offset by omega]

/-- The two bytes of a long branch field, read back. -/
theorem readBranch_long (start : Nat) (offset : Int) (onTrue : Bool) (rest : List UInt8)
    (hlo : -8192 ≤ offset) (hhi : offset ≤ 8191) :
    readBranch start (UInt8.ofNat ((if onTrue then 0x80 else 0) + (offset % 16384).toNat / 256) ::
        UInt8.ofNat (offset % 16384).toNat :: rest) =
      some (⟨onTrue, branchDestination (start + 2) offset⟩, rest) := by
  obtain ⟨bits, hbits⟩ : ∃ bits : Nat, offset % 16384 = bits :=
    ⟨(offset % 16384).toNat, by omega⟩
  have hlt : bits < 16384 := by omega
  rw [hbits, Int.toNat_natCast]
  have h1 : (UInt8.ofNat ((if onTrue then 0x80 else 0) + bits / 256)).toNat =
      (if onTrue then 0x80 else 0) + bits / 256 := by
    rw [UInt8.toNat_ofNat']
    split <;> omega
  have h2 : (UInt8.ofNat bits).toNat = bits % 256 := UInt8.toNat_ofNat' ..
  have hoffset : (if bits < 8192 then (bits : Int) else bits - 16384) = offset := by
    split <;> omega
  unfold readBranch
  dsimp only
  rw [h1, h2]
  cases onTrue with
  | true =>
    simp only [if_true]
    rw [if_neg (by omega), decide_eq_true (by omega),
      show (128 + bits / 256) % 64 * 256 + bits % 256 = bits by omega, hoffset]
  | false =>
    simp only [Bool.false_eq_true, if_false]
    rw [if_neg (by omega), decide_eq_false (by omega),
      show (0 + bits / 256) % 64 * 256 + bits % 256 = bits by omega, hoffset]

theorem readBranch_branchBytes (branch : BranchField) (start : Nat) (hs : start < 1073742000)
    (ht : ∀ target, branch.destination = .address target → target < 1073741824)
    (bytes : List UInt8) (long : Bool) (h : branchBytes branch start = .ok (bytes, long))
    (rest : List UInt8) : readBranch start (bytes ++ rest) = some (branch, rest) := by
  obtain ⟨onTrue, destination⟩ := branch
  cases destination with
  | ret value =>
    simp only [branchBytes, Except.ok.injEq, Prod.mk.injEq] at h
    obtain ⟨rfl, -⟩ := h
    rw [List.singleton_append, readBranch_short start _ onTrue rest (by cases value <;> decide)]
    cases value <;> rfl
  | address target =>
    have ht := ht target rfl
    have hshort := branchOffset_eq target (start + 1) ht (by omega)
    have hlong := branchOffset_eq target (start + 2) ht (by omega)
    simp only [branchBytes] at h
    split at h
    · next hr =>
      simp only [Except.ok.injEq, Prod.mk.injEq] at h
      obtain ⟨rfl, -⟩ := h
      obtain ⟨offset, ho⟩ : ∃ offset : Nat, branchOffset target (start + 1) = offset :=
        ⟨_, (Int.toNat_of_nonneg (by omega)).symm⟩
      rw [ho, Int.toNat_natCast, List.singleton_append,
        readBranch_short start offset onTrue rest (by omega),
        branchDestination_address (start + 1) target offset (by omega) (by omega) (by omega)]
    · split at h
      · cases h
      · split at h
        · cases h
        · simp only [Except.ok.injEq, Prod.mk.injEq] at h
          obtain ⟨rfl, -⟩ := h
          rw [List.cons_append, List.singleton_append,
            readBranch_long start _ onTrue rest (by omega) (by omega),
            branchDestination_address (start + 2) target _ hlong (by omega) (by omega)]

/-! ## Requests -/

/-- The bytes of an instruction before its branch field. -/
def stored (req : Request) : List UInt8 :=
  opening req.opcode req.operands ++ req.operands.flatMap Operand.bytes ++
    if req.opcode.stores then [req.store.getD 0] else []

/-- The address of the branch field. -/
def branchStart (req : Request) : Nat := req.address + (stored req).length

/-- The branch field of a request, and whether it has two bytes. -/
def branchPart (req : Request) : Except EncodeError (List UInt8 × Bool) :=
  match req.branch with
  | some field => branchBytes field (branchStart req)
  | none => .ok ([], false)

/-- The encoding of a request with the given branch field. -/
def encodedWith (req : Request) (branch : List UInt8) (long : Bool) : Encoded where
  bytes := stored req ++ branch ++ req.text.getD []
  operandOffsets := offsetsFrom (opening req.opcode req.operands).length req.operands
  storeOffset :=
    if req.opcode.stores then
      some (opening req.opcode req.operands ++ req.operands.flatMap Operand.bytes).length
    else none
  longBranch := long

theorem length_opening_le (op : Opcode) (operands : List Operand) :
    (opening op operands).length ≤ 3 := by
  unfold opening
  cases op.form <;> dsimp only
  · split
    · split <;> simp
    · simp
  · simp
  · simp
  · split <;> simp
  · simp

theorem length_operandBytes_le (operands : List Operand) :
    (operands.flatMap Operand.bytes).length ≤ 2 * operands.length := by
  induction operands with
  | nil => simp
  | cons o os ih =>
    have ho : o.bytes.length ≤ 2 := by cases o <;> simp [Operand.bytes]
    rw [List.flatMap_cons, List.length_append, List.length_cons]
    omega

theorem maxOperands_le (op : Opcode) (h : formFits op = true) : op.maxOperands ≤ 8 := by
  unfold formFits at h
  cases hform : op.form <;>
    simp only [hform, Bool.and_eq_true, decide_eq_true_eq] at h <;> omega

theorem length_stored_le (req : Request) (hf : formFits req.opcode = true)
    (hc : countFits req.opcode req.operands) : (stored req).length ≤ 20 := by
  have h1 := length_opening_le req.opcode req.operands
  have h2 := length_operandBytes_le req.operands
  have h3 := maxOperands_le req.opcode hf
  have h4 : (if req.opcode.stores then [req.store.getD 0] else []).length ≤ 1 := by
    split <;> simp
  unfold stored
  rw [List.length_append, List.length_append]
  have := hc.2
  omega

theorem branchStart_lt (req : Request) (hf : formFits req.opcode = true)
    (hc : countFits req.opcode req.operands) (ha : req.address < 1073741824) :
    branchStart req < 1073742000 := by
  have := length_stored_le req hf hc
  unfold branchStart
  omega

theorem encode_of_not_countFits (req : Request) (h : ¬ countFits req.opcode req.operands) :
    ∃ e, encode req = .error e := by
  refine ⟨.operandCount req.opcode req.operands.length, ?_⟩
  unfold encode
  rw [if_pos (by unfold countFits at h; omega)]
  rfl

theorem countFits_of_encode {req : Request} {enc : Encoded} (h : encode req = .ok enc) :
    countFits req.opcode req.operands := by
  by_cases hc : countFits req.opcode req.operands
  · exact hc
  · obtain ⟨e, he⟩ := encode_of_not_countFits req hc
    rw [he] at h
    cases h

theorem encode_of_countFits (req : Request) (h : countFits req.opcode req.operands) :
    encode req = (branchPart req).map fun (branch, long) => encodedWith req branch long := by
  obtain ⟨hmin, hmax⟩ := h
  have hstored : (if req.opcode.stores then
      opening req.opcode req.operands ++ req.operands.flatMap Operand.bytes ++ [req.store.getD 0]
      else opening req.opcode req.operands ++ req.operands.flatMap Operand.bytes) = stored req := by
    unfold stored
    split
    · rfl
    · rw [List.append_nil]
  unfold encode
  rw [if_neg (by omega)]
  dsimp only
  rw [hstored]
  unfold branchPart
  cases hb : req.branch with
  | none => rfl
  | some field =>
    dsimp only
    rw [show req.address + (stored req).length = branchStart req from rfl]
    cases branchBytes field (branchStart req) <;> rfl

theorem encode_fails_iff (req : Request) (hf : formFits req.opcode = true)
    (ha : req.address < 1073741824)
    (ht : ∀ field target, req.branch = some field → field.destination = .address target →
      target < 1073741824) :
    (∃ e, encode req = .error e) ↔
      ¬ countFits req.opcode req.operands ∨
      ∃ field target, req.branch = some field ∧ field.destination = .address target ∧
        Unreachable target (branchStart req) := by
  by_cases hc : countFits req.opcode req.operands
  · rw [encode_of_countFits req hc]
    unfold branchPart
    cases hb : req.branch with
    | none => simp [hc, Except.map]
    | some field =>
      have h := branchBytes_fails_iff field (branchStart req) (branchStart_lt req hf hc ha)
        (fun target => ht field target hb)
      have hmap : (∃ e, (branchBytes field (branchStart req)).map
          (fun (branch, long) => encodedWith req branch long) = .error e) ↔
            ∃ e, branchBytes field (branchStart req) = .error e := by
        cases branchBytes field (branchStart req) <;> simp [Except.map]
      simp only [hmap, h, hc, not_true_eq_false, false_or, Option.some.injEq, exists_and_left,
        exists_eq_left']
  · simp only [hc, not_false_eq_true, true_or, iff_true]
    exact encode_of_not_countFits req hc

/-- Where the operands of a request and its store byte lie in its encoding. -/
theorem bytes_at_offsetsFrom (operands : List Operand) (before after : List UInt8) :
    ∀ p ∈ operands.zip (offsetsFrom before.length operands),
      p.1.bytes <+: (before ++ operands.flatMap Operand.bytes ++ after).drop p.2 := by
  induction operands generalizing before with
  | nil => intro p hp; simp at hp
  | cons o os ih =>
    intro p hp
    simp only [offsetsFrom, List.zip_cons_cons, List.mem_cons] at hp
    rcases hp with rfl | hp
    · dsimp only
      rw [List.append_assoc, List.drop_left, List.flatMap_cons, List.append_assoc]
      exact List.prefix_append _ _
    · have h := ih (before ++ o.bytes) p (by rwa [List.length_append])
      rwa [List.append_assoc before, ← List.flatMap_cons] at h

theorem length_offsetsFrom (start : Nat) (operands : List Operand) :
    (offsetsFrom start operands).length = operands.length := by
  induction operands generalizing start with
  | nil => rfl
  | cons o os ih => rw [offsetsFrom, List.length_cons, ih, List.length_cons]

/-- What the machine is to read of a request. -/
def expected (req : Request) : Decoded where
  number := req.opcode.number
  operands := req.operands
  store := if req.opcode.stores then some (req.store.getD 0) else none
  branch := req.branch

theorem readStore_stored (req : Request) (rest : List UInt8) :
    readStore req.opcode.stores ((if req.opcode.stores then [req.store.getD 0] else []) ++ rest) =
      some ((expected req).store, rest) := by
  unfold readStore expected
  cases req.opcode.stores <;> rfl

theorem readBranchIf_branchPart (req : Request) (hs : branchStart req < 1073742000)
    (ht : ∀ field target, req.branch = some field → field.destination = .address target →
      target < 1073741824)
    (bytes : List UInt8) (long : Bool) (h : branchPart req = .ok (bytes, long))
    (rest : List UInt8) :
    readBranchIf req.branch.isSome (branchStart req) (bytes ++ rest) =
      some (req.branch, rest) := by
  unfold branchPart at h
  unfold readBranchIf
  cases hb : req.branch with
  | none =>
    simp only [hb, Except.ok.injEq, Prod.mk.injEq] at h
    rw [← h.1]
    rfl
  | some field =>
    simp only [hb] at h
    rw [Option.isSome_some, if_pos rfl,
      readBranch_branchBytes field _ hs (fun target => ht field target hb) bytes long h]
    rfl

/-- An encoding is made with the bytes of some branch field. -/
theorem exists_encodedWith {req : Request} {enc : Encoded} (h : encode req = .ok enc) :
    ∃ bytes long, branchPart req = .ok (bytes, long) ∧ enc = encodedWith req bytes long := by
  rw [encode_of_countFits req (countFits_of_encode h)] at h
  cases hp : branchPart req with
  | error e => rw [hp] at h; cases h
  | ok part =>
    obtain ⟨bytes, long⟩ := part
    rw [hp] at h
    exact ⟨bytes, long, rfl, by simpa [Except.map] using h.symm⟩

theorem map_fst_zip_offsetsFrom (start : Nat) (operands : List Operand) :
    (operands.zip (offsetsFrom start operands)).map (·.1) = operands :=
  List.map_fst_zip (Nat.le_of_eq (length_offsetsFrom start operands).symm)

theorem map_snd_zip_offsetsFrom (start : Nat) (operands : List Operand) :
    (operands.zip (offsetsFrom start operands)).map (·.2) = offsetsFrom start operands :=
  List.map_snd_zip (Nat.le_of_eq (length_offsetsFrom start operands))

/-- The machine reads an encoded instruction back, whatever follows it, and finds the values where
    the encoder reports them. -/
theorem locate_encode_append (v : Version) (req : Request) (hop : req.opcode ∈ Opcode.table)
    (hv : req.opcode.availableIn v = true) (hb : req.branch.isSome = req.opcode.branches)
    (ha : req.address < 1073741824)
    (ht : ∀ field target, req.branch = some field → field.destination = .address target →
      target < 1073741824)
    (enc : Encoded) (h : encode req = .ok enc) (rest : List UInt8) :
    locate v req.address (enc.bytes ++ rest) =
      some (expected req, ⟨enc.operandOffsets, enc.storeOffset⟩, req.text.getD [] ++ rest) := by
  have hf := table_formFits _ hop
  obtain ⟨hstore, hbranch, -⟩ := table_follows _ hop v (Version.mem_all v) hv
  have hc := countFits_of_encode h
  have hs := branchStart_lt req hf hc ha
  obtain ⟨bytes, long, hp, rfl⟩ := exists_encodedWith h
  -- What is left behind the store byte: the branch field, the inline text and what follows.
  obtain ⟨left, hleft⟩ : ∃ left, left = bytes ++ (req.text.getD [] ++ rest) := ⟨_, rfl⟩
  have hbytes : (encodedWith req bytes long).bytes ++ rest =
      opening req.opcode req.operands ++ (req.operands.flatMap Operand.bytes ++
        ((if req.opcode.stores then [req.store.getD 0] else []) ++ left)) := by
    simp only [encodedWith, stored, List.append_assoc, hleft]
  have hlength := congrArg List.length hbytes
  have hopened := readOpening_opening v _ _ (req.operands.flatMap Operand.bytes ++
    ((if req.opcode.stores then [req.store.getD 0] else []) ++ left)) hf hv hc
  have hoperands := readOperands_bytes req.operands
    ((if req.opcode.stores then [req.store.getD 0] else []) ++ left)
    (opening req.opcode req.operands).length (hlength.trans List.length_append)
  have hstored : ((encodedWith req bytes long).bytes ++ rest).length - left.length =
      (stored req).length := by
    rw [hlength]
    simp only [stored, List.length_append]
    omega
  have hvalued : ((encodedWith req bytes long).bytes ++ rest).length -
      ((if req.opcode.stores then [req.store.getD 0] else []) ++ left).length =
        (opening req.opcode req.operands ++ req.operands.flatMap Operand.bytes).length := by
    rw [hlength]
    simp only [List.length_append]
    omega
  rw [← hbytes] at hopened
  unfold locate
  simp only [hopened, Option.bind_eq_bind, Option.bind_some, hoperands, hstore, readStore_stored,
    hbranch, ← hb, hstored, hvalued]
  rw [show req.address + (stored req).length = branchStart req from rfl, hleft,
    readBranchIf_branchPart req hs ht bytes long hp]
  simp only [Option.bind_some, map_fst_zip_offsetsFrom, map_snd_zip_offsetsFrom, expected,
    encodedWith]
  cases req.opcode.stores <;> rfl

theorem decode_encode_append (v : Version) (req : Request) (hop : req.opcode ∈ Opcode.table)
    (hv : req.opcode.availableIn v = true) (hb : req.branch.isSome = req.opcode.branches)
    (ha : req.address < 1073741824)
    (ht : ∀ field target, req.branch = some field → field.destination = .address target →
      target < 1073741824)
    (enc : Encoded) (h : encode req = .ok enc) (rest : List UInt8) :
    decode v req.address (enc.bytes ++ rest) = some (expected req, req.text.getD [] ++ rest) := by
  rw [decode, locate_encode_append v req hop hv hb ha ht enc h rest]
  rfl

/-! ## Offsets -/

/-- Each operand of a request lies at its reported offset. -/
theorem operand_at_offset {req : Request} {enc : Encoded} (h : encode req = .ok enc) :
    ∀ p ∈ req.operands.zip enc.operandOffsets, p.1.bytes <+: enc.bytes.drop p.2 := by
  obtain ⟨bytes, long, -, rfl⟩ := exists_encodedWith h
  have hbytes : (encodedWith req bytes long).bytes =
      opening req.opcode req.operands ++ req.operands.flatMap Operand.bytes ++
        ((if req.opcode.stores then [req.store.getD 0] else []) ++ bytes ++ req.text.getD []) := by
    simp only [encodedWith, stored, List.append_assoc]
  rw [hbytes]
  exact bytes_at_offsetsFrom req.operands _ _

theorem length_operandOffsets {req : Request} {enc : Encoded} (h : encode req = .ok enc) :
    enc.operandOffsets.length = req.operands.length := by
  obtain ⟨bytes, long, -, rfl⟩ := exists_encodedWith h
  exact length_offsetsFrom _ _

/-- A storing opcode reports where its store byte lies, and no other opcode reports a place. -/
theorem store_at_offset {req : Request} {enc : Encoded} (h : encode req = .ok enc) :
    enc.storeOffset.isSome = req.opcode.stores ∧
      ∀ offset, enc.storeOffset = some offset → enc.bytes[offset]? = some (req.store.getD 0) := by
  obtain ⟨bytes, long, -, rfl⟩ := exists_encodedWith h
  unfold encodedWith stored
  cases req.opcode.stores with
  | false =>
    refine ⟨rfl, fun offset ho => ?_⟩
    cases ho
  | true =>
    refine ⟨rfl, fun offset ho => ?_⟩
    simp only [if_true, Option.some.injEq] at ho
    subst ho
    simp

/-! ## The encoder is inverted by the machine -/

/-- A request fails only for its operand count or for a branch out of reach; any other is read back
    as it was asked for, up to its inline text. The offsets that the encoder reports are the places
    where the machine reads the operands and the store byte, and what they hold is the request's. -/
theorem decode_inverts_encode (v : Version) (req : Request) (hop : req.opcode ∈ Opcode.table)
    (hv : req.opcode.availableIn v = true) (hb : req.branch.isSome = req.opcode.branches)
    (hx : req.text.isSome = req.opcode.printsText) (ha : req.address < 2 ^ 30)
    (ht : ∀ field target, req.branch = some field → field.destination = .address target →
      target < 2 ^ 30) :
    ((∃ e, encode req = .error e) ↔
      ¬ (req.opcode.minOperands ≤ req.operands.length ∧
          req.operands.length ≤ req.opcode.maxOperands) ∨
      ∃ field target, req.branch = some field ∧ field.destination = .address target ∧
        Unreachable target (branchStart req)) ∧
    ∀ enc, encode req = .ok enc →
      locate v req.address enc.bytes = some (
        { number := req.opcode.number
          operands := req.operands
          store := if req.opcode.stores then some (req.store.getD 0) else none
          branch := req.branch },
        { operands := enc.operandOffsets
          store := enc.storeOffset },
        req.text.getD []) ∧
      hasText req.opcode.number = req.text.isSome ∧
      enc.operandOffsets.length = req.operands.length ∧
      (∀ p ∈ req.operands.zip enc.operandOffsets, p.1.bytes <+: enc.bytes.drop p.2) ∧
      enc.storeOffset.isSome = req.opcode.stores ∧
      ∀ offset, enc.storeOffset = some offset → enc.bytes[offset]? = some (req.store.getD 0) := by
  have hf := table_formFits _ hop
  obtain ⟨-, -, htext⟩ := table_follows _ hop v (Version.mem_all v) hv
  refine ⟨encode_fails_iff req hf ha ht, fun enc h => ?_⟩
  have hlocate := locate_encode_append v req hop hv hb ha ht enc h []
  rw [List.append_nil, List.append_nil] at hlocate
  obtain ⟨hsome, hstore⟩ := store_at_offset h
  exact ⟨hlocate, htext.trans hx.symm, length_operandOffsets h, operand_at_offset h, hsome, hstore⟩

/-- A search whose operands wait for their values and whose result goes to the stack, with a branch
    of two bytes back over its own instruction: the places alone tell its zeros apart. -/
def waitingSearch : Request where
  opcode := { name := "INTBL?", number := 247, firstVersion := 4, minOperands := 3,
              maxOperands := 4, stores := true, branches := true }
  operands := [.word 0, .word 0, .word 0]
  branch := some ⟨false, .address 0x4F00⟩
  address := 0x5000

theorem decode_inverts_waitingSearch :
    encode waitingSearch =
      .ok ⟨[0xF7, 0x03, 0, 0, 0, 0, 0, 0, 0, 0x3E, 0xF7], [2, 4, 6], some 8, true⟩ ∧
    locate .v5 0x5000 [0xF7, 0x03, 0, 0, 0, 0, 0, 0, 0, 0x3E, 0xF7] =
      some (⟨247, [.word 0, .word 0, .word 0], some 0, some ⟨false, .address 0x4F00⟩⟩,
        ⟨[2, 4, 6], some 8⟩, []) := by
  have hencode : encode waitingSearch =
      .ok ⟨[0xF7, 0x03, 0, 0, 0, 0, 0, 0, 0, 0x3E, 0xF7], [2, 4, 6], some 8, true⟩ := by
    have hbytes : (encode waitingSearch).toOption =
        some ⟨[0xF7, 0x03, 0, 0, 0, 0, 0, 0, 0, 0x3E, 0xF7], [2, 4, 6], some 8, true⟩ := by
      decide +kernel
    cases h : encode waitingSearch with
    | error e =>
      rw [h] at hbytes
      cases hbytes
    | ok enc =>
      rw [h] at hbytes
      cases hbytes
      rfl
  refine ⟨hencode, ?_⟩
  refine ((decode_inverts_encode .v5 waitingSearch (by decide +kernel) (by decide) rfl rfl
    (by decide) ?_).2 _ hencode).1
  intro field target hfield hdestination
  cases hfield
  cases hdestination
  decide

end ZAssembler.Machine
