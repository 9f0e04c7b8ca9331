import ZAssembler.Proofs.Story

/-
  Packed addresses are unpacked with the base that the header names. A base is a multiple of 8 and
  is fixed at or below the first thing that is packed from it (`Packing.Based`); padding makes every
  distance from it a whole number of units and keeps it above 0 (`Packing.Based.unpack`), and the
  header of the story holds the base in units of 8 (`Story.wordAt_finish`).
-/

namespace ZAssembler

theorem packingDivisor_pos (v : Version) : 0 < v.packingDivisor := by
  cases v <;> decide

/-! ## Bases -/

theorem PackingBases.get_set (b : PackingBases) (kind other : PackedKind) (base : Nat) :
    (b.set kind base).get other = if other = kind then some base else b.get other := by
  cases kind <;> cases other <;> rfl

namespace Packing

/-- Every base that was fixed by `position` is a multiple of 8 at or below it, and only versions
    that pack from a base have one. -/
structure Based (p : Packing) (v : Version) (position : Nat) : Prop where
  version : p.version = v
  bases : ∀ kind base, p.bases.get kind = some base →
    v.usesPackingOffsets = true ∧ 8 ∣ base ∧ base ≤ position

section Padding

variable {p : Packing} {v : Version} {position : Nat}

theorem Based.mono {later : Nat} (h : p.Based v position) (hle : position ≤ later) :
    p.Based v later := by
  refine ⟨h.version, fun kind base hbase => ?_⟩
  obtain ⟨huses, hdvd, hbelow⟩ := h.bases kind base hbase
  exact ⟨huses, hdvd, Nat.le_trans hbelow hle⟩

/-- A base is fixed no higher than what it is fixed for. -/
theorem Based.baseAt_earlier {earlier : Nat} (h : p.Based v position) (hle : earlier ≤ position)
    (kind : PackedKind) : 8 ∣ p.baseAt kind earlier ∧ p.baseAt kind earlier ≤ position := by
  unfold Packing.baseAt
  cases hbase : p.bases.get kind with
  | none => exact ⟨Nat.dvd_mul_left 8 _, Nat.le_trans (Nat.div_mul_le_self earlier 8) hle⟩
  | some base => exact (h.bases kind base hbase).2

theorem Based.baseAt (h : p.Based v position) (kind : PackedKind) :
    8 ∣ p.baseAt kind position ∧ p.baseAt kind position ≤ position :=
  h.baseAt_earlier (Nat.le_refl position) kind

theorem padding_of_offsets (p : Packing) (kind : PackedKind) (position : Nat)
    (h : p.version.usesPackingOffsets = true) :
    (p.padding kind position).2 =
      { p with bases := p.bases.set kind (p.baseAt kind position) } := by
  unfold padding
  rw [if_pos h]

theorem fst_padding_of_offsets (p : Packing) (kind : PackedKind) (position : Nat)
    (h : p.version.usesPackingOffsets = true) :
    (p.padding kind position).1 =
      if wrapAddress
        (position + alignment p.version.packingDivisor (position - p.baseAt kind position)) =
        p.baseAt kind position
      then alignment p.version.packingDivisor (position - p.baseAt kind position) +
      p.version.packingDivisor
      else alignment p.version.packingDivisor (position - p.baseAt kind position) := by
  unfold padding
  rw [if_pos h]

theorem padding_of_no_offsets (p : Packing) (kind : PackedKind) (position : Nat)
    (h : p.version.usesPackingOffsets = false) :
    p.padding kind position = (alignment p.version.packingDivisor position, p) := by
  unfold padding
  rw [h]
  rfl

theorem get_padding_self (p : Packing) (kind : PackedKind) (position : Nat)
    (h : p.version.usesPackingOffsets = true) :
    (p.padding kind position).2.bases.get kind = some (p.baseAt kind position) := by
  rw [padding_of_offsets p kind position h, PackingBases.get_set, if_pos rfl]

/-- A base that is fixed stays. -/
theorem get_padding (kind : PackedKind) {other : PackedKind} {base : Nat}
    (h : p.bases.get other = some base) :
    (p.padding kind position).2.bases.get other = some base := by
  cases huses : p.version.usesPackingOffsets with
  | false => rw [padding_of_no_offsets p kind position huses, h]
  | true =>
    rw [padding_of_offsets p kind position huses, PackingBases.get_set]
    split
    · next heq => rw [baseAt, ← heq, h, Option.getD_some]
    · exact h

theorem Based.padding_earlier {earlier : Nat} (h : p.Based v position) (hle : earlier ≤ position)
    (kind : PackedKind) : (p.padding kind earlier).2.Based v position := by
  cases huses : p.version.usesPackingOffsets with
  | false =>
    rw [padding_of_no_offsets p kind earlier huses]
    exact h
  | true =>
    rw [padding_of_offsets p kind earlier huses]
    refine ⟨h.version, fun other base hbase => ?_⟩
    rw [PackingBases.get_set] at hbase
    split at hbase
    · cases hbase
      exact ⟨h.version ▸ huses, h.baseAt_earlier hle kind⟩
    · exact h.bases other base hbase

theorem Based.padding (h : p.Based v position) (kind : PackedKind) :
    (p.padding kind position).2.Based v position :=
  h.padding_earlier (Nat.le_refl position) kind

theorem Based.get_of_no_offsets (h : p.Based v position) (huses : v.usesPackingOffsets = false)
    (kind : PackedKind) : p.bases.get kind = none := by
  cases hbase : p.bases.get kind with
  | none => rfl
  | some base =>
    have hv := (h.bases kind base hbase).1
    rw [huses] at hv
    cases hv

/-- The distance from the base is above 0 and a whole number of units. -/
theorem Based.distance (h : p.Based v position) (kind : PackedKind) (hlow : 0 < position)
    (hfit : position + (p.padding kind position).1 < 4294967296) :
    ((p.padding kind position).2.bases.get kind).getD 0 < position + (p.padding kind position).1 ∧
      v.packingDivisor ∣ position + (p.padding kind position).1 -
        ((p.padding kind position).2.bases.get kind).getD 0 := by
  have hpos := packingDivisor_pos v
  cases huses : p.version.usesPackingOffsets with
  | false =>
    rw [padding_of_no_offsets p kind position huses, h.get_of_no_offsets (h.version ▸ huses),
      h.version, Option.getD_none, Nat.sub_zero]
    exact ⟨by omega, dvd_add_alignment hpos position⟩
  | true =>
    obtain ⟨-, hbelow⟩ := h.baseAt kind
    have hdvd := dvd_add_alignment hpos (position - p.baseAt kind position)
    rw [get_padding_self p kind position huses, Option.getD_some]
    have hpad := fst_padding_of_offsets p kind position huses
    rw [h.version] at hpad
    rw [Nat.sub_add_comm hbelow, hpad]
    rw [hpad] at hfit
    split
    · exact ⟨by omega, Nat.add_assoc _ _ _ ▸ Nat.dvd_add hdvd (Nat.dvd_refl _)⟩
    · next hbase =>
      rw [if_neg hbase] at hfit
      rw [wrapAddress_of_lt hfit] at hbase
      exact ⟨by omega, hdvd⟩

/-- What is placed after the padding is found again from its packed address, which is not 0. -/
theorem Based.unpack (h : p.Based v position) (kind : PackedKind) (hlow : 0 < position) {addr : Nat}
    (haddr : addr = position + (p.padding kind position).1) (hfit : addr < 4294967296) :
    0 < (p.padding kind position).2.pack kind addr ∧
      ((p.padding kind position).2.bases.get kind).getD 0 +
        v.packingDivisor * (p.padding kind position).2.pack kind addr = addr := by
  subst haddr
  obtain ⟨hbelow, hdvd⟩ := h.distance kind hlow hfit
  unfold pack
  rw [(h.padding kind).version, Nat.mul_div_cancel' hdvd]
  exact ⟨Nat.div_pos (Nat.le_of_dvd (by omega) hdvd) (packingDivisor_pos v), by omega⟩

end Padding

end Packing

/-! ## The header -/

/-- Where the header holds the base of the routines or of the strings, in units of 8. -/
def PackedKind.headerAddress : PackedKind → Nat
  | .routine => 0x28
  | .string => 0x2A

def Packing.headerOffset (p : Packing) : PackedKind → UInt16
  | .routine => p.headerOffsets.1
  | .string => p.headerOffsets.2

theorem Packing.headerOffset_eq (p : Packing) (kind : PackedKind) :
    p.headerOffset kind = if p.version.usesPackingOffsets then
      UInt16.ofNat ((p.bases.get kind).getD 0 / 8) else 0 := by
  unfold headerOffset headerOffsets
  cases kind <;> dsimp only <;> split <;> rfl

theorem Packing.Based.headerOffset {p : Packing} {v : Version} {position : Nat}
    (h : p.Based v position) (kind : PackedKind) (hfit : (p.bases.get kind).getD 0 < 524288) :
    8 * (p.headerOffset kind).toNat = (p.bases.get kind).getD 0 := by
  rw [Packing.headerOffset_eq, h.version]
  split
  · have hdvd : 8 ∣ (p.bases.get kind).getD 0 := by
      cases hbase : p.bases.get kind with
      | none => exact Nat.dvd_zero 8
      | some base => exact (h.bases kind base hbase).2.1
    rw [UInt16.toNat_ofNat', Nat.mod_eq_of_lt (by omega), Nat.mul_div_cancel' hdvd]
  · next huses =>
    rw [h.get_of_no_offsets (Bool.not_eq_true _ ▸ huses)]
    rfl

namespace Story

/-- The address that a packed address of a story stands for. -/
def unpack (v : Version) (bytes : List UInt8) (kind : PackedKind) (packed : Int) : Int :=
  8 * (wordAt bytes kind.headerAddress : Int) + v.packingDivisor * packed

/-- The header holds the base of each kind. -/
theorem wordAt_finish (v : Version) (id : Identity) (s : Assembly.State) (kind : PackedKind) :
    wordAt (finish v id s).bytes.toList kind.headerAddress =
    (s.packing.headerOffset kind).toNat := by
  refine wordAt_part v id s (List.mem_append_left _ ?_)
  cases kind <;> simp [headerPatches, PackedKind.headerAddress, Packing.headerOffset]

end Story

end ZAssembler
