import Mathlib.Order.Bounds.Basic
import ZAssembler.Proofs.Packing

/-
  Padding is the least that works, whatever was asked before. A `Packing.History` is a packing with
  the bases that it has returned. Any of these may be restored at any time, also such as were fixed
  for a place that is long gone, and the bases at hand may be forgotten.

  Whatever is asked, every base is a multiple of 8, and only versions that pack from a base have one
  (`History.Sound.run`). The padding needs no more: from such a base it is the least that makes the
  distance a whole number of units, above 0 in versions that pack from a base
  (`Based.isLeast_padding`).
-/

namespace ZAssembler

/-! ## Least padding -/

theorem isLeast_alignment {divisor : Nat} (h : 0 < divisor) (position : Nat) :
    IsLeast {k | divisor ∣ position + k} (alignment divisor position) := by
  refine ⟨dvd_add_alignment h position, fun k hk => ?_⟩
  have hlt := Nat.mod_lt position h
  have hmod : (position % divisor + k) % divisor = 0 := by
    rw [Nat.mod_add_mod]
    exact Nat.mod_eq_zero_of_dvd hk
  unfold alignment
  by_cases hzero : position % divisor = 0
  · rw [hzero, Nat.sub_zero, Nat.mod_self]
    exact Nat.zero_le k
  · rw [Nat.mod_eq_of_lt (by omega)]
    -- A lesser one stays between two multiples.
    by_contra hless
    rw [Nat.mod_eq_of_lt (by omega)] at hmod
    omega

/-- Where the distance must not be 0, one unit more is needed if it would be. -/
theorem isLeast_positive_alignment {divisor : Nat} (h : 0 < divisor) (distance : Nat) :
    IsLeast {k | divisor ∣ distance + k ∧ distance + k ≠ 0}
      (if distance + alignment divisor distance = 0 then alignment divisor distance + divisor
      else alignment divisor distance) := by
  obtain ⟨hdvd, hleast⟩ := isLeast_alignment h distance
  split
  · next hzero =>
    obtain ⟨rfl, halign⟩ := Nat.add_eq_zero_iff.mp hzero
    rw [halign, Nat.zero_add]
    refine ⟨⟨(Nat.zero_add divisor).symm ▸ Nat.dvd_refl divisor, by omega⟩, fun k hk => ?_⟩
    obtain ⟨hdvd, hne⟩ := hk
    rw [Nat.zero_add] at hdvd hne
    exact Nat.le_of_dvd (Nat.pos_of_ne_zero hne) hdvd
  · next hne => exact ⟨⟨hdvd, hne⟩, fun k hk => hleast hk.1⟩

theorem Version.usesPackingOffsets_iff (v : Version) :
    v.usesPackingOffsets = true ↔ v = .v6 ∨ v = .v7 := by
  cases v <;> decide

theorem packingDivisor_le (v : Version) : v.packingDivisor ≤ 8 := by
  cases v <;> decide

namespace Packing

/-- What a packing packs from: 0 where no base is fixed. -/
def base (p : Packing) (kind : PackedKind) : Nat := (p.bases.get kind).getD 0

section Padding

variable {p : Packing} {v : Version} {far : Nat} {kind : PackedKind} {position : Nat}

theorem baseAt_le (h : p.base kind ≤ position) : p.baseAt kind position ≤ position := by
  unfold base at h
  unfold baseAt
  cases hbase : p.bases.get kind with
  | none => exact Nat.div_mul_le_self position 8
  | some base => rwa [hbase] at h

theorem base_padding (huses : p.version.usesPackingOffsets = true) (kind : PackedKind)
    (position : Nat) : (p.padding kind position).2.base kind = p.baseAt kind position := by
  rw [base, get_padding_self p kind position huses, Option.getD_some]

theorem get_padding_eq_base (huses : p.version.usesPackingOffsets = true) (kind : PackedKind)
    (position : Nat) : (p.padding kind position).2.bases.get kind =
      some ((p.padding kind position).2.base kind) := by
  rw [base_padding huses, get_padding_self p kind position huses]

theorem base_padding_of_fixed {fixed : Nat} (hget : p.bases.get kind = some fixed)
    (position : Nat) : (p.padding kind position).2.base kind = fixed := by
  rw [base, get_padding kind hget, Option.getD_some]

/-- A base that is not fixed yet is fixed at the last multiple of 8. -/
theorem lt_base_padding (huses : p.version.usesPackingOffsets = true)
    (hget : p.bases.get kind = none) (position : Nat) :
    position < (p.padding kind position).2.base kind + 8 := by
  rw [base_padding huses, baseAt, hget, Option.getD_none]
  omega

theorem Based.base_eq_zero (h : p.Based v far) (huses : v.usesPackingOffsets = false)
    (kind : PackedKind) : p.base kind = 0 := by
  rw [base, h.get_of_no_offsets huses, Option.getD_none]

theorem Based.dvd_base (h : p.Based v far) (kind : PackedKind) : 8 ∣ p.base kind := by
  unfold base
  cases hbase : p.bases.get kind with
  | none => exact Nat.dvd_zero 8
  | some base => exact (h.bases kind base hbase).2.1

/-- Only the base of its own kind bears on the padding, and only where versions have one. -/
theorem Based.isLeast_padding (h : p.Based v far) (hbase : p.base kind ≤ position)
    (hfit : position < 2147483648) :
    (p.padding kind position).2.base kind ≤ position ∧
    IsLeast {k | v.packingDivisor ∣ position + k - (p.padding kind position).2.base kind ∧
      (v.usesPackingOffsets = true → position + k ≠ (p.padding kind position).2.base kind)}
      (p.padding kind position).1 := by
  have hpos := packingDivisor_pos v
  have hversion := h.version
  subst hversion
  cases huses : p.version.usesPackingOffsets with
  | false =>
    rw [padding_of_no_offsets p kind position huses, h.base_eq_zero huses]
    refine ⟨Nat.zero_le position, ?_⟩
    simpa using isLeast_alignment hpos position
  | true =>
    have hbelow := baseAt_le hbase
    rw [base_padding huses, fst_padding_of_offsets p kind position huses]
    generalize p.baseAt kind position = base at *
    have hdistance : ∀ k, position + k - base = position - base + k := fun k => by omega
    have hbase : ∀ k, position + k = base ↔ position - base + k = 0 := fun k => by omega
    have hwrap : wrapAddress (position + alignment p.version.packingDivisor (position - base)) =
        position + alignment p.version.packingDivisor (position - base) := by
      have hlt := alignment_lt hpos (position - base)
      have hle : p.version.packingDivisor ≤ 8 := packingDivisor_le p.version
      exact wrapAddress_of_lt (by omega)
    refine ⟨hbelow, ?_⟩
    simp only [hwrap, hdistance, hbase, ne_eq, forall_const]
    exact isLeast_positive_alignment hpos (position - base)

/-- A whole number of units above 0 is found again from the packed address. -/
theorem pack_of_distance {addr : Nat} (habove : p.base kind < addr)
    (hdvd : p.version.packingDivisor ∣ addr - p.base kind) :
    p.pack kind addr ≠ 0 ∧ p.base kind + p.version.packingDivisor * p.pack kind addr = addr := by
  have hpack : p.version.packingDivisor * p.pack kind addr = addr - p.base kind :=
    Nat.mul_div_cancel' hdvd
  refine ⟨fun hzero => ?_, by omega⟩
  rw [hzero, Nat.mul_zero] at hpack
  omega

end Padding

/-! ## Histories -/

/-- Something is asked of a packing; a slot names bases that it has returned. -/
inductive Request
  | padding (kind : PackedKind) (position : Nat)
  | bases
  | restore (slot : Nat)
  | reset
  deriving DecidableEq, Repr

/-- Bases are neither restored nor forgotten. -/
def Request.Onward : Request → Prop
  | .padding _ _ | .bases => True
  | .restore _ | .reset => False

instance (r : Request) : Decidable r.Onward :=
  match r with
  | .padding _ _ | .bases => inferInstanceAs (Decidable True)
  | .restore _ | .reset => inferInstanceAs (Decidable False)

/-- A packing, and the bases that it has returned, the oldest first. -/
structure History where
  packing : Packing
  returned : List PackingBases
  deriving DecidableEq, Repr

namespace History

def start (v : Version) : History := { packing := { version := v }, returned := [] }

/-- Bases that were not returned are not restored. -/
def ask (h : History) : Request → History
  | .padding kind position => { h with packing := (h.packing.padding kind position).2 }
  | .bases => { h with returned := h.returned ++ [h.packing.bases] }
  | .restore slot =>
    (h.returned[slot]?).elim h fun bases => { h with packing := { h.packing with bases } }
  | .reset => { h with packing := { h.packing with bases := {} } }

def run (h : History) (requests : List Request) : History := requests.foldl ask h

/-- All bases, at hand or returned, are bases of the version that were fixed for places up to
    `far`. -/
structure Sound (h : History) (v : Version) (far : Nat) : Prop where
  packing : h.packing.Based v far
  returned : ∀ bases ∈ h.returned, ({ version := v, bases } : Packing).Based v far

section Keeping

variable {h : History} {v : Version} {far : Nat}

theorem based_forgotten (v : Version) (far : Nat) : ({ version := v } : Packing).Based v far := by
  refine ⟨rfl, fun kind base hbase => ?_⟩
  cases kind <;> cases hbase

theorem sound_start (v : Version) : (start v).Sound v 0 :=
  ⟨based_forgotten v 0, fun _ hbases => absurd hbases List.not_mem_nil⟩

theorem Sound.mono {farther : Nat} (hs : h.Sound v far) (hle : far ≤ farther) : h.Sound v farther :=
  ⟨hs.packing.mono hle, fun bases hbases => (hs.returned bases hbases).mono hle⟩

/-- What is asked may fix a base farther on, and never one that does not fit the version. -/
theorem Sound.ask (hs : h.Sound v far) (r : Request) : ∃ farther, (h.ask r).Sound v farther := by
  cases r with
  | padding kind position =>
    have hmore := hs.mono (Nat.le_max_left far position)
    exact ⟨_, hmore.packing.padding_earlier (Nat.le_max_right far position) kind, hmore.returned⟩
  | bases =>
    have hown : ({ version := v, bases := h.packing.bases } : Packing).Based v far :=
      hs.packing.version ▸ hs.packing
    refine ⟨far, hs.packing, fun bases hbases => ?_⟩
    rcases List.mem_append.mp hbases with hearlier | hlast
    · exact hs.returned bases hearlier
    · rw [List.mem_singleton.mp hlast]
      exact hown
  | restore slot =>
    refine ⟨far, ?_⟩
    cases hslot : h.returned[slot]? with
    | none =>
      simp only [History.ask, hslot, Option.elim_none]
      exact hs
    | some bases =>
      simp only [History.ask, hslot, Option.elim_some, hs.packing.version]
      exact ⟨hs.returned bases (List.mem_of_getElem? hslot), hs.returned⟩
  | reset => exact ⟨far, hs.packing.version ▸ based_forgotten v far, hs.returned⟩

theorem Sound.run (hs : h.Sound v far) (requests : List Request) :
    ∃ farther, (h.run requests).Sound v farther := by
  induction requests generalizing h far with
  | nil => exact ⟨far, hs⟩
  | cons r requests ih =>
    obtain ⟨farther, hnext⟩ := hs.ask r
    exact ih hnext

theorem base_ask {kind : PackedKind} {base : Nat} {r : Request} (hr : r.Onward)
    (hbase : h.packing.bases.get kind = some base) :
    (h.ask r).packing.bases.get kind = some base := by
  cases r with
  | padding other position => exact get_padding other hbase
  | bases => exact hbase
  | restore slot => cases hr
  | reset => cases hr

/-- A base that is fixed stays while bases are neither restored nor forgotten. -/
theorem base_run {kind : PackedKind} {base : Nat} {later : List Request}
    (hlater : ∀ r ∈ later, r.Onward) (hbase : h.packing.bases.get kind = some base) :
    (h.run later).packing.bases.get kind = some base := by
  induction later generalizing h with
  | nil => exact hbase
  | cons r later ih =>
    obtain ⟨hr, hlater⟩ := List.forall_mem_cons.mp hlater
    exact ih hlater (base_ask hr hbase)

end Keeping

/-- After every history, the padding is the least that brings a place to a whole number of units
    from its base, and in versions 6 and 7 past it. The base is the one that is fixed, or else the
    last multiple of 8 up to the place, and 0 in other versions. It stays until it is restored or
    forgotten, and the place is found again from its packed address, which is not 0. -/
theorem padding_is_least (v : Version) (requests : List Request) (kind : PackedKind)
    {position : Nat} (hpos : 0 < position) (hfit : position < 2147483648)
    (hbase : ((start v).run requests).packing.base kind ≤ position) :
    let h := (start v).run requests
    let after := h.ask (.padding kind position)
    let padding := (h.packing.padding kind position).1
    let base := after.packing.base kind
    base ≤ position ∧
    IsLeast {k | v.packingDivisor ∣ position + k - base ∧ (v = .v6 ∨ v = .v7 → position + k ≠ base)}
      padding ∧
    8 ∣ base ∧ (¬ (v = .v6 ∨ v = .v7) → base = 0) ∧
    (v = .v6 ∨ v = .v7 → after.packing.bases.get kind = some base ∧
      (∀ fixed, h.packing.bases.get kind = some fixed → base = fixed) ∧
      (h.packing.bases.get kind = none → position < base + 8)) ∧
    (∀ later, (∀ r ∈ later, r.Onward) → (after.run later).packing.base kind = base) ∧
    after.packing.pack kind (position + padding) ≠ 0 ∧
    base + v.packingDivisor * after.packing.pack kind (position + padding) =
    position + padding := by
  intro h after padding base
  simp only [← Version.usesPackingOffsets_iff, Bool.not_eq_true]
  obtain ⟨far, hsound⟩ := (sound_start v).run requests
  obtain ⟨farther, hafter⟩ := hsound.ask (.padding kind position)
  obtain ⟨hle, hleast⟩ := hsound.packing.isLeast_padding hbase hfit
  have hversion : h.packing.version = v := hsound.packing.version
  have hfixed : v.usesPackingOffsets = true → after.packing.bases.get kind = some base :=
    fun huses =>
    get_padding_eq_base (hversion ▸ huses) kind position
  have hzero : v.usesPackingOffsets = false → base = 0 := fun huses =>
    hafter.packing.base_eq_zero huses kind
  have hstays : ∀ later, (∀ r ∈ later, r.Onward) → (after.run later).packing.base kind = base := by
    intro later hlater
    cases huses : v.usesPackingOffsets with
    | true => rw [Packing.base, base_run hlater (hfixed huses), Option.getD_some]
    | false =>
      obtain ⟨_, hrun⟩ := hafter.run later
      rw [hzero huses, hrun.packing.base_eq_zero huses]
  have habove : base < position + padding := by
    cases huses : v.usesPackingOffsets with
    | true => exact Nat.lt_of_le_of_ne (Nat.le_add_right_of_le hle) (hleast.1.2 huses).symm
    | false =>
      rw [hzero huses]
      omega
  have hpack := pack_of_distance habove (hafter.packing.version.symm ▸ hleast.1.1)
  rw [hafter.packing.version] at hpack
  exact ⟨hle, hleast, hafter.packing.dvd_base kind, hzero,
    fun huses => ⟨hfixed huses, fun _ hget => base_padding_of_fixed hget position,
      fun hget => lt_base_padding (hversion ▸ huses) hget position⟩, hstays, hpack⟩

/-- The base of the first routine is given up for others and comes back. -/
def returning : List Request :=
  [.padding .routine 1003, .bases, .reset, .padding .routine 64, .padding .string 2000, .restore 0]

/-- What comes at the base itself is put one unit past it. -/
theorem returning_is_least :
    ((start .v6).run returning).packing.bases = { routine := some 1000 } ∧
    IsLeast {k | Version.v6.packingDivisor ∣ 1000 + k - 1000 ∧
      (Version.v6 = .v6 ∨ Version.v6 = .v7 → 1000 + k ≠ 1000)} 4 ∧
    (((start .v6).run
      (returning ++ [.padding .routine 1000, .padding .string 88, .bases])).packing.base
      .routine = 1000) ∧
    1000 + Version.v6.packingDivisor *
      ((start .v6).run (returning ++ [.padding .routine 1000])).packing.pack
      .routine 1004 = 1004 := by
  have hbases : ((start .v6).run returning).packing.bases = { routine := some 1000 } := by decide
  have hpadding : (((start .v6).run returning).packing.padding .routine 1000).1 = 4 := by decide
  have hbase :
      (((start .v6).run returning).ask (.padding .routine 1000)).packing.base .routine = 1000 := by
    decide
  obtain ⟨-, hleast, -, -, -, hstays, -, hpack⟩ :=
    padding_is_least .v6 returning .routine (by decide : 0 < 1000) (by decide) (by decide)
  rw [hpadding, hbase] at hleast hpack
  exact ⟨hbases, hleast, (hstays [.padding .string 88, .bases] (by decide)).trans hbase, hpack⟩

end History

end Packing

end ZAssembler
