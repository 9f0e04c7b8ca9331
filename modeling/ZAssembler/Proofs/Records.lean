import Mathlib.Algebra.Group.Nat.Defs
import Mathlib.Data.Set.Finite.Basic
import Mathlib.Order.Interval.Finset.Nat
import ZAssembler.Vocabulary

/-
  Sorting the records of a vocabulary block, and finding a position again after it. `sortOrder` says
  for each slot which record comes there, and `relocate` looks for the slot of a record. The first
  is a permutation (`perm_sortOrder`) that puts lesser keys first and keeps the order of equal ones
  (`pairwise_sortOrder`). A byte of a slot is the byte of its record (`getElem?_arrange_slot`), and
  a position in a record goes to the same place of its slot (`relocate_record`), so the two agree.
-/

namespace ZAssembler.Vocabulary

/-! ## The order of keys -/

/-- Keys compare as byte strings. -/
theorem keyLE_iff {a b : List UInt8} : keyLE a b = true ↔ a < b ∨ a = b := by
  fun_induction keyLE a b with
  | case1 b =>
    cases b with
    | nil => simp
    | cons x b => simp [List.nil_lt_cons]
  | case2 x a => simp
  | case3 x a y b ih =>
    rw [Bool.or_eq_true, Bool.and_eq_true, decide_eq_true_eq, beq_iff_eq, ih, List.cons_lt_cons_iff,
      List.cons.injEq]
    tauto

theorem keyLE_total (a b : List UInt8) : (keyLE a b || keyLE b a) = true := by
  rw [Bool.or_eq_true, keyLE_iff, keyLE_iff]
  by_cases hab : a < b
  · exact .inl (.inl hab)
  · rw [List.not_lt, List.le_iff_lt_or_eq] at hab
    exact .inr hab

theorem keyLE_trans {a b c : List UInt8} (hab : keyLE a b = true) (hbc : keyLE b c = true) :
    keyLE a c = true := by
  rw [keyLE_iff] at hab hbc ⊢
  rcases hab with hab | rfl
  · rcases hbc with hbc | rfl
    · exact .inl (List.lt_trans hab hbc)
    · exact .inl hab
  · exact hbc

/-- The bytes by which a record is sorted: the leading ones of the key, or the whole record. -/
def keyAt (bytes : List UInt8) (recordSize keySize index : Nat) : List UInt8 :=
  (recordAt bytes recordSize index).take (min keySize recordSize)

theorem take_recordAt (bytes : List UInt8) (recordSize keySize index : Nat) :
    (recordAt bytes recordSize index).take keySize = keyAt bytes recordSize keySize index := by
  simp [keyAt, recordAt, List.take_take]

/-! ## The order of records -/

/-- Numbers that are sorted by keys: lesser keys come first, and of equal ones the lesser number. -/
theorem pairwise_mergeSort_keys (key : Nat → List UInt8) (n : Nat) :
    ((List.range n).mergeSort fun a b => keyLE (key a) (key b)).Pairwise fun a b =>
      key a < key b ∨ key a = key b ∧ a < b := by
  generalize hle : (fun a b => keyLE (key a) (key b)) = le
  have htrans : ∀ a b c, le a b = true → le b c = true → le a c = true := by
    subst hle
    exact fun _ _ _ => keyLE_trans
  have htotal : ∀ a b, (le a b || le b a) = true := by
    subst hle
    exact fun _ _ => keyLE_total _ _
  -- Sorted with its place beside it, a number breaks ties by the place, which it equals.
  have hplace : ∀ p ∈ (List.range n).zipIdx.mergeSort (List.zipIdxLE le), p.2 = p.1 := by
    intro p hp
    have hat := List.mem_zipIdx_iff_getElem?.mp (List.mem_mergeSort.mp hp)
    obtain ⟨hlt, hat⟩ := List.getElem?_eq_some_iff.mp hat
    rw [← hat, List.getElem_range]
  have hsorted := List.pairwise_mergeSort (List.zipIdxLE_trans htrans) (List.zipIdxLE_total htotal)
    (List.range n).zipIdx
  have hdistinct : ((List.range n).zipIdx.mergeSort (List.zipIdxLE le)).Pairwise fun p q =>
      p.1 ≠ q.1 := by
    rw [← List.pairwise_map, List.mergeSort_zipIdx]
    exact (List.mergeSort_perm _ _).nodup_iff.mpr List.nodup_range
  rw [← List.mergeSort_zipIdx, List.pairwise_map]
  refine (hsorted.and hdistinct).imp_of_mem fun {p q} hp hq hpq => ?_
  obtain ⟨hpq, hne⟩ := hpq
  rw [List.zipIdxLE, hplace p hp, hplace q hq] at hpq
  subst hle
  split at hpq
  · next hle =>
    rcases keyLE_iff.mp hle with hlt | heq
    · exact .inl hlt
    · rw [if_pos (keyLE_iff.mpr (.inr heq.symm))] at hpq
      exact .inr ⟨heq, Nat.lt_of_le_of_ne (of_decide_eq_true hpq) hne⟩
  · cases hpq

section Records

variable (bytes : List UInt8) {recordSize : Nat} (keySize : Nat) (hsize : 0 < recordSize)
include hsize

theorem sortOrder_eq : sortOrder bytes recordSize keySize =
    (List.range (bytes.length / recordSize)).mergeSort fun a b =>
      keyLE (keyAt bytes recordSize keySize a) (keyAt bytes recordSize keySize b) := by
  unfold sortOrder
  rw [if_neg (Nat.ne_of_gt hsize)]
  simp only [take_recordAt]

theorem perm_sortOrder :
    (sortOrder bytes recordSize keySize).Perm (List.range (bytes.length / recordSize)) := by
  rw [sortOrder_eq bytes keySize hsize]
  exact List.mergeSort_perm _ _

theorem length_sortOrder :
    (sortOrder bytes recordSize keySize).length = bytes.length / recordSize := by
  rw [(perm_sortOrder bytes keySize hsize).length_eq, List.length_range]

theorem mem_sortOrder {index : Nat} :
    index ∈ sortOrder bytes recordSize keySize ↔ index < bytes.length / recordSize :=
  (perm_sortOrder bytes keySize hsize).mem_iff.trans List.mem_range

/-- Lesser keys come first, and of equal ones the earlier record. -/
theorem pairwise_sortOrder : (sortOrder bytes recordSize keySize).Pairwise fun a b =>
    keyAt bytes recordSize keySize a < keyAt bytes recordSize keySize b ∨
      keyAt bytes recordSize keySize a = keyAt bytes recordSize keySize b ∧ a < b := by
  rw [sortOrder_eq bytes keySize hsize]
  exact pairwise_mergeSort_keys (keyAt bytes recordSize keySize) _

end Records

/-! ## The bytes of a slot -/

theorem length_recordAt {bytes : List UInt8} {recordSize index : Nat}
    (h : index < bytes.length / recordSize) :
    (recordAt bytes recordSize index).length = recordSize := by
  have hend : (index + 1) * recordSize ≤ bytes.length :=
    Nat.le_trans (Nat.mul_le_mul_right _ h) (Nat.div_mul_le_self _ _)
  rw [Nat.succ_mul] at hend
  rw [recordAt, List.length_take, List.length_drop]
  omega

theorem getElem?_recordAt (bytes : List UInt8) {recordSize index within : Nat}
    (h : within < recordSize) :
    (recordAt bytes recordSize index)[within]? = bytes[index * recordSize + within]? := by
  rw [recordAt, List.getElem?_take_of_lt h, List.getElem?_drop]

theorem length_flatMap_records {bytes : List UInt8} {recordSize : Nat} {order : List Nat}
    (h : ∀ index ∈ order, index < bytes.length / recordSize) :
    (order.flatMap (recordAt bytes recordSize)).length = order.length * recordSize := by
  induction order with
  | nil => simp
  | cons index order ih =>
    obtain ⟨hindex, horder⟩ := List.forall_mem_cons.mp h
    rw [List.flatMap_cons, List.length_append, length_recordAt hindex, ih horder, List.length_cons,
      Nat.succ_mul, Nat.add_comm]

/-- The byte of a slot is the byte of the record that comes there. -/
theorem getElem?_flatMap_records {bytes : List UInt8} {recordSize : Nat} {order : List Nat}
    (h : ∀ index ∈ order, index < bytes.length / recordSize) {slot index within : Nat}
    (hslot : order[slot]? = some index) (hwithin : within < recordSize) :
    (order.flatMap (recordAt bytes recordSize))[slot * recordSize + within]? =
      bytes[index * recordSize + within]? := by
  induction order generalizing slot with
  | nil => simp at hslot
  | cons first order ih =>
    obtain ⟨hfirst, horder⟩ := List.forall_mem_cons.mp h
    rw [List.flatMap_cons]
    cases slot with
    | zero =>
      obtain rfl : first = index := by simpa using hslot
      rw [Nat.zero_mul, Nat.zero_add, List.getElem?_append_left (by rwa [length_recordAt hfirst]),
        getElem?_recordAt bytes hwithin]
    | succ slot =>
      have hpast :
          (slot + 1) * recordSize + within = recordSize + (slot * recordSize + within) := by
        rw [Nat.succ_mul]
        omega
      rw [hpast, List.getElem?_append_right (by rw [length_recordAt hfirst]; omega),
        length_recordAt hfirst, Nat.add_sub_cancel_left]
      exact ih horder (by simpa using hslot)

theorem slot_place_lt {size count slot place : Nat} (hslot : slot < count) (hplace : place < size) :
    slot * size + place < count * size := by
  have hend : (slot + 1) * size ≤ count * size := Nat.mul_le_mul_right _ hslot
  rw [Nat.succ_mul] at hend
  omega

theorem slot_place_inj {size slot slot' place place' : Nat} (hplace : place < size)
    (hplace' : place' < size) (h : slot * size + place = slot' * size + place') :
    slot = slot' ∧ place = place' := by
  have hsize : 0 < size := Nat.zero_lt_of_lt hplace
  rw [Nat.add_comm, Nat.mul_comm, Nat.add_comm (slot' * size), Nat.mul_comm slot'] at h
  obtain ⟨hslots, hplaces⟩ := (Nat.div_mod_unique hsize).mpr ⟨h, hplace⟩
  obtain ⟨hslots', hplaces'⟩ := (Nat.div_mod_unique hsize).mpr ⟨rfl, hplace'⟩
  exact ⟨hslots.symm.trans hslots', hplaces.symm.trans hplaces'⟩

section Arranging

variable (bytes : List UInt8) {recordSize : Nat} (keySize : Nat) (hsize : 0 < recordSize)
include hsize

theorem lt_of_mem_sortOrder : ∀ index ∈ sortOrder bytes recordSize keySize,
    index < bytes.length / recordSize :=
  fun _ => (mem_sortOrder bytes keySize hsize).mp

theorem length_records :
    ((sortOrder bytes recordSize keySize).flatMap (recordAt bytes recordSize)).length =
    bytes.length / recordSize * recordSize := by
  rw [length_flatMap_records (lt_of_mem_sortOrder bytes keySize hsize),
    length_sortOrder bytes keySize hsize]

theorem length_arrange :
    (arrange bytes recordSize (sortOrder bytes recordSize keySize)).length = bytes.length := by
  rw [arrange, List.length_append, length_records bytes keySize hsize, List.length_drop,
    length_sortOrder bytes keySize hsize]
  exact Nat.add_sub_cancel' (Nat.div_mul_le_self _ _)

/-- Bytes that fill no record stay. -/
theorem drop_arrange :
    (arrange bytes recordSize (sortOrder bytes recordSize keySize)).drop
      (bytes.length / recordSize * recordSize) =
      bytes.drop (bytes.length / recordSize * recordSize) := by
  rw [arrange, ← length_records bytes keySize hsize, List.drop_left,
    length_records bytes keySize hsize, length_sortOrder bytes keySize hsize]

theorem getElem?_arrange_slot {slot index within : Nat}
    (hslot : (sortOrder bytes recordSize keySize)[slot]? = some index)
    (hwithin : within < recordSize) :
    (arrange bytes recordSize (sortOrder bytes recordSize keySize))[slot * recordSize + within]? =
      bytes[index * recordSize + within]? := by
  have hlt : slot < bytes.length / recordSize := by
    rw [← length_sortOrder bytes keySize hsize]
    exact (List.getElem?_eq_some_iff.mp hslot).1
  have hbefore := slot_place_lt hlt hwithin
  rw [← length_records bytes keySize hsize] at hbefore
  rw [arrange, List.getElem?_append_left hbefore]
  exact getElem?_flatMap_records (lt_of_mem_sortOrder bytes keySize hsize) hslot hwithin

theorem recordAt_arrange {slot index : Nat}
    (hslot : (sortOrder bytes recordSize keySize)[slot]? = some index) :
    recordAt (arrange bytes recordSize (sortOrder bytes recordSize keySize)) recordSize slot =
      recordAt bytes recordSize index := by
  refine List.ext_getElem? fun within => ?_
  by_cases hwithin : within < recordSize
  · rw [getElem?_recordAt _ hwithin, getElem?_recordAt _ hwithin]
    exact getElem?_arrange_slot bytes keySize hsize hslot hwithin
  · rw [recordAt, recordAt, List.getElem?_take, List.getElem?_take, if_neg hwithin, if_neg hwithin]

/-! ## Finding a position again -/

variable {start : Nat}

/-- A position in a record goes to the same place of the record's slot. -/
theorem relocate_record (hfits : start + bytes.length < 2 ^ 32) {position : Nat}
    (hstart : start ≤ position) (hend : position < start + bytes.length / recordSize * recordSize) :
    ∃ slot, (sortOrder bytes recordSize keySize)[slot]? = some ((position - start) / recordSize) ∧
      slot * recordSize + (position - start) % recordSize < bytes.length / recordSize * recordSize ∧
      relocate start recordSize (sortOrder bytes recordSize keySize) position =
        start + (slot * recordSize + (position - start) % recordSize) := by
  have hrecord : (position - start) / recordSize ∈ sortOrder bytes recordSize keySize := by
    rw [mem_sortOrder bytes keySize hsize, Nat.div_lt_iff_lt_mul hsize]
    omega
  obtain ⟨slot, hslot⟩ := Option.isSome_iff_exists.mp (List.isSome_idxOf?.mpr hrecord)
  obtain ⟨hlength, hat, -⟩ := List.idxOf?_eq_some_iff.mp hslot
  have hlt : slot < bytes.length / recordSize := by
    rwa [length_sortOrder bytes keySize hsize] at hlength
  have hplace := slot_place_lt hlt (Nat.mod_lt (position - start) hsize)
  have hwhole : bytes.length / recordSize * recordSize ≤ bytes.length := Nat.div_mul_le_self _ _
  refine ⟨slot, List.getElem?_eq_some_iff.mpr ⟨hlength, hat⟩, hplace, ?_⟩
  unfold relocate
  rw [if_neg (by omega), hslot]
  dsimp only
  rw [Nat.add_assoc, wrapAddress_of_lt (by omega)]

theorem relocate_outside {position : Nat}
    (h : position < start ∨ start + bytes.length / recordSize * recordSize ≤ position) :
    relocate start recordSize (sortOrder bytes recordSize keySize) position = position := by
  unfold relocate
  split
  · rfl
  · next hinside =>
    have hnone :
        (sortOrder bytes recordSize keySize).idxOf? ((position - start) / recordSize) = none := by
      rw [List.idxOf?_eq_none_iff, mem_sortOrder bytes keySize hsize, Nat.not_lt,
        Nat.le_div_iff_mul_le hsize]
      omega
    rw [hnone]

theorem mapsTo_relocate (hfits : start + bytes.length < 2 ^ 32) :
    Set.MapsTo (relocate start recordSize (sortOrder bytes recordSize keySize))
      (Set.Ico start (start + bytes.length)) (Set.Ico start (start + bytes.length)) := by
  rintro position ⟨hstart, hend⟩
  by_cases hwhole : position < start + bytes.length / recordSize * recordSize
  · obtain ⟨slot, -, hslots, heq⟩ := relocate_record bytes keySize hsize hfits hstart hwhole
    have hrecords : bytes.length / recordSize * recordSize ≤ bytes.length := Nat.div_mul_le_self _ _
    rw [heq]
    exact ⟨by omega, by omega⟩
  · rw [relocate_outside bytes keySize hsize (.inr (Nat.not_lt.mp hwhole))]
    exact ⟨hstart, hend⟩

/-- Positions in records that go to one place are one. -/
theorem eq_of_relocate_records (hfits : start + bytes.length < 2 ^ 32) {p q : Nat} (hp : start ≤ p)
    (hq : start ≤ q) (hpend : p < start + bytes.length / recordSize * recordSize)
    (hqend : q < start + bytes.length / recordSize * recordSize)
    (h : relocate start recordSize (sortOrder bytes recordSize keySize) p =
      relocate start recordSize (sortOrder bytes recordSize keySize) q) : p = q := by
  obtain ⟨slot, hat, -, hto⟩ := relocate_record bytes keySize hsize hfits hp hpend
  obtain ⟨slot', hat', -, hto'⟩ := relocate_record bytes keySize hsize hfits hq hqend
  have hwithin : (p - start) % recordSize < recordSize := Nat.mod_lt _ hsize
  have hwithin' : (q - start) % recordSize < recordSize := Nat.mod_lt _ hsize
  rw [hto, hto', Nat.add_left_cancel_iff] at h
  obtain ⟨rfl, hplace⟩ := slot_place_inj hwithin hwithin' h
  have hrecord : (p - start) / recordSize = (q - start) / recordSize :=
    Option.some.inj (hat.symm.trans hat')
  have hsame : p - start = q - start := by
    rw [← Nat.div_add_mod (p - start) recordSize, ← Nat.div_add_mod (q - start) recordSize,
      hrecord, hplace]
  omega

theorem injOn_relocate (hfits : start + bytes.length < 2 ^ 32) :
    Set.InjOn (relocate start recordSize (sortOrder bytes recordSize keySize))
      (Set.Ico start (start + bytes.length)) := by
  -- A position in a record stays before the trailing bytes, which stay where they are.
  have hbefore : ∀ p, start ≤ p → p < start + bytes.length / recordSize * recordSize →
      relocate start recordSize (sortOrder bytes recordSize keySize) p <
        start + bytes.length / recordSize * recordSize := by
    intro p hp hpend
    obtain ⟨slot, -, hslots, hto⟩ := relocate_record bytes keySize hsize hfits hp hpend
    omega
  have hstays : ∀ p, ¬ p < start + bytes.length / recordSize * recordSize →
      relocate start recordSize (sortOrder bytes recordSize keySize) p = p :=
    fun p hp => relocate_outside bytes keySize hsize (.inr (Nat.not_lt.mp hp))
  rintro p ⟨hp, -⟩ q ⟨hq, -⟩ h
  by_cases hpend : p < start + bytes.length / recordSize * recordSize
  · by_cases hqend : q < start + bytes.length / recordSize * recordSize
    · exact eq_of_relocate_records bytes keySize hsize hfits hp hq hpend hqend h
    · have hless := hbefore p hp hpend
      rw [h, hstays q hqend] at hless
      exact absurd hless hqend
  · by_cases hqend : q < start + bytes.length / recordSize * recordSize
    · have hless := hbefore q hq hqend
      rw [← h, hstays p hpend] at hless
      exact absurd hless hpend
    · rwa [hstays p hpend, hstays q hqend] at h

/-- The byte of a position is found where the position goes. -/
theorem getElem?_relocate (hfits : start + bytes.length < 2 ^ 32) {position : Nat}
    (hstart : start ≤ position) : (arrange bytes recordSize (sortOrder bytes recordSize keySize))[
      relocate start recordSize (sortOrder bytes recordSize keySize) position - start]? =
      bytes[position - start]? := by
  by_cases hwhole : position < start + bytes.length / recordSize * recordSize
  · obtain ⟨slot, hat, -, hto⟩ := relocate_record bytes keySize hsize hfits hstart hwhole
    rw [hto, Nat.add_sub_cancel_left, getElem?_arrange_slot bytes keySize hsize hat
      (Nat.mod_lt _ hsize), Nat.div_add_mod']
  · obtain ⟨more, hmore⟩ := Nat.exists_eq_add_of_le (Nat.not_lt.mp hwhole)
    have hpast : position - start = bytes.length / recordSize * recordSize + more := by omega
    rw [relocate_outside bytes keySize hsize (.inr (Nat.not_lt.mp hwhole)), hpast,
      ← List.getElem?_drop, drop_arrange bytes keySize hsize, List.getElem?_drop]

end Arranging

/-- The order is one of all whole records; the sorted bytes have them by their keys, equal keys in
    the order that they had, and the trailing bytes as before; and finding positions again takes the
    block onto itself, each byte with its position and nothing else. -/
theorem sorting_relocating_agree (bytes : List UInt8) {recordSize : Nat} (hsize : 0 < recordSize)
    (keySize : Nat) {start : Nat} (hfits : start + bytes.length < 2 ^ 32) :
    let order := sortOrder bytes recordSize keySize
    let sorted := arrange bytes recordSize order
    let whole := bytes.length / recordSize * recordSize
    order.Perm (List.range (bytes.length / recordSize)) ∧
      sorted.length = bytes.length ∧ sorted.drop whole = bytes.drop whole ∧
      (∀ slot index, order[slot]? = some index →
        recordAt sorted recordSize slot = recordAt bytes recordSize index) ∧
      (∀ slot later index other, slot < later → order[slot]? = some index →
        order[later]? = some other →
        keyAt sorted recordSize keySize slot < keyAt sorted recordSize keySize later ∨
          keyAt sorted recordSize keySize slot = keyAt sorted recordSize keySize later ∧
          index < other) ∧
      Set.BijOn (relocate start recordSize order) (Set.Ico start (start + bytes.length))
        (Set.Ico start (start + bytes.length)) ∧
      (∀ position ∈ Set.Ico start (start + bytes.length),
        sorted[relocate start recordSize order position - start]? = bytes[position - start]?) ∧
      ∀ position, position < start ∨ start + whole ≤ position →
        relocate start recordSize order position = position := by
  intro order sorted whole
  refine ⟨perm_sortOrder bytes keySize hsize, length_arrange bytes keySize hsize,
    drop_arrange bytes keySize hsize,
    fun _ _ => recordAt_arrange bytes keySize hsize, ?_, ?_, ?_, ?_⟩
  · intro slot later index other hlater hslot hother
    obtain ⟨hlt, hat⟩ := List.getElem?_eq_some_iff.mp hslot
    obtain ⟨hlt', hat'⟩ := List.getElem?_eq_some_iff.mp hother
    have hkeys := List.pairwise_iff_getElem.mp (pairwise_sortOrder bytes keySize hsize) slot later
      hlt hlt' hlater
    rw [hat, hat'] at hkeys
    rw [keyAt, keyAt, recordAt_arrange bytes keySize hsize hslot,
      recordAt_arrange bytes keySize hsize hother]
    exact hkeys
  · exact ((Set.finite_Ico _ _).injOn_iff_bijOn_of_mapsTo
      (mapsTo_relocate bytes keySize hsize hfits)).mp (injOn_relocate bytes keySize hsize hfits)
  · exact fun position hposition => getElem?_relocate bytes keySize hsize hfits hposition.1
  · exact fun position => relocate_outside bytes keySize hsize

/-- Three records of three bytes, two of them with one key, and a byte that fills none. -/
def lampRecords : List UInt8 := [0x20, 0x00, 0xA1, 0x10, 0x00, 0xB2, 0x20, 0x00, 0xC3, 0xEE]

theorem lampRecords_agree :
    (0 : Nat) < 3 ∧ 0x500 + lampRecords.length < 2 ^ 32 ∧ sortOrder lampRecords 3 2 = [1, 0, 2] ∧
    keyAt (arrange lampRecords 3 [1, 0, 2]) 3 2 0 < keyAt (arrange lampRecords 3 [1, 0, 2]) 3 2 1 ∧
    Set.BijOn (relocate 0x500 3 [1, 0, 2]) (Set.Ico 0x500 0x50A) (Set.Ico 0x500 0x50A) ∧
    (arrange lampRecords 3 [1, 0, 2])[relocate 0x500 3 [1, 0, 2] 0x502 - 0x500]? = some 0xA1 := by
  have horder : sortOrder lampRecords 3 2 = [1, 0, 2] := by
    simp [sortOrder, lampRecords, List.range_succ, List.mergeSort,
      List.MergeSort.Internal.splitInTwo, recordAt, keyLE]
  have hsize : (0 : Nat) < 3 := by decide
  have hfits : 0x500 + lampRecords.length < 2 ^ 32 := by decide
  obtain ⟨-, -, -, -, hkeys, hbij, hbytes, -⟩ := sorting_relocating_agree lampRecords hsize 2 hfits
  rw [horder] at hkeys hbij hbytes
  refine ⟨hsize, hfits, horder, ?_, hbij, hbytes 0x502 ⟨by decide, by decide⟩⟩
  rcases hkeys 0 1 1 0 (by decide) rfl rfl with hlt | ⟨-, hless⟩
  · exact hlt
  · exact absurd hless (by decide)

end ZAssembler.Vocabulary
