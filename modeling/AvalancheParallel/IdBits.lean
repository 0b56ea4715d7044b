import AvalancheParallel.Ids

/-!
# Bits of identifiers

The bit operations of `default/ids/bits.go` and `ID.Bit`. Bit 0 is the least
significant bit of the first byte. Ranges of bits are compared byte by byte, with
masks for the first and the last byte of the range; the masks are 64-bit words, as
`int` is.

Masked bytes differ where a bit that the mask lets through differs, so each comparison of
the source is about some of the bits of one byte, and the comparisons together are about
those of the range.
-/

namespace AvalancheParallel.Ids

/-- `NumBits`. -/
def numBits : ℕ := 256

/-- `BitsPerByte`. -/
def bitsPerByte : ℕ := 8

/-- The byte at a position, as an `int`. The positions used are below 32. -/
def byteAt (id : ID) (index : ℕ) : BitVec 64 := BitVec.ofNat 64 (id.toList.getD index 0).toNat

/-- `ID.Bit`, as a truth value. -/
def ID.bit (id : ID) (index : ℕ) : Bool :=
  (byteAt id (index / bitsPerByte)).getLsbD (index % bitsPerByte)

/-- The mask without the bits below the first one. -/
def startMask (startBit : ℕ) : BitVec 64 := BitVec.allOnes 64 <<< startBit

/-- The mask of the bits up to the last one. -/
def stopMask (stopBit : ℕ) : BitVec 64 := (1 <<< (stopBit + 1)) - 1

/-- `EqualSubset`: the bits from `start` to `stop`, exclusive, are equal. -/
def equalSubset (start stop : ℕ) (id other : ID) : Bool :=
  if stop = 0 ∨ stop - 1 < start then true
  else if numBits ≤ stop - 1 then false
  else
    let startIndex := start / bitsPerByte
    let stopIndex := (stop - 1) / bitsPerByte
    let first := startMask (start % bitsPerByte)
    let last := stopMask ((stop - 1) % bitsPerByte)
    if startIndex + 1 < stopIndex ∧
        (id.toList.drop (startIndex + 1)).take (stopIndex - (startIndex + 1)) ≠
          (other.toList.drop (startIndex + 1)).take (stopIndex - (startIndex + 1)) then false
    else if startIndex = stopIndex then
      decide (first &&& last &&& byteAt id startIndex = first &&& last &&& byteAt other startIndex)
    else
      decide (first &&& byteAt id startIndex = first &&& byteAt other startIndex) &&
        decide (last &&& byteAt id stopIndex = last &&& byteAt other stopIndex)

/-- `bits.TrailingZeros8` of the lowest byte. -/
def trailingZeros8 (word : BitVec 64) : ℕ :=
  ((List.range 8).find? (fun index => word.getLsbD index)).getD 8

/-- The position of the first difference of two masked bytes, if there is one. -/
def byteDifference (mask : BitVec 64) (index : ℕ) (id other : ID) : Option ℕ :=
  if mask &&& byteAt id index = mask &&& byteAt other index then none
  else some (trailingZeros8 ((mask &&& byteAt id index) ^^^ (mask &&& byteAt other index)) +
    index * bitsPerByte)

/-- `FirstDifferenceSubset`: the first bit from `start` to `stop`, exclusive, that differs. -/
def firstDifferenceSubset (start stop : ℕ) (id other : ID) : Option ℕ :=
  if stop = 0 ∨ stop - 1 < start ∨ numBits ≤ stop - 1 then none
  else
    let startIndex := start / bitsPerByte
    let stopIndex := (stop - 1) / bitsPerByte
    let first := startMask (start % bitsPerByte)
    let last := stopMask ((stop - 1) % bitsPerByte)
    if startIndex = stopIndex then byteDifference (first &&& last) startIndex id other
    else
      match byteDifference first startIndex id other with
      | some index => some index
      | none =>
        match (List.range' (startIndex + 1) (stopIndex - (startIndex + 1))).findSome?
            (fun index => byteDifference (BitVec.allOnes 64) index id other) with
        | some index => some index
        | none => byteDifference last stopIndex id other

/-- A byte has eight bits. -/
theorem byteAt_high (id : ID) (index offset : ℕ) (high : bitsPerByte ≤ offset) :
    (byteAt id index).getLsbD offset = false := by
  unfold byteAt
  rw [BitVec.getLsbD_ofNat, Nat.testBit_lt_two_pow, Bool.and_false]
  calc (id.toList.getD index 0).toNat < 2 ^ 8 := UInt8.toNat_lt _
    _ ≤ 2 ^ offset := Nat.pow_le_pow_right (by decide) high

/-- Bytes are equal as words when they are equal. -/
theorem byteAt_inj (id other : ID) (index : ℕ) :
    byteAt id index = byteAt other index ↔
      id.toList.getD index 0 = other.toList.getD index 0 := by
  constructor
  · intro same
    have value := congrArg BitVec.toNat same
    have left := (id.toList.getD index 0).toNat_lt
    have right := (other.toList.getD index 0).toNat_lt
    rw [byteAt, byteAt, BitVec.toNat_ofNat, BitVec.toNat_ofNat, Nat.mod_eq_of_lt (by omega),
      Nat.mod_eq_of_lt (by omega)] at value
    exact UInt8.toNat_inj.mp value
  · intro same
    rw [byteAt, byteAt, same]

/-- The bits of an identifier, the first one first. -/
def ID.bits (id : ID) : List Bool := (List.range numBits).map id.bit

/-- The bit at an offset of a byte. -/
theorem bit_of_byte (id : ID) (index offset : ℕ) (low : offset < bitsPerByte) :
    id.bit (offset + index * bitsPerByte) = (byteAt id index).getLsbD offset := by
  have byte : (offset + index * bitsPerByte) / bitsPerByte = index := by
    unfold bitsPerByte at *
    omega
  have place : (offset + index * bitsPerByte) % bitsPerByte = offset := by
    unfold bitsPerByte at *
    omega
  rw [ID.bit, byte, place]

/-- The bits that the mask lets through in a byte and that differ. -/
def Differs (mask : BitVec 64) (index : ℕ) (id other : ID) (position : ℕ) : Prop :=
  position / bitsPerByte = index ∧ mask.getLsbD (position % bitsPerByte) = true ∧
    id.bit position ≠ other.bit position

/-- Masked bytes are equal when no bit that the mask lets through differs. -/
theorem masked_eq_iff (mask : BitVec 64) (index : ℕ) (id other : ID) :
    mask &&& byteAt id index = mask &&& byteAt other index ↔
      ∀ position, ¬ Differs mask index id other position := by
  constructor
  · rintro same position ⟨rfl, passed, different⟩
    have bits := congrArg (fun word => word.getLsbD (position % bitsPerByte)) same
    simp only [BitVec.getLsbD_and, passed, Bool.true_and] at bits
    exact different bits
  · intro none
    refine BitVec.eq_of_getLsbD_eq ?_
    intro offset _
    rw [BitVec.getLsbD_and, BitVec.getLsbD_and]
    by_cases low : offset < bitsPerByte
    · cases passed : mask.getLsbD offset with
      | false => rfl
      | true =>
        have clear := none (offset + index * bitsPerByte)
        unfold Differs at clear
        rw [bit_of_byte id index offset low, bit_of_byte other index offset low,
          Nat.add_mul_mod_self_right, Nat.mod_eq_of_lt low,
          Nat.add_mul_div_right _ _ (by decide), Nat.div_eq_of_lt low, Nat.zero_add] at clear
        by_contra different
        exact clear ⟨rfl, passed, fun same => different (by rw [same])⟩
    · rw [byteAt_high _ _ _ (Nat.le_of_not_lt low), byteAt_high _ _ _ (Nat.le_of_not_lt low)]

/-- A search answers with the first position that has the property. -/
def FirstWhere (property : ℕ → Prop) : Option ℕ → Prop
  | none => ∀ position, ¬ property position
  | some position => IsLeast {position | property position} position

/-- A search among low positions and then among high ones. -/
theorem FirstWhere.or {low high : ℕ → Prop} {found later : Option ℕ} (first : FirstWhere low found)
    (second : FirstWhere high later) (below : ∀ i j, low i → high j → i ≤ j) :
    FirstWhere (fun position => low position ∨ high position) (found.or later) := by
  cases found with
  | some i =>
    refine ⟨Or.inl first.1, ?_⟩
    rintro j (before | after)
    · exact first.2 before
    · exact below i j first.1 after
  | none =>
    cases later with
    | none =>
      rintro position (before | after)
      · exact first position before
      · exact second position after
    | some i =>
      refine ⟨Or.inr second.1, ?_⟩
      rintro j (before | after)
      · exact absurd before (first j)
      · exact second.2 after

/-- The first position depends on the property only. -/
theorem FirstWhere.congr {property other : ℕ → Prop} {found : Option ℕ}
    (first : FirstWhere property found) (same : ∀ position, property position ↔ other position) :
    FirstWhere other found := by
  obtain rfl : property = other := funext (fun position => propext (same position))
  exact first

/-- Nothing is found exactly when no position has the property. -/
theorem FirstWhere.eq_none_iff {property : ℕ → Prop} {found : Option ℕ}
    (first : FirstWhere property found) : found = none ↔ ∀ position, ¬ property position := by
  cases found with
  | none => exact iff_of_true rfl first
  | some position => exact iff_of_false (by simp) (fun none => none position first.1)

/-- What is found is the least position with the property. -/
theorem FirstWhere.eq_some_iff {property : ℕ → Prop} {found : Option ℕ}
    (first : FirstWhere property found) (position : ℕ) :
    found = some position ↔ IsLeast {position | property position} position := by
  cases found with
  | none => exact iff_of_false (by simp) (fun least => first position least.1)
  | some reached =>
    rw [Option.some.injEq]
    constructor
    · rintro rfl
      exact first
    · exact fun least => first.unique least

/-- The search in one byte. -/
theorem byteDifference_first (mask : BitVec 64) (index : ℕ) (id other : ID) :
    FirstWhere (Differs mask index id other) (byteDifference mask index id other) := by
  unfold byteDifference
  split
  · rename_i same
    exact (masked_eq_iff mask index id other).mp same
  rename_i different
  let word := (mask &&& byteAt id index) ^^^ (mask &&& byteAt other index)
  have bits : ∀ position, position / bitsPerByte = index →
      (word.getLsbD (position % bitsPerByte) = true ↔ Differs mask index id other position) := by
    rintro position rfl
    cases passed : mask.getLsbD (position % bitsPerByte) with
    | false => simp [word, Differs, passed]
    | true => simp [word, Differs, passed, ID.bit]
  obtain ⟨position, differs⟩ := not_forall_not.mp (fun none => different
    ((masked_eq_iff mask index id other).mpr none))
  unfold trailingZeros8
  cases search : (List.range 8).find? (fun offset => word.getLsbD offset) with
  | none =>
    have within : position % bitsPerByte < 8 := Nat.mod_lt _ (by decide)
    have clear := List.find?_eq_none.mp search _ (List.mem_range.mpr within)
    exact absurd ((bits position differs.1).mpr differs) (by simpa using clear)
  | some offset =>
    obtain ⟨set, inside, before⟩ := List.find?_range_eq_some.mp search
    have byte : (offset + index * bitsPerByte) / bitsPerByte = index := by
      have within := List.mem_range.mp inside
      unfold bitsPerByte
      omega
    have place : (offset + index * bitsPerByte) % bitsPerByte = offset := by
      have within := List.mem_range.mp inside
      unfold bitsPerByte
      omega
    refine ⟨(bits _ byte).mp (by rw [place]; exact set), ?_⟩
    intro earlier alsoDiffers
    by_contra above
    have sooner : earlier % bitsPerByte < offset := by
      have same := alsoDiffers.1
      rw [Option.getD_some] at above
      unfold bitsPerByte at *
      omega
    have clear := before _ sooner
    rw [(bits earlier alsoDiffers.1).mpr alsoDiffers] at clear
    cases clear

/-- The first mask keeps the bits from its start on. -/
theorem startMask_bit : ∀ startBit < 8, ∀ offset < 8,
    (startMask startBit).getLsbD offset = decide (startBit ≤ offset) := by
  decide

/-- The last mask keeps the bits up to its end. -/
theorem stopMask_bit : ∀ stopBit < 8, ∀ offset < 8,
    (stopMask stopBit).getLsbD offset = decide (offset ≤ stopBit) := by
  decide

section Masks

variable (id other : ID) (position : ℕ)

/-- Without a mask, the bytes differ at every bit that differs. -/
theorem differs_allOnes (index : ℕ) :
    Differs (BitVec.allOnes 64) index id other position ↔
      position / bitsPerByte = index ∧ id.bit position ≠ other.bit position := by
  have inside : position % bitsPerByte < 64 :=
    (Nat.mod_lt _ (by decide)).trans (by decide : bitsPerByte < 64)
  unfold Differs
  rw [BitVec.getLsbD_allOnes, decide_eq_true inside]
  simp

/-- In the first byte, the bits from the start on count. -/
theorem differs_startMask (start : ℕ) :
    Differs (startMask (start % bitsPerByte)) (start / bitsPerByte) id other position ↔
      (position / bitsPerByte = start / bitsPerByte ∧ start ≤ position) ∧
        id.bit position ≠ other.bit position := by
  have bit := startMask_bit _ (Nat.mod_lt start (by decide)) _ (Nat.mod_lt position (by decide))
  unfold Differs
  rw [← and_assoc]
  refine and_congr_left' ?_
  unfold bitsPerByte at *
  rw [bit, decide_eq_true_eq]
  omega

/-- In the last byte, the bits up to the end count. -/
theorem differs_stopMask (last : ℕ) :
    Differs (stopMask (last % bitsPerByte)) (last / bitsPerByte) id other position ↔
      (position / bitsPerByte = last / bitsPerByte ∧ position ≤ last) ∧
        id.bit position ≠ other.bit position := by
  have bit := stopMask_bit _ (Nat.mod_lt last (by decide)) _ (Nat.mod_lt position (by decide))
  unfold Differs
  rw [← and_assoc]
  refine and_congr_left' ?_
  unfold bitsPerByte at *
  rw [bit, decide_eq_true_eq]
  omega

/-- Two masks apply together. -/
theorem differs_and (first second : BitVec 64) (index : ℕ) :
    Differs (first &&& second) index id other position ↔
      Differs first index id other position ∧ Differs second index id other position := by
  unfold Differs
  rw [BitVec.getLsbD_and, Bool.and_eq_true]
  tauto

end Masks

/-- The search in whole bytes, one after the other. -/
theorem bytesDifference_first (id other : ID) (index count : ℕ) :
    FirstWhere (fun position => (index ≤ position / bitsPerByte ∧
        position / bitsPerByte < index + count) ∧ id.bit position ≠ other.bit position)
      ((List.range' index count).findSome?
        (fun index => byteDifference (BitVec.allOnes 64) index id other)) := by
  induction count generalizing index with
  | zero =>
    rintro position ⟨⟨low, high⟩, _⟩
    omega
  | succ count inductionHypothesis =>
    have first := byteDifference_first (BitVec.allOnes 64) index id other
    have whole := first.or (inductionHypothesis (index + 1)) (by
      rintro i j ⟨here, _, _⟩ ⟨⟨later, _⟩, _⟩
      unfold bitsPerByte at *
      omega)
    have search : (List.range' index (count + 1)).findSome?
        (fun index => byteDifference (BitVec.allOnes 64) index id other) =
        (byteDifference (BitVec.allOnes 64) index id other).or
          ((List.range' (index + 1) count).findSome?
            (fun index => byteDifference (BitVec.allOnes 64) index id other)) := by
      rw [List.range'_succ, List.findSome?_cons]
      cases byteDifference (BitVec.allOnes 64) index id other <;> rfl
    rw [search]
    refine whole.congr ?_
    intro position
    rw [differs_allOnes, ← or_and_right]
    refine and_congr_left' ?_
    omega

/-- `FirstDifferenceSubset` finds the first difference in its range. -/
theorem firstDifferenceSubset_first (start stop : ℕ) (id other : ID) (bounded : stop ≤ numBits) :
    FirstWhere (fun position => (start ≤ position ∧ position < stop) ∧
      id.bit position ≠ other.bit position) (firstDifferenceSubset start stop id other) := by
  unfold firstDifferenceSubset
  split
  · rename_i outside
    rintro position ⟨range, _⟩
    unfold numBits at *
    omega
  rename_i inside
  dsimp only
  split
  · rename_i sameByte
    refine (byteDifference_first _ _ id other).congr ?_
    intro position
    rw [differs_and, differs_startMask, sameByte, differs_stopMask, ← and_and_right]
    refine and_congr_left' ?_
    unfold bitsPerByte at *
    omega
  · rename_i bytes
    have middle := bytesDifference_first id other (start / bitsPerByte + 1)
      ((stop - 1) / bitsPerByte - (start / bitsPerByte + 1))
    have ends := middle.or (byteDifference_first (stopMask ((stop - 1) % bitsPerByte))
      ((stop - 1) / bitsPerByte) id other) (by
        rintro i j ⟨⟨_, before⟩, _⟩ ⟨later, _, _⟩
        unfold bitsPerByte at *
        omega)
    have whole := (byteDifference_first (startMask (start % bitsPerByte)) (start / bitsPerByte)
      id other).or ends (by
        rintro i j ⟨first, _, _⟩ (⟨⟨later, _⟩, _⟩ | ⟨later, _, _⟩) <;>
        · unfold bitsPerByte at *
          omega)
    have search : ∀ first second third : Option ℕ,
        (match first with
          | some index => some index
          | none =>
            match second with
            | some index => some index
            | none => third) = first.or (second.or third) := by
      intro first second third
      cases first <;> cases second <;> rfl
    rw [search]
    refine whole.congr ?_
    intro position
    rw [differs_startMask, differs_stopMask, ← or_and_right, ← or_and_right]
    refine and_congr_left' ?_
    unfold bitsPerByte at *
    omega

/-- The first difference is in the range that is searched. -/
theorem firstDifferenceSubset_range {start stop : ℕ} {id other : ID} {index : ℕ}
    (found : firstDifferenceSubset start stop id other = some index) :
    start ≤ index ∧ index < stop := by
  by_cases bounded : stop ≤ numBits
  · have first := firstDifferenceSubset_first start stop id other bounded
    rw [found] at first
    exact first.1.1
  · have beyond : numBits ≤ stop - 1 := by omega
    simp [firstDifferenceSubset, beyond] at found

/-- Ranges of bytes are equal when their bits are. -/
theorem bytes_eq_iff (id other : ID) (index count : ℕ) :
    (id.toList.drop index).take count = (other.toList.drop index).take count ↔
      ∀ position, index ≤ position / bitsPerByte → position / bitsPerByte < index + count →
        id.bit position = other.bit position := by
  constructor
  · intro same position low high
    have here := congrArg (fun bytes => bytes[position / bitsPerByte - index]?) same
    simp only [List.getElem?_take, List.getElem?_drop,
      show position / bitsPerByte - index < count by omega, if_true,
      show index + (position / bitsPerByte - index) = position / bitsPerByte by omega] at here
    unfold ID.bit byteAt
    rw [List.getD_eq_getElem?_getD, List.getD_eq_getElem?_getD, here]
  · intro same
    refine List.ext_getElem (by simp) ?_
    intro i within _
    rw [List.length_take, List.length_drop] at within
    have bytes : byteAt id (index + i) = byteAt other (index + i) := by
      have masked := (masked_eq_iff (BitVec.allOnes 64) (index + i) id other).mpr (by
        intro position differs
        obtain ⟨here, different⟩ := (differs_allOnes id other position _).mp differs
        exact different (same position (by omega) (by omega)))
      rwa [BitVec.allOnes_and, BitVec.allOnes_and] at masked
    have values := (byteAt_inj id other _).mp bytes
    have inside : index + i < 32 := by
      rw [Vector.length_toList] at within
      omega
    rw [List.getD_eq_getElem?_getD, List.getD_eq_getElem?_getD,
      List.getElem?_eq_getElem (by simpa using inside),
      List.getElem?_eq_getElem (by simpa using inside)] at values
    simpa using values

/-- Identifiers with the same bits are equal. -/
theorem ID.eq_of_bit_eq {id other : ID} (same : ∀ index < numBits, id.bit index = other.bit index) :
    id = other := by
  have bytes := (bytes_eq_iff id other 0 32).mpr (by
    intro position _ high
    refine same position ?_
    unfold numBits
    unfold bitsPerByte at high
    omega)
  rw [List.drop_zero, List.drop_zero, List.take_of_length_le (by simp),
    List.take_of_length_le (by simp)] at bytes
  exact Vector.toList_inj.mp bytes

/-- `EqualSubset` compares the bits of its range. -/
theorem equalSubset_eq_true_iff (start stop : ℕ) (id other : ID) (bounded : stop ≤ numBits) :
    equalSubset start stop id other = true ↔
      ∀ position, start ≤ position → position < stop → id.bit position = other.bit position := by
  unfold equalSubset
  split
  · rename_i empty
    refine iff_of_true rfl ?_
    intro position low high
    omega
  rename_i inside
  split
  · rename_i beyond
    omega
  dsimp only
  have middle := bytes_eq_iff id other (start / bitsPerByte + 1)
    ((stop - 1) / bitsPerByte - (start / bitsPerByte + 1))
  split
  · rename_i different
    refine iff_of_false (by simp) ?_
    intro same
    refine different.2 (middle.mpr ?_)
    intro position low high
    unfold bitsPerByte at *
    exact same position (by omega) (by omega)
  · rename_i equal
    have between : ∀ position, start / bitsPerByte < position / bitsPerByte →
        position / bitsPerByte < (stop - 1) / bitsPerByte →
        id.bit position = other.bit position := by
      intro position low high
      have same := middle.mp (by
        by_contra different
        exact equal ⟨by omega, different⟩)
      exact same position low (by omega)
    split
    · rename_i sameByte
      rw [decide_eq_true_eq, masked_eq_iff]
      refine forall_congr' ?_
      intro position
      rw [differs_and, differs_startMask, sameByte, differs_stopMask, ← and_and_right, not_and,
        not_not, ← and_imp]
      refine imp_congr_left ?_
      unfold bitsPerByte at *
      omega
    · rename_i bytes
      rw [Bool.and_eq_true, decide_eq_true_eq, decide_eq_true_eq, masked_eq_iff, masked_eq_iff,
        ← forall_and]
      refine forall_congr' ?_
      intro position
      rw [differs_startMask, differs_stopMask]
      by_cases same : id.bit position = other.bit position
      · simp [same]
      · have elsewhere : ¬ (start / bitsPerByte < position / bitsPerByte ∧
            position / bitsPerByte < (stop - 1) / bitsPerByte) :=
          fun ⟨low, high⟩ => same (between position low high)
        simp only [same, not_false_eq_true, ne_eq, and_true, imp_false]
        unfold bitsPerByte at *
        omega

/-- `EqualSubset` and `FirstDifferenceSubset` compare the range bit by bit. -/
theorem subset_comparisons_bitwise (start stop : ℕ) (id other : ID) (bounded : stop ≤ 256) :
    (equalSubset start stop id other = true ↔
      ∀ i, start ≤ i → i < stop → id.bit i = other.bit i) ∧
    (∀ i, firstDifferenceSubset start stop id other = some i ↔
      IsLeast {i | (start ≤ i ∧ i < stop) ∧ id.bit i ≠ other.bit i} i) ∧
    (firstDifferenceSubset start stop id other = none ↔
      ∀ i, start ≤ i → i < stop → id.bit i = other.bit i) := by
  have first := firstDifferenceSubset_first start stop id other bounded
  refine ⟨equalSubset_eq_true_iff start stop id other bounded, first.eq_some_iff, ?_⟩
  rw [first.eq_none_iff]
  refine forall_congr' ?_
  intro i
  rw [not_and, not_not, and_imp]

/-- Identifiers that differ in the last bit of the first byte, compared from the middle of that
byte to the middle of the next. -/
theorem subset_comparisons_bitwise_bytes :
    IsLeast {i | (5 ≤ i ∧ i < 12) ∧
      ID.bit (Vector.replicate 32 0) i ≠ ID.bit ((Vector.replicate 32 0).set 0 128) i} 7 :=
  ((subset_comparisons_bitwise 5 12 _ _ (by decide)).2.1 7).mp (by decide)

end AvalancheParallel.Ids
