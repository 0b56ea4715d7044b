import AvalancheParallel.Codec.Unmarshaling

/-!
# What marshaling writes

`marshal` writes the encoding of a value, or refuses it. The keys of a map are written in the
order in which Go visits them, sorted by their bytes and written again with the values; the
packer is rewound in between, and what it held is overwritten.
-/

namespace AvalancheParallel.Codec

open AvalancheParallel.ByteOrder
open AvalancheParallel.Codec.Packer

variable {T ι : Type}

/-! ## What marshaling writes -/

section Writers

/-- `PackByte` writes one digit. -/
theorem writes_packByte (n : ℕ) : Writes (packByte (UInt8.ofNat n)) (digits 1 n) := by
  rw [digits, digits, Nat.pow_zero, Nat.div_one]
  exact writes_packFixedBytes _

/-- `PackShort` writes two digits. -/
theorem writes_packShort {n : ℕ} (small : n < 2 ^ 16) :
    Writes (packShort (UInt16.ofNat n)) (digits 2 n) := by
  rw [packShort, UInt16.toNat_ofNat_of_lt' small]
  exact writes_packFixedBytes _

/-- `PackInt` writes four digits. -/
theorem writes_packInt {n : ℕ} (small : n < 2 ^ 32) :
    Writes (packInt (UInt32.ofNat n)) (digits 4 n) := by
  rw [packInt, UInt32.toNat_ofNat_of_lt' small]
  exact writes_packFixedBytes _

/-- `PackLong` writes eight digits. -/
theorem writes_packLong {n : ℕ} (small : n < 2 ^ 64) :
    Writes (packLong (UInt64.ofNat n)) (digits 8 n) := by
  rw [packLong, UInt64.toNat_ofNat_of_lt' small]
  exact writes_packFixedBytes _

/-- A number is written with the digits of its kind. -/
theorem writes_packNumber (kind : NumberKind) (bits : Fin (256 ^ kind.len)) :
    Writes (packNumber kind bits) (digits kind.len bits) := by
  have bound := bits.isLt
  cases kind with
  | uint8 => exact writes_packByte _
  | int8 => exact writes_packByte _
  | uint16 => exact writes_packShort bound
  | int16 => exact writes_packShort bound
  | uint32 => exact writes_packInt bound
  | int32 => exact writes_packInt bound
  | uint64 => exact writes_packLong bound
  | int64 => exact writes_packLong bound

/-- A text within the limit is written after its length. -/
theorem writes_packStr {text : List UInt8} (bounded : text.length ≤ maxStringLen) :
    Writes (packStr text) (digits 2 text.length ++ text) := by
  have small : text.length < 2 ^ 16 := Nat.lt_succ_of_le bounded
  rw [packStr, if_neg (Nat.not_lt_of_le bounded)]
  exact (writes_packShort small).followedBy (writes_packFixedBytes text)

/-- Writers that write, one after another. -/
theorem writes_packAll {writers : List Writer} {vals : List (List UInt8)}
    (writes : List.Forall₂ Writes writers vals) : Writes (packAll writers) vals.flatten := by
  induction writes with
  | nil => exact writes_nil
  | cons first _ inductionHypothesis => exact first.followedBy inductionHypothesis

/-- The bytes of an array are written one by one. -/
theorem writes_packBytes (content : List UInt8) :
    Writes (packAll (content.map packByte)) content := by
  induction content with
  | nil => exact writes_nil
  | cons byte rest inductionHypothesis =>
    exact (writes_packFixedBytes [byte]).followedBy inductionHypothesis

/-- A sequence with a writer that fails fails, if the others write or fail. -/
theorem refuses_packAll {writers : List Writer}
    (all : ∀ writer ∈ writers, (∃ val, Writes writer val) ∨ Refuses writer)
    {writer : Writer} (member : writer ∈ writers) (refuses : Refuses writer) :
    Refuses (packAll writers) := by
  induction writers with
  | nil => cases member
  | cons first rest inductionHypothesis =>
    obtain ⟨decided, others⟩ := List.forall_mem_cons.mp all
    rcases decided with ⟨val, writes⟩ | fails
    · rcases List.mem_cons.mp member with rfl | later
      · exact refuses.followedBy_left _
      · exact writes.followedBy_refuses (inductionHypothesis others later)
    · exact fails.followedBy_left _

/-- What is not empty is written as it is. -/
theorem writes_packSome {writer : Writer} {val : List UInt8} (writes : Writes writer val)
    (nonempty : val ≠ []) : Writes (packSome writer) val := by
  intro p within
  have positive := List.length_pos_iff.mpr nonempty
  rw [packSome, writes p within, packFixedBytes]
  by_cases fits : p.Fits val
  · rw [if_pos fits]
    simp only
    rw [if_neg]
    simp only [write]
    omega
  · rw [if_neg fits]

/-- What is empty or refused is refused. -/
theorem refuses_packSome {writer : Writer}
    (fails : Writes writer [] ∨ Refuses writer) : Refuses (packSome writer) := by
  intro p within
  rw [packSome]
  rcases fails with writes | refuses
  · rw [writes p within, ← writes_nil p within]
    simp only [if_true]
    exact ⟨_, rfl⟩
  · obtain ⟨e, failed⟩ := refuses p within
    rw [failed]
    exact ⟨e, rfl⟩

/-- Elements within the limit are written after their number. -/
theorem writes_packCounted {numElts : ℕ} (bounded : numElts ≤ maxInt32) {rest : Writer}
    {val : List UInt8} (writes : Writes rest val) :
    Writes (packCounted numElts rest) (digits 4 numElts ++ val) := by
  have small : numElts < 2 ^ 32 := Nat.lt_of_le_of_lt bounded (by decide)
  rw [packCounted, if_neg (Nat.not_lt_of_le bounded)]
  exact (writes_packInt small).followedBy writes

/-- Too many elements are refused, and so are elements that are refused. -/
theorem refuses_packCounted {numElts : ℕ} {rest : Writer}
    (fails : numElts > maxInt32 ∨ Refuses rest) : Refuses (packCounted numElts rest) := by
  rw [packCounted]
  split
  · exact refuses_error _
  · rename_i bounded
    exact (writes_packFixedBytes _).followedBy_refuses (fails.resolve_left bounded)

end Writers

/-! ## Maps -/

section Maps

variable {α β : Type}

/-- All positions in order select the list itself. -/
theorem select_range (elements : List α) :
    select (List.range elements.length) elements = elements := by
  have same : (List.range elements.length).map (fun i => elements[i]?) = elements.map some := by
    apply List.ext_getElem?
    intro i
    rw [List.getElem?_map, List.getElem?_map]
    by_cases inside : i < elements.length
    · simp [inside]
    · simp [Nat.le_of_not_lt inside]
  rw [select, ← Function.id_comp (fun i => elements[i]?), ← List.filterMap_map, same,
    List.filterMap_map]
  exact List.filterMap_some

/-- Rearranged positions select a rearrangement. -/
theorem select_perm {positions : List ℕ} {elements : List α}
    (perm : positions.Perm (List.range elements.length)) :
    (select positions elements).Perm elements := by
  have same := perm.filterMap (fun i => elements[i]?)
  rw [← select, ← select, select_range] at same
  exact same

/-- The positions may be selected before or after a function is applied. -/
theorem map_select (f : α → β) (positions : List ℕ) (elements : List α) :
    select positions (elements.map f) = (select positions elements).map f := by
  rw [select, select, List.map_filterMap]
  congr 1
  funext i
  rw [List.getElem?_map]

/-- Sorting brings entries back into the order of their keys. -/
theorem select_sortFunc (orders : MapOrders) {listed shuffled : List (List UInt8 × α)}
    (ascending : listed.Pairwise (fun earlier later => earlier.1 < later.1))
    (perm : shuffled.Perm listed) :
    select (orders.sortFunc (shuffled.map Prod.fst)) shuffled = listed := by
  have rearranged := orders.sortFunc_perm (shuffled.map Prod.fst)
  rw [List.length_map] at rearranged
  have sorted : (select (orders.sortFunc (shuffled.map Prod.fst)) shuffled).Pairwise
      (fun earlier later => ¬ later.1 < earlier.1) := by
    rw [select, List.pairwise_filterMap]
    apply (orders.sortFunc_sorted (shuffled.map Prod.fst)).imp
    intro i j notAfter one foundOne other foundOther
    simpa [List.getD_eq_getElem?_getD, foundOne, foundOther] using notAfter
  have distinct : ∀ one ∈ listed, ∀ other ∈ listed, one.1 = other.1 → one = other := by
    have nodup : (listed.map Prod.fst).Nodup := by
      rw [List.Nodup, List.pairwise_map]
      exact ascending.imp ne_of_lt
    exact fun one oneListed other otherListed same =>
      List.inj_on_of_nodup_map nodup oneListed otherListed same
  apply List.Perm.eq_of_pairwise _ sorted (ascending.imp fun below => lt_asymm below)
    ((select_perm rearranged).trans perm)
  intro one other oneMember otherMember notAfter notBefore
  have oneListed := perm.subset ((select_perm rearranged).subset oneMember)
  exact distinct one oneListed other otherMember
    (le_antisymm (not_lt.mp notAfter) (not_lt.mp notBefore))

/-- What was written first stands between the offsets. -/
theorem slice_write {p : Packer} (within : p.Within) (first second : List UInt8) :
    ((p.write (first ++ second)).bytes.take (p.offset + first.length)).drop p.offset = first := by
  have front : (p.bytes.take p.offset).length = p.offset := by
    rw [List.length_take]
    exact Nat.min_eq_left within
  have start : (p.bytes.take p.offset ++ first).length = p.offset + first.length := by
    rw [List.length_append, front]
  rw [write, ← List.append_assoc (p.bytes.take p.offset), List.append_assoc _ second,
    List.take_left' start, List.drop_left' front]

/-- The keys are written one after the other, and found again where they stand. -/
theorem packKeys_spec {entries : List (Writer × Writer)} {keyed : List (List UInt8 × Writer)}
    (writes : List.Forall₂ (fun entry key => Writes entry.1 key.1 ∧ entry.2 = key.2) entries keyed)
    {p : Packer} (within : p.Within) :
    (p.Fits (keyed.flatMap Prod.fst) → ∃ tuples,
      packKeys entries p = .ok (tuples, p.write (keyed.flatMap Prod.fst)) ∧
        tuples.map (fun key =>
          (key.bytes (p.write (keyed.flatMap Prod.fst)), key.value)) = keyed) ∧
    (¬ p.Fits (keyed.flatMap Prod.fst) → packKeys entries p = .error .insufficientLength) := by
  induction writes generalizing p with
  | nil =>
    rw [List.flatMap_nil, packKeys, write_nil]
    exact ⟨fun _ => ⟨[], rfl, rfl⟩, fun impossible => absurd (Or.inl within) impossible⟩
  | @cons entry key entries keyed first _ inductionHypothesis =>
    obtain ⟨writer, value⟩ := entry
    obtain ⟨keyBytes, keyValue⟩ := key
    obtain ⟨writesKey, same⟩ := first
    simp only at writesKey same
    subst same
    simp only [List.flatMap_cons]
    rw [fits_append within, packKeys, writesKey p within, packFixedBytes]
    by_cases fits : p.Fits keyBytes
    · obtain ⟨later, short⟩ := inductionHypothesis (within_write within keyBytes)
      rw [if_pos fits]
      constructor
      · rintro ⟨_, rest⟩
        obtain ⟨tuples, packed, found⟩ := later rest
        rw [write_write within] at packed found
        refine ⟨⟨p.offset, p.offset + keyBytes.length, value⟩ :: tuples, ?_, ?_⟩
        · simp only
          rw [packed]
          rfl
        · rw [List.map_cons, found, KeyTuple.bytes, slice_write within]
      · intro tooLong
        simp only
        rw [short (fun rest => tooLong ⟨fits, rest⟩)]
    · rw [if_neg fits]
      exact ⟨fun both => absurd both.1 fits, fun _ => rfl⟩

/-- The packer stays within its bounds when it goes back to write again. -/
theorem within_rewind {p : Packer} (within : p.Within) (before : List UInt8) :
    Packer.Within { p.write before with offset := p.offset } := by
  have grown := length_write within before
  rw [Within] at within ⊢
  simp only
  omega

/-- Bytes that were written before are overwritten by as many or more. -/
theorem packFixedBytes_rewind {p : Packer} (within : p.Within) {before val : List UInt8}
    (shorter : before.length ≤ val.length) (fits : p.Fits before) :
    packFixedBytes val { p.write before with offset := p.offset } = packFixedBytes val p := by
  have bound : p.offset ≤ p.bytes.length := within
  have front : (p.bytes.take p.offset).length = p.offset := by
    rw [List.length_take]
    exact Nat.min_eq_left within
  have start : (p.bytes.take p.offset ++ before).length = p.offset + before.length := by
    rw [List.length_append, front]
  have same : Packer.Fits { p.write before with offset := p.offset } val ↔ p.Fits val := by
    have size : (p.write before).maxSize = p.maxSize := rfl
    simp only [Packer.Fits, length_write within, size] at fits ⊢
    omega
  have rewritten : write { p.write before with offset := p.offset } val = p.write val := by
    ext1
    · rfl
    · simp only [write]
      rw [List.append_assoc (p.bytes.take p.offset), List.take_left' front,
        ← List.append_assoc (p.bytes.take p.offset), List.drop_append, start,
        List.drop_eq_nil_of_le (by omega), List.nil_append, List.drop_drop]
      congr 2
      omega
    · rfl
  rw [packFixedBytes, packFixedBytes, rewritten]
  simp only [same]

/-- A key that cannot be written. -/
theorem refuses_packKeys {entries : List (Writer × Writer)}
    (all : ∀ entry ∈ entries, (∃ val, Writes entry.1 val) ∨ Refuses entry.1)
    {entry : Writer × Writer} (member : entry ∈ entries) (refuses : Refuses entry.1) {p : Packer}
    (within : p.Within) : ∃ e, packKeys entries p = .error e := by
  induction entries generalizing p with
  | nil => cases member
  | cons first rest inductionHypothesis =>
    obtain ⟨key, value⟩ := first
    obtain ⟨decided, others⟩ := List.forall_mem_cons.mp all
    rw [packKeys]
    rcases decided with ⟨val, writes⟩ | fails
    · simp only at writes
      rw [writes p within, packFixedBytes]
      by_cases fits : p.Fits val
      · rw [if_pos fits]
        rcases List.mem_cons.mp member with rfl | later
        · obtain ⟨e, failed⟩ := refuses p within
          simp only at failed
          rw [writes p within, packFixedBytes, if_pos fits] at failed
          cases failed
        · obtain ⟨e, failed⟩ := inductionHypothesis others later (within_write within val)
          simp only
          rw [failed]
          exact ⟨e, rfl⟩
      · rw [if_neg fits]
        exact ⟨_, rfl⟩
    · obtain ⟨e, failed⟩ := fails p within
      simp only at failed
      rw [failed]
      exact ⟨e, rfl⟩

section Entries

variable {entries : List α} {key value : α → Writer} {keyBytes valueBytes : α → List UInt8}

/-- The keys are written in some order; then the entries are written by the order of the keys. -/
theorem packMap_spec (orders : MapOrders) (value : α → Writer)
    (keys : ∀ entry ∈ entries, Writes (key entry) (keyBytes entry))
    (ascending : entries.Pairwise (fun earlier later => keyBytes earlier < keyBytes later))
    {p : Packer} (within : p.Within) :
    ∃ before : List UInt8, before.length = (entries.flatMap keyBytes).length ∧
      packMap orders (entries.map (fun entry => (key entry, value entry))) p =
        if p.Fits before then
          packAll (entries.map (fun entry => packEntry (keyBytes entry) (value entry)))
            { p.write before with offset := p.offset }
        else .error .insufficientLength := by
  have shuffled := select_perm (orders.mapKeys_perm p.offset entries.length)
  have sorted := select_sortFunc orders (List.pairwise_map.mpr ascending)
    (shuffled.map (fun entry => (keyBytes entry, value entry)))
  rw [packMap, List.length_map, map_select]
  generalize select (orders.mapKeys p.offset entries.length) entries = permuted at *
  have writes : List.Forall₂
      (fun (entry : Writer × Writer) (key : List UInt8 × Writer) =>
        Writes entry.1 key.1 ∧ entry.2 = key.2)
      (permuted.map (fun entry => (key entry, value entry)))
      (permuted.map (fun entry => (keyBytes entry, value entry))) := by
    rw [List.forall₂_map_left_iff, List.forall₂_map_right_iff, List.forall₂_same]
    exact fun entry member => ⟨keys entry (shuffled.subset member), rfl⟩
  obtain ⟨packed, short⟩ := packKeys_spec writes within
  refine ⟨(permuted.map (fun entry => (keyBytes entry, value entry))).flatMap Prod.fst, ?_, ?_⟩
  · rw [List.flatMap_map]
    exact (shuffled.flatMap_right keyBytes).length_eq
  · by_cases fits : p.Fits
        ((permuted.map (fun entry => (keyBytes entry, value entry))).flatMap Prod.fst)
    · obtain ⟨tuples, keysPacked, found⟩ := packed fits
      rw [keysPacked, if_pos fits]
      simp only
      generalize p.write
        ((permuted.map (fun entry => (keyBytes entry, value entry))).flatMap Prod.fst) = q at found
      have bytes : tuples.map (KeyTuple.bytes q) =
          (tuples.map (fun key => (key.bytes q, key.value))).map Prod.fst := by
        rw [List.map_map]
        rfl
      have writers : tuples.map (fun key => packEntry (key.bytes q) key.value) =
          (tuples.map (fun key => (key.bytes q, key.value))).map
            (fun key => packEntry key.1 key.2) := by
        rw [List.map_map]
        rfl
      rw [bytes, writers, found, map_select, sorted, List.map_map]
      rfl
    · rw [short fits, if_neg fits]

/-- The keys alone are no longer than the keys with the values. -/
theorem length_keys_le (entries : List α) (keyBytes valueBytes : α → List UInt8) :
    (entries.flatMap keyBytes).length ≤
      (entries.flatMap (fun entry => keyBytes entry ++ valueBytes entry)).length := by
  induction entries with
  | nil => exact Nat.le_refl 0
  | cons entry rest inductionHypothesis =>
    simp only [List.flatMap_cons, List.length_append]
    omega

/-- A map whose keys are already in order is written entry by entry, for every order in which its
entries are visited. -/
theorem writes_packMap (orders : MapOrders)
    (keys : ∀ entry ∈ entries, Writes (key entry) (keyBytes entry))
    (ascending : entries.Pairwise (fun earlier later => keyBytes earlier < keyBytes later))
    (values : ∀ entry ∈ entries, Writes (value entry) (valueBytes entry))
    (nonempty : ∀ entry ∈ entries, keyBytes entry ++ valueBytes entry ≠ []) :
    Writes (packMap orders (entries.map (fun entry => (key entry, value entry))))
      (entries.flatMap (fun entry => keyBytes entry ++ valueBytes entry)) := by
  have writes : Writes
      (packAll (entries.map (fun entry => packEntry (keyBytes entry) (value entry))))
      (entries.flatMap (fun entry => keyBytes entry ++ valueBytes entry)) := by
    rw [List.flatMap_def]
    apply writes_packAll
    rw [List.forall₂_map_left_iff, List.forall₂_map_right_iff, List.forall₂_same]
    intro entry member
    exact writes_packSome ((writes_packFixedBytes _).followedBy (values entry member))
      (nonempty entry member)
  intro p within
  obtain ⟨before, length, packed⟩ := packMap_spec orders value keys ascending within
  have shorter : before.length ≤
      (entries.flatMap (fun entry => keyBytes entry ++ valueBytes entry)).length := by
    rw [length]
    exact length_keys_le entries keyBytes valueBytes
  rw [packed]
  by_cases fits : p.Fits before
  · rw [if_pos fits, writes _ (within_rewind within before),
      packFixedBytes_rewind within shorter fits]
  · rw [if_neg fits, packFixedBytes, if_neg]
    intro all
    apply fits
    rw [Fits] at all ⊢
    omega

/-- An entry is refused if its value is, or if it has no bytes. -/
theorem refuses_packEntry (keyBytes valueBytes : List UInt8) {value : Writer}
    (fails : Refuses value ∨ Writes value valueBytes ∧ keyBytes ++ valueBytes = []) :
    Refuses (packEntry keyBytes value) := by
  apply refuses_packSome
  rcases fails with refuses | ⟨writes, empty⟩
  · exact Or.inr ((writes_packFixedBytes keyBytes).followedBy_refuses refuses)
  · left
    rw [← empty]
    exact (writes_packFixedBytes keyBytes).followedBy writes

/-- A key or a value that cannot be written, or an entry without bytes. -/
theorem refuses_packMap (orders : MapOrders)
    (ascending : entries.Pairwise (fun earlier later => keyBytes earlier < keyBytes later))
    (keys : ∀ entry ∈ entries, Writes (key entry) (keyBytes entry) ∨ Refuses (key entry))
    (values : ∀ entry ∈ entries, Writes (value entry) (valueBytes entry) ∨ Refuses (value entry))
    {entry : α} (member : entry ∈ entries)
    (fails : Refuses (key entry) ∨ Refuses (value entry) ∨
      Writes (value entry) (valueBytes entry) ∧ keyBytes entry ++ valueBytes entry = []) :
    Refuses (packMap orders (entries.map (fun entry => (key entry, value entry)))) := by
  intro p within
  by_cases refused : ∃ bad ∈ entries, Refuses (key bad)
  · obtain ⟨bad, badMember, badFails⟩ := refused
    have shuffled := select_perm (orders.mapKeys_perm p.offset entries.length)
    have decided : ∀ pair ∈ (select (orders.mapKeys p.offset entries.length) entries).map
        (fun entry => (key entry, value entry)), (∃ val, Writes pair.1 val) ∨ Refuses pair.1 := by
      intro pair inside
      obtain ⟨other, selected, rfl⟩ := List.mem_map.mp inside
      exact (keys other (shuffled.subset selected)).imp_left (fun writes => ⟨_, writes⟩)
    obtain ⟨e, failed⟩ := refuses_packKeys decided
      (List.mem_map.mpr ⟨bad, shuffled.symm.subset badMember, rfl⟩) badFails within
    rw [packMap, List.length_map, map_select, failed]
    exact ⟨e, rfl⟩
  · have written : ∀ other ∈ entries, Writes (key other) (keyBytes other) :=
      fun other inside => (keys other inside).resolve_right
        (fun fails => refused ⟨other, inside, fails⟩)
    obtain ⟨before, _, packed⟩ := packMap_spec orders value written ascending within
    rw [packed]
    by_cases fits : p.Fits before
    · have decided : ∀ writer ∈ entries.map (fun entry => packEntry (keyBytes entry) (value entry)),
          (∃ val, Writes writer val) ∨ Refuses writer := by
        intro writer inside
        obtain ⟨other, listed, rfl⟩ := List.mem_map.mp inside
        rcases values other listed with writes | refuses
        · by_cases empty : keyBytes other ++ valueBytes other = []
          · exact Or.inr (refuses_packEntry _ _ (Or.inr ⟨writes, empty⟩))
          · exact Or.inl ⟨_, writes_packSome
              ((writes_packFixedBytes _).followedBy writes) empty⟩
        · exact Or.inr (refuses_packEntry _ [] (Or.inl refuses))
      have bad : Refuses (packEntry (keyBytes entry) (value entry)) :=
        refuses_packEntry _ _
          (fails.resolve_left (fun refuses => refused ⟨entry, member, refuses⟩))
      rw [if_pos fits]
      exact refuses_packAll decided (List.mem_map.mpr ⟨entry, member, rfl⟩) bad _
        (within_rewind within before)
    · rw [if_neg fits]
      exact ⟨_, rfl⟩

end Entries

end Maps

/-! ## Values are written or refused -/

section Marshal

/-- Every field has a type. -/
theorem exists_type {types : List (GoType ι)} {fields : List (GoValue T)}
    (length : types.length = fields.length) {value : GoValue T} (member : value ∈ fields) :
    ∃ t, (t, value) ∈ types.zip fields := by
  induction fields generalizing types with
  | nil => cases member
  | cons first rest inductionHypothesis =>
    cases types with
    | nil => cases length
    | cons t types =>
      rcases List.mem_cons.mp member with rfl | later
      · exact ⟨t, List.mem_cons_self⟩
      · obtain ⟨other, inside⟩ := inductionHypothesis (Nat.succ.inj length) later
        exact ⟨other, List.mem_cons_of_mem _ inside⟩

variable [DecidableEq T] {c : GenericCodec T ι}

/-- Every element has a writer of its own. -/
theorem marshalAll_eq (orders : MapOrders) (values : List (GoValue T)) (typeStack : List T) :
    marshalAll c orders values typeStack =
      values.map (fun value => marshal c orders value typeStack) := by
  induction values with
  | nil => rw [marshalAll, List.map_nil]
  | cons value rest inductionHypothesis => rw [marshalAll, List.map_cons, inductionHypothesis]

/-- Every entry has a writer for the key and one for the value. -/
theorem marshalEntries_eq (orders : MapOrders) (entries : List (GoValue T × GoValue T))
    (typeStack : List T) :
    marshalEntries c orders entries typeStack = entries.map (fun entry =>
      (marshal c orders entry.1 typeStack, marshal c orders entry.2 typeStack)) := by
  induction entries with
  | nil => rw [marshalEntries, List.map_nil]
  | cons entry rest inductionHypothesis =>
    rw [marshalEntries, List.map_cons, inductionHypothesis]

/-- The value is written if it can be, and refused otherwise. -/
structure Decided (c : GenericCodec T ι) (orders : MapOrders) (typeStack : List T)
    (value : GoValue T) : Prop where
  writes : Encodable c typeStack value →
    Writes (marshal c orders value typeStack) (encode c value)
  refuses : ¬ Encodable c typeStack value → Refuses (marshal c orders value typeStack)

variable {orders : MapOrders} {typeStack : List T}

/-- What is decided is written or refused. -/
theorem Decided.or {value : GoValue T} (decided : Decided c orders typeStack value) :
    Writes (marshal c orders value typeStack) (encode c value) ∨
      Refuses (marshal c orders value typeStack) := by
  by_cases encodable : Encodable c typeStack value
  · exact Or.inl (decided.writes encodable)
  · exact Or.inr (decided.refuses encodable)

/-- The loop over the elements of an array, or over the fields of a struct. -/
theorem decided_packAll {values : List (GoValue T)}
    (decided : ∀ value ∈ values, Decided c orders typeStack value) :
    ((∀ value ∈ values, Encodable c typeStack value) →
      Writes (packAll (marshalAll c orders values typeStack)) (encodeAll c values)) ∧
    (¬ (∀ value ∈ values, Encodable c typeStack value) →
      Refuses (packAll (marshalAll c orders values typeStack))) := by
  rw [marshalAll_eq, encodeAll_eq]
  constructor
  · intro encodable
    rw [List.flatMap_def]
    apply writes_packAll
    rw [List.forall₂_map_left_iff, List.forall₂_map_right_iff, List.forall₂_same]
    exact fun value member => (decided value member).writes (encodable value member)
  · intro some
    push Not at some
    obtain ⟨value, member, bad⟩ := some
    apply refuses_packAll _ (List.mem_map.mpr ⟨value, member, rfl⟩)
      ((decided value member).refuses bad)
    intro writer inside
    obtain ⟨other, listed, rfl⟩ := List.mem_map.mp inside
    exact (decided other listed).or.imp_left (fun writes => ⟨_, writes⟩)

/-- The loop over the elements of a slice. -/
theorem decided_packSome {values : List (GoValue T)}
    (decided : ∀ value ∈ values, Decided c orders typeStack value) :
    ((∀ value ∈ values, Encodable c typeStack value ∧ encode c value ≠ []) →
      Writes (packAll ((marshalAll c orders values typeStack).map packSome))
        (encodeAll c values)) ∧
    (¬ (∀ value ∈ values, Encodable c typeStack value ∧ encode c value ≠ []) →
      Refuses (packAll ((marshalAll c orders values typeStack).map packSome))) := by
  rw [marshalAll_eq, encodeAll_eq, List.map_map]
  have element : ∀ value ∈ values,
      (Encodable c typeStack value ∧ encode c value ≠ [] →
        Writes (packSome (marshal c orders value typeStack)) (encode c value)) ∧
      (¬ (Encodable c typeStack value ∧ encode c value ≠ []) →
        Refuses (packSome (marshal c orders value typeStack))) := by
    intro value member
    constructor
    · rintro ⟨encodable, nonempty⟩
      exact writes_packSome ((decided value member).writes encodable) nonempty
    · intro bad
      apply refuses_packSome
      by_cases encodable : Encodable c typeStack value
      · left
        have empty : encode c value = [] := by
          by_contra nonempty
          exact bad ⟨encodable, nonempty⟩
        rw [← empty]
        exact (decided value member).writes encodable
      · exact Or.inr ((decided value member).refuses encodable)
  constructor
  · intro good
    rw [List.flatMap_def]
    apply writes_packAll
    rw [List.forall₂_map_left_iff, List.forall₂_map_right_iff, List.forall₂_same]
    exact fun value member => (element value member).1 (good value member)
  · intro some
    rw [not_forall] at some
    obtain ⟨value, some⟩ := some
    rw [Classical.not_imp] at some
    obtain ⟨member, bad⟩ := some
    apply refuses_packAll _ (List.mem_map.mpr ⟨value, member, rfl⟩) ((element value member).2 bad)
    intro writer inside
    obtain ⟨other, listed, rfl⟩ := List.mem_map.mp inside
    by_cases good : Encodable c typeStack other ∧ encode c other ≠ []
    · exact Or.inl ⟨_, (element other listed).1 good⟩
    · exact Or.inr ((element other listed).2 good)

/-- The entries of a map. -/
theorem decided_packMap {entries : List (GoValue T × GoValue T)}
    (keys : ∀ entry ∈ entries, Decided c orders typeStack entry.1)
    (values : ∀ entry ∈ entries, Decided c orders typeStack entry.2)
    (ascends : Ascends (encode c) entries) :
    ((∀ entry ∈ entries, Encodable c typeStack entry.1 ∧ Encodable c typeStack entry.2 ∧
        encodeEntry (encode c) entry ≠ []) →
      Writes (packMap orders (marshalEntries c orders entries typeStack))
        (encodeEntries c entries)) ∧
    (¬ (∀ entry ∈ entries, Encodable c typeStack entry.1 ∧ Encodable c typeStack entry.2 ∧
        encodeEntry (encode c) entry ≠ []) →
      Refuses (packMap orders (marshalEntries c orders entries typeStack))) := by
  rw [marshalEntries_eq, encodeEntries_eq]
  constructor
  · intro good
    exact writes_packMap orders
      (fun entry member => (keys entry member).writes (good entry member).1) ascends
      (fun entry member => (values entry member).writes (good entry member).2.1)
      (fun entry member => (good entry member).2.2)
  · intro some
    rw [not_forall] at some
    obtain ⟨entry, some⟩ := some
    rw [Classical.not_imp] at some
    obtain ⟨member, bad⟩ := some
    apply refuses_packMap orders ascends (fun other listed => (keys other listed).or)
      (fun other listed => (values other listed).or) member
    by_cases key : Encodable c typeStack entry.1
    · right
      by_cases value : Encodable c typeStack entry.2
      · right
        refine ⟨(values entry member).writes value, ?_⟩
        by_contra nonempty
        exact bad ⟨key, value, nonempty⟩
      · exact Or.inl ((values entry member).refuses value)
    · exact Or.inl ((keys entry member).refuses key)

/-- A value that can be written. -/
theorem Decided.of_writes {value : GoValue T} (encodable : Encodable c typeStack value)
    (writes : Writes (marshal c orders value typeStack) (encode c value)) :
    Decided c orders typeStack value :=
  ⟨fun _ => writes, fun bad => absurd encodable bad⟩

/-- A value that cannot be written. -/
theorem Decided.of_refuses {value : GoValue T} (never : ¬ Encodable c typeStack value)
    (refuses : Refuses (marshal c orders value typeStack)) : Decided c orders typeStack value :=
  ⟨fun encodable => absurd encodable never, fun _ => refuses⟩

/-- An interface is written as its type and the content. With the nil interface for a set it never
is, and a type inside itself is not either. -/
theorem decided_interface {concrete : T} {content : GoValue T}
    (decided : Decided c orders (concrete :: typeStack) content) :
    Decided c orders typeStack (.interface concrete content) := by
  constructor
  case writes =>
    intro encodable
    cases encodable with
    | interface usable registered fresh inside =>
      rw [marshal, encode, if_neg (by simp [usable]), if_neg fresh]
      exact (c.typer.packs concrete registered).followedBy (decided.writes inside)
  case refuses =>
    intro bad
    rw [marshal]
    cases reading : c.sets with
    | interface =>
      rw [if_pos rfl]
      exact refuses_error _
    | map =>
      rw [if_neg (by decide)]
      by_cases stacked : concrete ∈ typeStack
      · rw [if_pos stacked]
        exact refuses_error _
      · rw [if_neg stacked]
        by_cases registered : concrete ∈ c.typer.types
        · exact (c.typer.packs concrete registered).followedBy_refuses
            (decided.refuses (fun inside => bad (.interface reading registered stacked inside)))
        · exact (c.typer.refuses concrete registered).followedBy_left _

/-- A map with keys apart is written as its number and the entries in the order of their keys. -/
theorem decided_map {entries : List (GoValue T × GoValue T)}
    (keys : ∀ entry ∈ entries, Decided c orders typeStack entry.1)
    (values : ∀ entry ∈ entries, Decided c orders typeStack entry.2)
    (ascends : Ascends (encode c) entries) : Decided c orders typeStack (.map entries) := by
  obtain ⟨writes, refuses⟩ := decided_packMap keys values ascends
  constructor
  case writes =>
    intro encodable
    cases encodable with
    | map bounded keys values nonempty =>
      rw [marshal, encode]
      exact writes_packCounted bounded (writes (fun entry member =>
        ⟨keys entry member, values entry member, nonempty entry member⟩))
  case refuses =>
    intro bad
    rw [marshal]
    apply refuses_packCounted
    by_cases bounded : entries.length ≤ maxInt32
    · right
      apply refuses
      intro all
      exact bad (.map bounded (fun entry member => (all entry member).1)
        (fun entry member => (all entry member).2.1)
        (fun entry member => (all entry member).2.2))
    · exact Or.inl (Nat.lt_of_not_le bounded)

/-- `marshal` writes the encoding of every value of a type with keys apart, or refuses it. -/
theorem marshal_decided (orders : MapOrders) {t : GoType ι} {value : GoValue T}
    (typed : HasType c t value) (apart : KeysApart c value) (typeStack : List T) :
    Decided c orders typeStack value := by
  -- the stack grows at an interface, so the hypothesis is for every stack
  induction typed generalizing typeStack with
  | number kind bits =>
    apply Decided.of_writes (.number typeStack kind bits)
    rw [marshal, encode]
    exact writes_packNumber kind bits
  | bool b =>
    apply Decided.of_writes (.bool typeStack b)
    rw [marshal, encode]
    exact writes_packFixedBytes _
  | string text =>
    by_cases bounded : text.length ≤ maxStringLen
    · apply Decided.of_writes (.string typeStack bounded)
      rw [marshal, encode]
      exact writes_packStr bounded
    · apply Decided.of_refuses
      · rintro ⟨⟩
        contradiction
      · rw [marshal, packStr, if_pos (Nat.lt_of_not_le bounded)]
        exact refuses_error _
  | bytes content =>
    by_cases bounded : content.length ≤ maxInt32
    · apply Decided.of_writes (.bytes typeStack bounded)
      rw [marshal, encode]
      exact writes_packCounted bounded (writes_packFixedBytes content)
    · apply Decided.of_refuses
      · rintro ⟨⟩
        contradiction
      · rw [marshal]
        exact refuses_packCounted (Or.inl (Nat.lt_of_not_le bounded))
  | byteArray content =>
    apply Decided.of_writes (.byteArray typeStack content)
    rw [marshal, encode]
    exact writes_packBytes content
  | nilPointer elem =>
    apply Decided.of_refuses (by rintro ⟨⟩)
    rw [marshal]
    exact refuses_error _
  | pointer typed inductionHypothesis =>
    have decided := inductionHypothesis ((keysApart_pointer_iff _).mp apart) typeStack
    constructor
    case writes =>
      intro encodable
      cases encodable with
      | pointer inside =>
        rw [marshal, encode]
        exact decided.writes inside
    case refuses =>
      intro bad
      rw [marshal]
      exact decided.refuses (fun inside => bad (.pointer inside))
  | nilInterface name =>
    apply Decided.of_refuses (by rintro ⟨⟩)
    rw [marshal]
    exact refuses_error _
  | interface implements typed inductionHypothesis =>
    exact decided_interface (inductionHypothesis ((keysApart_interface_iff _ _).mp apart) _)
  | @slice elem elements typed inductionHypothesis =>
    have each := (keysApart_slice_iff _).mp apart
    obtain ⟨writes, refuses⟩ := decided_packSome
      (fun value member => inductionHypothesis value member (each value member) typeStack)
    constructor
    case writes =>
      intro encodable
      cases encodable with
      | slice bounded inside nonempty =>
        rw [marshal, encode]
        exact writes_packCounted bounded
          (writes (fun value member => ⟨inside value member, nonempty value member⟩))
    case refuses =>
      intro bad
      rw [marshal]
      apply refuses_packCounted
      by_cases bounded : elements.length ≤ maxInt32
      · right
        apply refuses
        intro all
        exact bad (.slice bounded (fun value member => (all value member).1)
          (fun value member => (all value member).2))
      · exact Or.inl (Nat.lt_of_not_le bounded)
  | array typed inductionHypothesis =>
    have each := (keysApart_array_iff _).mp apart
    obtain ⟨writes, refuses⟩ := decided_packAll
      (fun value member => inductionHypothesis value member (each value member) typeStack)
    constructor
    case writes =>
      intro encodable
      cases encodable with
      | array inside =>
        rw [marshal, encode]
        exact writes inside
    case refuses =>
      intro bad
      rw [marshal]
      exact refuses (fun inside => bad (.array inside))
  | @struct types fields length typed inductionHypothesis =>
    have each := (keysApart_struct_iff _).mp apart
    have decided : ∀ value ∈ fields, Decided c orders typeStack value := by
      intro value member
      obtain ⟨t, paired⟩ := exists_type length member
      exact inductionHypothesis (t, value) paired (each value member) typeStack
    obtain ⟨writes, refuses⟩ := decided_packAll decided
    constructor
    case writes =>
      intro encodable
      cases encodable with
      | struct inside =>
        rw [marshal, encode]
        exact writes inside
    case refuses =>
      intro bad
      rw [marshal]
      exact refuses (fun inside => bad (.struct inside))
  | map keysTyped valuesTyped listed keysDecided valuesDecided =>
    obtain ⟨own, keysApart, valuesApart⟩ := (keysApart_map_iff _).mp apart
    exact decided_map
      (fun entry member => keysDecided entry member (keysApart entry member) typeStack)
      (fun entry member => valuesDecided entry member (valuesApart entry member) typeStack)
      ((ascends_iff _ _).mpr ⟨listed, own⟩)
  | unsupported =>
    apply Decided.of_refuses (by rintro ⟨⟩)
    rw [marshal]
    exact refuses_error _

end Marshal

end AvalancheParallel.Codec
