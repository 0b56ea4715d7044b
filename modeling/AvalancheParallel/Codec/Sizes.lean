import AvalancheParallel.Codec.RoundTrip

/-!
# Sizes of encodings

`Size` foretells the length of what `Marshal` writes. Where all values of a type have one size,
it multiplies the size of the first element; the sizes it takes for constant are those that the
type determines.
-/

namespace AvalancheParallel.Codec

open AvalancheParallel.ByteOrder
open AvalancheParallel.Codec.Packer

variable {T ι : Type}

/-! ## Constant sizes -/

mutual

/-- The size of every value of the type, if they all have one. -/
def fixedSize : GoType ι → Option ℕ
  | .number kind => some kind.len
  | .bool => some 1
  | .byteArray count => some count
  | .pointer elem => fixedSize elem
  | .array count elem => if count = 0 then some 0 else (fixedSize elem).map (count * ·)
  | .struct fields => fixedSizes fields
  | .string => none
  | .bytes => none
  | .interface _ => none
  | .slice _ => none
  | .map _ _ => none
  | .unsupported => none

def fixedSizes : List (GoType ι) → Option ℕ
  | [] => some 0
  | field :: rest =>
    match fixedSize field, fixedSizes rest with
    | some size, some total => some (size + total)
    | _, _ => none

end

/-! ## Loops -/

section Loops

variable {α : Type} {elements : List α} {length : α → ℕ}

/-- The sizes of the values are summed up. -/
theorem sumSizes_map (elements : List α) (length : α → ℕ) (const : Bool) :
    sumSizes (elements.map (fun element => .ok (length element, const))) =
      .ok (elements.map length).sum := by
  induction elements with
  | nil => rfl
  | cons element rest inductionHypothesis =>
    rw [List.map_cons, sumSizes, inductionHypothesis, List.map_cons, List.sum_cons]

/-- Equal sizes are multiplied. -/
theorem sum_constant {n : ℕ} (constant : ∀ element ∈ elements, length element = n) :
    (elements.map length).sum = elements.length * n := by
  induction elements with
  | nil => simp
  | cons element rest inductionHypothesis =>
    obtain ⟨first, others⟩ := List.forall_mem_cons.mp constant
    rw [List.map_cons, List.sum_cons, first, inductionHypothesis others, List.length_cons,
      Nat.succ_mul, Nat.add_comm]

/-- The size of a slice is that of its number and of its elements. -/
theorem sizeSlice_map {const : Bool} (positive : ∀ element ∈ elements, length element ≠ 0)
    (constant : const = true → ∃ n, ∀ element ∈ elements, length element = n) :
    sizeSlice (elements.map (fun element => .ok (length element, const))) =
      .ok (4 + (elements.map length).sum, false) := by
  cases elements with
  | nil => rfl
  | cons element rest =>
    obtain ⟨first, _⟩ := List.forall_mem_cons.mp positive
    rw [List.map_cons, sizeSlice, if_neg first]
    cases const with
    | false => rw [if_neg (by decide), sumSizes_map, List.map_cons, List.sum_cons]
    | true =>
      obtain ⟨n, all⟩ := constant rfl
      rw [if_pos rfl, sum_constant all, List.length_map, List.length_cons,
        all element List.mem_cons_self]

/-- The size of an array is that of its elements. -/
theorem sizeArray_map {const : Bool}
    (constant : const = true → ∃ n, ∀ element ∈ elements, length element = n) :
    sizeArray (elements.map (fun element => .ok (length element, const))) =
      .ok ((elements.map length).sum, elements.isEmpty || const) := by
  cases elements with
  | nil => rfl
  | cons element rest =>
    rw [List.map_cons, sizeArray]
    cases const with
    | false => rw [if_neg (by decide), sumSizes_map, List.map_cons, List.sum_cons]; rfl
    | true =>
      obtain ⟨n, all⟩ := constant rfl
      rw [if_pos rfl, sum_constant all, List.length_map, List.length_cons,
        all element List.mem_cons_self]
      rfl

/-- The loop over the entries adds the sizes of the keys and values. -/
theorem sumEntries_map (entries : List α) (keyLength valueLength : α → ℕ) (key value : Bool) :
    sumEntries (entries.map (fun entry => (.ok (keyLength entry, key),
      .ok (valueLength entry, value)))) =
      .ok (entries.map (fun entry => keyLength entry + valueLength entry)).sum := by
  induction entries with
  | nil => rfl
  | cons entry rest inductionHypothesis =>
    rw [List.map_cons, sumEntries, inductionHypothesis, List.map_cons, List.sum_cons]

/-- The keys and the values may be added apart. -/
theorem sum_add (entries : List α) (first second : α → ℕ) :
    (entries.map (fun entry => first entry + second entry)).sum =
      (entries.map first).sum + (entries.map second).sum := by
  induction entries with
  | nil => rfl
  | cons entry rest inductionHypothesis =>
    simp only [List.map_cons, List.sum_cons, inductionHypothesis]
    omega

/-- The size of a map is that of its number and of its entries. -/
theorem sizeMap_map {entries : List α} {keyLength valueLength : α → ℕ} {key value : Bool}
    (positive : ∀ entry ∈ entries, keyLength entry + valueLength entry ≠ 0)
    (constantKey : key = true → ∃ n, ∀ entry ∈ entries, keyLength entry = n)
    (constantValue : value = true → ∃ n, ∀ entry ∈ entries, valueLength entry = n) :
    sizeMap (entries.map (fun entry => (.ok (keyLength entry, key),
      .ok (valueLength entry, value)))) =
      .ok (4 + (entries.map (fun entry => keyLength entry + valueLength entry)).sum, false) := by
  cases entries with
  | nil => rfl
  | cons entry rest =>
    obtain ⟨first, _⟩ := List.forall_mem_cons.mp positive
    rw [List.map_cons, sizeMap, if_neg (by omega), sum_add]
    have keys : key = true → ((entry :: rest).map keyLength).sum =
        (rest.length + 1) * keyLength entry := by
      intro fixed
      obtain ⟨n, all⟩ := constantKey fixed
      rw [sum_constant all, all entry List.mem_cons_self, List.length_cons]
    have values : value = true → ((entry :: rest).map valueLength).sum =
        (rest.length + 1) * valueLength entry := by
      intro fixed
      obtain ⟨n, all⟩ := constantValue fixed
      rw [sum_constant all, all entry List.mem_cons_self, List.length_cons]
    have keySizes : (rest.map (fun entry => ((.ok (keyLength entry, key) : Sized),
        (.ok (valueLength entry, value) : Sized)))).map Prod.fst =
          rest.map (fun entry => .ok (keyLength entry, key)) := by
      rw [List.map_map]
      rfl
    have valueSizes : (rest.map (fun entry => ((.ok (keyLength entry, key) : Sized),
        (.ok (valueLength entry, value) : Sized)))).map Prod.snd =
          rest.map (fun entry => .ok (valueLength entry, value)) := by
      rw [List.map_map]
      rfl
    rw [keySizes, valueSizes, sumSizes_map, sumSizes_map, sumEntries_map, sum_add,
      List.length_map]
    cases key with
    | true =>
      cases value with
      | true =>
        rw [if_pos ⟨rfl, rfl⟩, keys rfl, values rfl, Nat.mul_add]
      | false =>
        rw [if_neg (by simp), if_pos rfl, keys rfl, List.map_cons, List.sum_cons]
        simp only [Nat.add_assoc]
    | false =>
      rw [if_neg (by simp), if_neg (by decide)]
      cases value with
      | true =>
        rw [if_pos rfl, values rfl, List.map_cons, List.sum_cons]
        simp only [Nat.add_assoc]
      | false =>
        rw [if_neg (by decide)]
        simp only [List.map_cons, List.sum_cons, Except.ok.injEq, Prod.mk.injEq, and_true]
        omega

end Loops

/-! ## Values -/

section Values

variable [DecidableEq T] {c : GenericCodec T ι}
  {mapRange : List (GoValue T × GoValue T) → List ℕ}

/-- Every element is measured. -/
theorem sizeAll_eq (values : List (GoValue T)) (typeStack : List T) :
    sizeAll c mapRange values typeStack =
      values.map (fun value => size c mapRange value typeStack) := by
  induction values with
  | nil => rw [sizeAll, List.map_nil]
  | cons value rest inductionHypothesis => rw [sizeAll, List.map_cons, inductionHypothesis]

/-- The key and the value of every entry are measured. -/
theorem sizeEntries_eq (entries : List (GoValue T × GoValue T)) (typeStack : List T) :
    sizeEntries c mapRange entries typeStack = entries.map (fun entry =>
      (size c mapRange entry.1 typeStack, size c mapRange entry.2 typeStack)) := by
  induction entries with
  | nil => rw [sizeEntries, List.map_nil]
  | cons entry rest inductionHypothesis => rw [sizeEntries, List.map_cons, inductionHypothesis]

omit [DecidableEq T] in
/-- The elements are encoded one after another. -/
theorem length_encodeAll (values : List (GoValue T)) :
    (encodeAll c values).length = (values.map (fun value => (encode c value).length)).sum := by
  rw [encodeAll_eq, List.length_flatMap]

/-- The size is that of the encoding, and it is constant if the type has one. -/
structure Measured (c : GenericCodec T ι) (t : GoType ι) (value : GoValue T) (sized : Sized) :
    Prop where
  size : sized = .ok ((encode c value).length, (fixedSize t).isSome)
  fixed : ∀ n, fixedSize t = some n → (encode c value).length = n

omit [DecidableEq T] in
/-- A value of a type of fixed size is measured as constant. -/
theorem measured_fixed {t : GoType ι} {value : GoValue T} {n : ℕ} (fixed : fixedSize t = some n)
    (length : (encode c value).length = n) : Measured c t value (.ok (n, true)) := by
  refine ⟨by rw [length, fixed]; rfl, fun m same => ?_⟩
  rw [length]
  exact Option.some.inj (fixed.symm.trans same)

omit [DecidableEq T] in
/-- A value of a type without a fixed size is measured as varying. -/
theorem measured_varying {t : GoType ι} {value : GoValue T} {n : ℕ} (varying : fixedSize t = none)
    (length : (encode c value).length = n) : Measured c t value (.ok (n, false)) := by
  refine ⟨by rw [length, varying]; rfl, fun m same => ?_⟩
  rw [varying] at same
  cases same

/-- The sizes of elements of one type. -/
theorem measured_elements {elem : GoType ι} {elements : List (GoValue T)} {typeStack : List T}
    (measured : ∀ value ∈ elements, Measured c elem value (size c mapRange value typeStack)) :
    sizeAll c mapRange elements typeStack =
        elements.map (fun value => .ok ((encode c value).length, (fixedSize elem).isSome)) ∧
      ((fixedSize elem).isSome = true →
        ∃ n, ∀ value ∈ elements, (encode c value).length = n) := by
  rw [sizeAll_eq]
  constructor
  · apply List.map_congr_left
    exact fun value member => (measured value member).size
  · intro fixed
    obtain ⟨n, same⟩ := Option.isSome_iff_exists.mp fixed
    exact ⟨n, fun value member => (measured value member).fixed n same⟩

/-- The size of an array. It is fixed when that of the elements is, and when there are none. -/
theorem measured_array {elem : GoType ι} {elements : List (GoValue T)} {typeStack : List T}
    (measured : ∀ value ∈ elements, Measured c elem value (size c mapRange value typeStack)) :
    Measured c (.array elements.length elem) (.array elements)
      (size c mapRange (.array elements) typeStack) := by
  obtain ⟨sizes, constant⟩ := measured_elements measured
  rw [size, sizes, sizeArray_map constant]
  by_cases empty : elements = []
  · rw [empty]
    apply measured_fixed
    · rw [fixedSize]
      rfl
    · rw [encode, encodeAll]
      rfl
  · have nonempty : elements.isEmpty = false := by simpa using empty
    have positive : elements.length ≠ 0 := by simpa using empty
    have whole : fixedSize (GoType.array elements.length elem) =
        (fixedSize elem).map (elements.length * ·) := by rw [fixedSize, if_neg positive]
    rw [nonempty, Bool.false_or]
    cases own : fixedSize elem with
    | none =>
      apply measured_varying
      · rw [whole, own]
        rfl
      · rw [encode, length_encodeAll]
    | some n =>
      have all : ∀ value ∈ elements, (encode c value).length = n :=
        fun value member => (measured value member).fixed n own
      apply measured_fixed
      · rw [whole, own, sum_constant all]
        rfl
      · rw [encode, length_encodeAll]

/-- The sizes of the fields of a struct. -/
theorem measured_fields {types : List (GoType ι)} {fields : List (GoValue T)} {typeStack : List T}
    (length : types.length = fields.length)
    (measured : ∀ pair ∈ types.zip fields,
      Measured c pair.1 pair.2 (size c mapRange pair.2 typeStack)) :
    sizeStruct (sizeAll c mapRange fields typeStack) =
        .ok ((encodeAll c fields).length, (fixedSizes types).isSome) ∧
      ∀ n, fixedSizes types = some n → (encodeAll c fields).length = n := by
  induction types generalizing fields with
  | nil =>
    rw [List.length_eq_zero_iff.mp length.symm, sizeAll, encodeAll]
    exact ⟨rfl, fun n same => Option.some.inj same⟩
  | cons t types inductionHypothesis =>
    cases fields with
    | nil => cases length
    | cons value fields =>
      obtain ⟨first, others⟩ := List.forall_mem_cons.mp measured
      obtain ⟨total, fixed⟩ := inductionHypothesis (Nat.succ.inj length) others
      have size := first.size
      have own := first.fixed
      simp only at size own
      rw [sizeAll, encodeAll, size, sizeStruct, total, fixedSizes, List.length_append]
      cases one : fixedSize t with
      | none => exact ⟨rfl, fun n impossible => by cases impossible⟩
      | some n =>
        cases rest : fixedSizes types with
        | none => exact ⟨rfl, fun n impossible => by cases impossible⟩
        | some m =>
          refine ⟨rfl, fun k same => ?_⟩
          rw [own n one, fixed m rest]
          exact Option.some.inj same

/-- The entries of a map, in any order. -/
theorem measured_entries {key value : GoType ι} {entries : List (GoValue T × GoValue T)}
    {typeStack : List T} (perm : ∀ entries, (mapRange entries).Perm (List.range entries.length))
    (keys : ∀ entry ∈ entries, Measured c key entry.1 (size c mapRange entry.1 typeStack))
    (values : ∀ entry ∈ entries, Measured c value entry.2 (size c mapRange entry.2 typeStack))
    (nonempty : ∀ entry ∈ entries, encodeEntry (encode c) entry ≠ []) :
    sizeMap (select (mapRange entries) (sizeEntries c mapRange entries typeStack)) =
      .ok (4 + (encodeEntries c entries).length, false) := by
  have shuffled := select_perm (perm entries)
  have sizes : sizeEntries c mapRange entries typeStack = entries.map (fun entry =>
      (.ok ((encode c entry.1).length, (fixedSize key).isSome),
        .ok ((encode c entry.2).length, (fixedSize value).isSome))) := by
    rw [sizeEntries_eq]
    apply List.map_congr_left
    intro entry member
    rw [(keys entry member).size, (values entry member).size]
  have total : (encodeEntries c entries).length =
      ((select (mapRange entries) entries).map (fun entry =>
        (encode c entry.1).length + (encode c entry.2).length)).sum := by
    rw [encodeEntries_eq, List.length_flatMap, (shuffled.map _).sum_eq]
    simp only [encodeEntry, List.length_append]
  rw [sizes, map_select, total]
  apply sizeMap_map
  · intro entry member
    have bytes := List.length_pos_iff.mpr (nonempty entry (shuffled.subset member))
    rw [encodeEntry, List.length_append] at bytes
    omega
  · intro fixed
    obtain ⟨n, same⟩ := Option.isSome_iff_exists.mp fixed
    exact ⟨n, fun entry member => (keys entry (shuffled.subset member)).fixed n same⟩
  · intro fixed
    obtain ⟨n, same⟩ := Option.isSome_iff_exists.mp fixed
    exact ⟨n, fun entry member => (values entry (shuffled.subset member)).fixed n same⟩

/-- The size of every value that can be written. -/
theorem size_measured (perm : ∀ entries, (mapRange entries).Perm (List.range entries.length))
    {t : GoType ι} {value : GoValue T} (typed : HasType c t value) {typeStack : List T}
    (encodable : Encodable c typeStack value) :
    Measured c t value (size c mapRange value typeStack) := by
  induction typed generalizing typeStack with
  | number kind bits =>
    rw [size]
    apply measured_fixed (by rw [fixedSize])
    rw [encode, length_digits]
  | bool b =>
    rw [size]
    apply measured_fixed (by rw [fixedSize])
    rw [encode, List.length_singleton]
  | string text =>
    rw [size]
    apply measured_varying (by rw [fixedSize])
    rw [encode, List.length_append, length_digits]
  | bytes content =>
    rw [size, sizeSlice_map (fun _ _ => Nat.one_ne_zero) (fun _ => ⟨1, fun _ _ => rfl⟩)]
    apply measured_varying (by rw [fixedSize])
    rw [encode, List.length_append, length_digits, sum_constant (fun _ _ => rfl), Nat.mul_one]
  | byteArray content =>
    rw [size, sizeArray_map (fun _ => ⟨1, fun _ _ => rfl⟩), Bool.or_true]
    apply measured_fixed
    · rw [fixedSize, sum_constant (fun _ _ => rfl), Nat.mul_one]
    · rw [encode, sum_constant (fun _ _ => rfl), Nat.mul_one]
  | nilPointer elem => cases encodable
  | pointer typed inductionHypothesis =>
    cases encodable with
    | pointer inside =>
      obtain ⟨measured, fixed⟩ := inductionHypothesis inside
      rw [size]
      refine ⟨?_, fun n same => ?_⟩
      · rw [measured, encode, fixedSize]
      · rw [encode]
        rw [fixedSize] at same
        exact fixed n same
  | nilInterface name => cases encodable
  | interface implements typed inductionHypothesis =>
    cases encodable with
    | interface usable registered fresh inside =>
      rw [size, if_neg (by simp [usable]), if_neg fresh, (inductionHypothesis inside).size]
      apply measured_varying (by rw [fixedSize])
      rw [encode, List.length_append, c.typer.sized _ registered]
  | slice typed inductionHypothesis =>
    cases encodable with
    | slice bounded inside nonempty =>
      obtain ⟨sizes, constant⟩ := measured_elements
        (fun value member => inductionHypothesis value member (inside value member))
      rw [size, sizes, sizeSlice_map _ constant]
      · apply measured_varying (by rw [fixedSize])
        rw [encode, List.length_append, length_digits, length_encodeAll]
      · intro value member
        exact Nat.ne_of_gt (List.length_pos_iff.mpr (nonempty value member))
  | array typed inductionHypothesis =>
    cases encodable with
    | array inside =>
      exact measured_array
        (fun value member => inductionHypothesis value member (inside value member))
  | struct length typed inductionHypothesis =>
    cases encodable with
    | struct inside =>
      obtain ⟨total, fixed⟩ := measured_fields length (fun pair member =>
        inductionHypothesis pair member (inside pair.2 (List.of_mem_zip member).2))
      rw [size, total]
      refine ⟨?_, fun n same => ?_⟩
      · rw [encode, fixedSize]
      · rw [encode]
        rw [fixedSize] at same
        exact fixed n same
  | map keys values listed keysMeasured valuesMeasured =>
    cases encodable with
    | map bounded keysInside valuesInside nonempty =>
      rw [size, measured_entries perm
        (fun entry member => keysMeasured entry member (keysInside entry member))
        (fun entry member => valuesMeasured entry member (valuesInside entry member)) nonempty]
      apply measured_varying (by rw [fixedSize])
      rw [encode, List.length_append, length_digits]
  | unsupported => cases encodable

end Values

/-- For every registry of types: whatever `Marshal` writes for a value without keys that are encoded
alike, `Size` foretells its length, in whatever orders maps are visited. -/
theorem size_foretells_marshal [DecidableEq T] {m : Manager T ι} {version : UInt16}
    {c : GenericCodec T ι} (known : m.codecs.lookup version = some c) (orders : MapOrders)
    {mapRange : List (GoValue T × GoValue T) → List ℕ}
    (perm : ∀ entries, (mapRange entries).Perm (List.range entries.length))
    {t : GoType ι} {value : GoValue T} (typed : HasType c t value) (apart : KeysApart c value)
    {bytes : List UInt8} (marshaled : m.marshal orders version value = .ok bytes) :
    m.size mapRange version value = .ok bytes.length := by
  obtain ⟨encodable, same, _⟩ := (Manager.marshal_iff known orders typed apart bytes).mp marshaled
  rw [Manager.size, known]
  simp only
  rw [(size_measured perm typed encodable).size, same, List.length_append, length_digits]

/-- The sizes of the flags, with sets that are interfaces, and of the box, with sets that are
maps. -/
theorem labelInBox_size :
    (shapeManager .interface).size (fun entries => (List.range entries.length).reverse) 0 flags =
      .ok 10 ∧
    (shapeManager .map).size (fun entries => (List.range entries.length).reverse) 0 labelInBox =
      .ok 22 := by
  have known : ∀ sets, (shapeManager sets).codecs.lookup 0 = some (shapeCodec sets) :=
    fun _ => Finmap.lookup_singleton_eq
  have flagsMarshaled : (shapeManager .interface).marshal backwards 0 flags =
      .ok [0, 0, 0, 0, 0, 2, 3, 1, 7, 0] := by
    decide +kernel
  have boxMarshaled : (shapeManager .map).marshal backwards 0 labelInBox =
      .ok [0, 0, 0, 0, 0, 1, 0, 0, 0, 0, 0, 2, 104, 105, 0, 0, 0, 2, 3, 1, 7, 0] := by
    decide +kernel
  constructor
  · exact size_foretells_marshal (known _) backwards (fun _ => List.reverse_perm _) (flags_typed _)
      (flags_apart _) flagsMarshaled
  · exact size_foretells_marshal (known _) backwards (fun _ => List.reverse_perm _)
      (labelInBox_typed _) (labelInBox_apart _) boxMarshaled

end AvalancheParallel.Codec
