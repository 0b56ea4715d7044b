import AvalancheParallel.Codec.TypeCodec

/-!
# What unmarshaling accepts

A value of a type has one encoding, if no two keys of a map in it are encoded alike. `unmarshal`
accepts the encodings of those of these values that can be written, and nothing else, and gives the
value back. Which values can be written is said without it: no pointer and no interface in them is
nil, the elements of slices and the entries of maps are not empty, no concrete type occurs inside
itself, and lengths are within their bounds; where a nil set panics there is no interface either.

Two different pointers may be keys of one map and point to equal values. `marshal` writes both
entries, and `unmarshal` refuses the second key.
-/

namespace AvalancheParallel.Codec

open AvalancheParallel.ByteOrder
open AvalancheParallel.Codec.Packer

/-! ## Readers -/

section Readers

variable {α : Type} {reader : Reader α} {valid : α → Prop} {encoding : α → List UInt8}

/-- Values that are read one after the other. -/
theorem accepts_unpackAll {valids : List (α → Prop)} {readers : List (Reader α)}
    (accepts : List.Forall₂ (fun valid reader => Accepts reader valid encoding) valids readers) :
    Accepts (unpackAll readers) (List.Forall₂ (fun valid value => valid value) valids)
      (fun values => values.flatMap encoding) := by
  induction accepts with
  | nil =>
    apply (accepts_ok []).congr
    · intro values
      rw [List.forall₂_nil_left_iff]
    · rintro _ rfl
      rfl
  | @cons valid reader valids readers first _ inductionHypothesis =>
    have later : ∀ value, valid value → Accepts
        (mapReader (fun values => value :: values) (unpackAll readers))
        (fun values => ∃ others,
          List.Forall₂ (fun valid value => valid value) valids others ∧ values = value :: others)
        (fun values => values.tail.flatMap encoding) :=
      fun value _ => accepts_mapReader inductionHypothesis (fun _ => Iff.rfl) (fun _ _ => rfl)
    apply accepts_readThen first later
    · intro values
      rw [List.forall₂_cons_left_iff]
      constructor
      · rintro ⟨value, others, good, rest, rfl⟩
        exact ⟨value, good, others, rest, rfl⟩
      · rintro ⟨value, good, others, rest, rfl⟩
        exact ⟨value, others, good, rest, rfl⟩
    · rintro value _ _ ⟨others, _, rfl⟩
      rfl

/-- Repeated conditions hold of a list of their number whose elements all meet the condition. -/
theorem forall₂_replicate_iff (count : ℕ) (values : List α) :
    List.Forall₂ (fun (valid : α → Prop) value => valid value) (List.replicate count valid) values ↔
      values.length = count ∧ ∀ value ∈ values, valid value := by
  induction count generalizing values with
  | zero =>
    rw [List.replicate_zero, List.forall₂_nil_left_iff, List.length_eq_zero_iff]
    constructor
    · rintro rfl
      exact ⟨rfl, fun value impossible => absurd impossible List.not_mem_nil⟩
    · exact And.left
  | succ count inductionHypothesis =>
    rw [List.replicate_succ, List.forall₂_cons_left_iff]
    constructor
    · rintro ⟨value, others, good, rest, rfl⟩
      obtain ⟨length, all⟩ := (inductionHypothesis others).mp rest
      exact ⟨by rw [List.length_cons, length], List.forall_mem_cons.mpr ⟨good, all⟩⟩
    · rintro ⟨length, all⟩
      cases values with
      | nil => cases length
      | cons value others =>
        obtain ⟨good, rest⟩ := List.forall_mem_cons.mp all
        exact ⟨value, others, good,
          (inductionHypothesis others).mpr ⟨Nat.succ.inj length, rest⟩, rfl⟩

/-- Equally valid values. -/
theorem accepts_replicate (accepts : Accepts reader valid encoding) (count : ℕ) :
    Accepts (unpackAll (List.replicate count reader))
      (fun values => values.length = count ∧ ∀ value ∈ values, valid value)
      (fun values => values.flatMap encoding) := by
  have all : List.Forall₂ (fun valid reader => Accepts reader valid encoding)
      (List.replicate count valid) (List.replicate count reader) := by
    induction count with
    | zero => exact .nil
    | succ count inductionHypothesis => exact .cons accepts inductionHypothesis
  apply (accepts_unpackAll all).congr
  · exact fun values => (forall₂_replicate_iff count values).symm
  · exact fun _ _ => rfl

/-- Elements without bytes are not accepted. -/
theorem accepts_unpackSome (accepts : Accepts reader valid encoding) :
    Accepts (unpackSome reader) (fun value => valid value ∧ encoding value ≠ []) encoding := by
  intro p within value q
  rw [unpackSome, readThen]
  constructor
  · intro read
    split at read
    · cases read
    · rename_i first middle accepted
      split at read
      · cases read
      · rename_i moved
        cases read
        obtain ⟨good, reads⟩ := (accepts p within value q).mp accepted
        refine ⟨⟨good, fun empty => moved ?_⟩, reads⟩
        rw [reads.offset, empty, List.length_nil, Nat.add_zero]
  · rintro ⟨⟨good, nonempty⟩, reads⟩
    rw [(accepts p within value q).mpr ⟨good, reads⟩]
    simp only
    rw [if_neg]
    rw [reads.offset]
    have positive := List.length_pos_iff.mpr nonempty
    omega

/-- The bytes between two offsets. -/
theorem Packer.Reads.slice {p q : Packer} {val : List UInt8} (reads : Reads p val q) :
    (q.bytes.take q.offset).drop p.offset = val := by
  rw [reads.bytes, reads.offset, List.drop_take, reads.rest, Nat.add_sub_cancel_left,
    List.take_left]

/-- A key is accepted, with its bytes, when these are above those of the key before. -/
theorem accepts_unpackKey (accepts : Accepts reader valid encoding)
    (prevKey : Option (List UInt8)) :
    Accepts (unpackKey reader prevKey)
      (fun key => valid key.1 ∧ key.2 = encoding key.1 ∧ ∀ previous ∈ prevKey, previous < key.2)
      (fun key => encoding key.1) := by
  intro p within key q
  rw [unpackKey, readThen]
  constructor
  · intro read
    split at read
    · cases read
    · rename_i first middle accepted
      obtain ⟨good, reads⟩ := (accepts p within first middle).mp accepted
      simp only at read
      rw [reads.slice] at read
      split at read
      · cases read
      · rename_i ascends
        cases read
        exact ⟨⟨good, rfl, by simpa using ascends⟩, reads⟩
  · obtain ⟨value, keyBytes⟩ := key
    rintro ⟨⟨good, same, ascends⟩, reads⟩
    simp only at same
    subst same
    rw [(accepts p within value q).mpr ⟨good, reads⟩]
    simp only
    rw [reads.slice, if_neg]
    simpa using ascends

/-- The number of elements is read first, and the limit applies to it. -/
theorem accepts_unpackCounted (count : α → ℕ) {rest : ℕ → Reader α}
    (accepts : ∀ n, Accepts (rest n) (fun value => count value = n ∧ valid value) encoding) :
    Accepts (unpackCounted rest) (fun value => count value ≤ maxInt32 ∧ valid value)
      (fun value => digits 4 (count value) ++ encoding value) := by
  have later : ∀ n, n < 256 ^ 4 → Accepts
      (if n > maxInt32 then fun _ => .error .maxSliceLenExceeded else rest n)
      (fun value => n ≤ maxInt32 ∧ count value = n ∧ valid value) encoding := by
    intro n _
    by_cases large : n > maxInt32
    · rw [if_pos large]
      exact accepts_error _ _ (fun value bounded => absurd bounded.1 (Nat.not_le_of_gt large))
    · rw [if_neg large]
      apply (accepts n).congr
      · intro value
        rw [and_iff_right (Nat.le_of_not_gt large)]
      · exact fun _ _ => rfl
  apply accepts_readThen (accepts_unpackNumber 4) later
  · intro value
    constructor
    · rintro ⟨bounded, good⟩
      exact ⟨count value, Nat.lt_of_le_of_lt bounded (by decide), bounded, rfl, good⟩
    · rintro ⟨_, _, bounded, rfl, good⟩
      exact ⟨bounded, good⟩
  · rintro _ value _ ⟨_, rfl, _⟩
    rfl

/-- The encoding of an entry. -/
def encodeEntry (encoding : α → List UInt8) (entry : α × α) : List UInt8 :=
  encoding entry.1 ++ encoding entry.2

/-- The entries are listed by the bytes of their keys, which are all different. -/
def Ascends (encoding : α → List UInt8) (entries : List (α × α)) : Prop :=
  entries.Pairwise (fun earlier later => encoding earlier.1 < encoding later.1)

/-- The entries are listed by the bytes of their keys. -/
def Listed (encoding : α → List UInt8) (entries : List (α × α)) : Prop :=
  entries.Pairwise (fun earlier later => ¬ encoding later.1 < encoding earlier.1)

/-- No two keys have the same bytes. -/
def Apart (encoding : α → List UInt8) (entries : List (α × α)) : Prop :=
  entries.Pairwise (fun earlier later => encoding earlier.1 ≠ encoding later.1)

/-- Listed entries ascend when their keys are apart. -/
theorem ascends_iff (encoding : α → List UInt8) (entries : List (α × α)) :
    Ascends encoding entries ↔ Listed encoding entries ∧ Apart encoding entries := by
  rw [Ascends, Listed, Apart, ← List.pairwise_and_iff]
  constructor
  · exact List.Pairwise.imp (fun below => ⟨not_lt_of_gt below, ne_of_lt below⟩)
  · exact List.Pairwise.imp (fun both => lt_of_le_of_ne (not_lt.mp both.1) both.2)

variable {mapValue : Reader α} {validValue : α → Prop}

/-- An entry is accepted when its key is in order and the entry has bytes. -/
theorem accepts_unpackEntry (key : Accepts reader valid encoding)
    (value : Accepts mapValue validValue encoding) (prevKey : Option (List UInt8)) :
    Accepts (unpackEntry reader mapValue prevKey)
      (fun entry => (valid entry.1.1 ∧ validValue entry.1.2 ∧ encodeEntry encoding entry.1 ≠ []) ∧
        entry.2 = encoding entry.1.1 ∧ ∀ previous ∈ prevKey, previous < entry.2)
      (fun entry => encodeEntry encoding entry.1) := by
  have pair : Accepts (readThen (unpackKey reader prevKey) (fun key =>
      mapReader (fun value => ((key.1, value), key.2)) mapValue))
      (fun entry => (valid entry.1.1 ∧ validValue entry.1.2) ∧
        entry.2 = encoding entry.1.1 ∧ ∀ previous ∈ prevKey, previous < entry.2)
      (fun entry => encodeEntry encoding entry.1) := by
    have later : ∀ first : α × List UInt8, Accepts
        (mapReader (fun second => ((first.1, second), first.2)) mapValue)
        (fun entry => ∃ second, validValue second ∧ entry = ((first.1, second), first.2))
        (fun entry => encoding entry.1.2) :=
      fun _ => accepts_mapReader value (fun _ => Iff.rfl) (fun _ _ => rfl)
    apply accepts_readThen (accepts_unpackKey key prevKey) (fun first _ => later first)
    · rintro ⟨⟨first, second⟩, keyBytes⟩
      constructor
      · rintro ⟨⟨goodKey, goodValue⟩, bytes, ascends⟩
        exact ⟨(first, keyBytes), ⟨goodKey, bytes, ascends⟩, second, goodValue, rfl⟩
      · rintro ⟨_, ⟨goodKey, bytes, ascends⟩, _, goodValue, ⟨⟩⟩
        exact ⟨⟨goodKey, goodValue⟩, bytes, ascends⟩
    · rintro _ _ _ ⟨_, _, rfl⟩
      rfl
  apply (accepts_unpackSome pair).congr
  · intro entry
    tauto
  · exact fun _ _ => rfl

/-- Entries are accepted in strictly increasing order of their encoded keys. -/
theorem accepts_unpackEntries (key : Accepts reader valid encoding)
    (value : Accepts mapValue validValue encoding) (numElts : ℕ)
    (prevKey : Option (List UInt8)) :
    Accepts (unpackEntries reader mapValue numElts prevKey)
      (fun entries => entries.length = numElts ∧
        (∀ entry ∈ entries, valid entry.1 ∧ validValue entry.2 ∧ encodeEntry encoding entry ≠ []) ∧
        Ascends encoding entries ∧
        ∀ previous ∈ prevKey, ∀ entry ∈ entries, previous < encoding entry.1)
      (fun entries => entries.flatMap (encodeEntry encoding)) := by
  induction numElts generalizing prevKey with
  | zero =>
    apply (accepts_ok []).congr
    · intro entries
      rw [List.length_eq_zero_iff]
      constructor
      · exact And.left
      · rintro rfl
        exact ⟨rfl, by simp, List.Pairwise.nil, by simp⟩
    · rintro _ rfl
      rfl
  | succ numElts inductionHypothesis =>
    have later : ∀ entry : (α × α) × List UInt8, Accepts
        (mapReader (fun entries => entry.1 :: entries)
          (unpackEntries reader mapValue numElts (some entry.2)))
        (fun entries => ∃ others, (others.length = numElts ∧
          (∀ entry ∈ others,
            valid entry.1 ∧ validValue entry.2 ∧ encodeEntry encoding entry ≠ []) ∧
          Ascends encoding others ∧
          ∀ previous ∈ some entry.2, ∀ other ∈ others, previous < encoding other.1) ∧
            entries = entry.1 :: others)
        (fun entries => entries.tail.flatMap (encodeEntry encoding)) :=
      fun entry => accepts_mapReader (inductionHypothesis (some entry.2)) (fun _ => Iff.rfl)
        (fun _ _ => rfl)
    apply accepts_readThen (accepts_unpackEntry key value prevKey) (fun entry _ => later entry)
    · intro entries
      constructor
      · rintro ⟨length, good, ascends, above⟩
        cases entries with
        | nil => cases length
        | cons entry others =>
          obtain ⟨goodFirst, goodOthers⟩ := List.forall_mem_cons.mp good
          obtain ⟨first, rest⟩ := List.pairwise_cons.mp ascends
          refine ⟨(entry, encoding entry.1), ⟨goodFirst, rfl, ?_⟩, others,
            ⟨Nat.succ.inj length, goodOthers, rest, ?_⟩, rfl⟩
          · exact fun previous member => above previous member entry List.mem_cons_self
          · rintro _ ⟨⟩
            exact first
      · rintro ⟨⟨entry, keyBytes⟩, ⟨goodFirst, bytes, above⟩, others,
          ⟨length, goodOthers, rest, first⟩, rfl⟩
        simp only at bytes goodFirst above first
        subst bytes
        refine ⟨by rw [List.length_cons, length], List.forall_mem_cons.mpr ⟨goodFirst, goodOthers⟩,
          List.pairwise_cons.mpr ⟨first _ rfl, rest⟩, ?_⟩
        intro previous member
        have below := above previous member
        exact List.forall_mem_cons.mpr
          ⟨below, fun other inside => lt_trans below (first _ rfl other inside)⟩
    · rintro _ _ _ ⟨_, _, rfl⟩
      rfl

end Readers

/-! ## Values, types and encodings -/

variable {T ι : Type}

mutual

/-- The encoding of a value. -/
@[simp] def encode (c : GenericCodec T ι) : GoValue T → List UInt8
  | .number kind bits => digits kind.len bits
  | .bool b => [if b = true then 1 else 0]
  | .string text => digits 2 text.length ++ text
  | .bytes content => digits 4 content.length ++ content
  | .byteArray content => content
  | .nilPointer => []
  | .pointer target => encode c target
  | .nilInterface => []
  | .interface concrete content => c.typer.code concrete ++ encode c content
  | .slice elements => digits 4 elements.length ++ encodeAll c elements
  | .array elements => encodeAll c elements
  | .struct fields => encodeAll c fields
  | .map entries => digits 4 entries.length ++ encodeEntries c entries
  | .unsupported => []

@[simp] def encodeAll (c : GenericCodec T ι) : List (GoValue T) → List UInt8
  | [] => []
  | value :: rest => encode c value ++ encodeAll c rest

@[simp] def encodeEntries (c : GenericCodec T ι) : List (GoValue T × GoValue T) → List UInt8
  | [] => []
  | (key, value) :: rest => encode c key ++ encode c value ++ encodeEntries c rest

end

/-- The elements are encoded one after another. -/
theorem encodeAll_eq (c : GenericCodec T ι) (values : List (GoValue T)) :
    encodeAll c values = values.flatMap (encode c) := by
  induction values with
  | nil => rw [encodeAll, List.flatMap_nil]
  | cons value rest inductionHypothesis =>
    rw [encodeAll, List.flatMap_cons, inductionHypothesis]

/-- The entries are encoded one after another. -/
theorem encodeEntries_eq (c : GenericCodec T ι) (entries : List (GoValue T × GoValue T)) :
    encodeEntries c entries = entries.flatMap (encodeEntry (encode c)) := by
  induction entries with
  | nil => rw [encodeEntries, List.flatMap_nil]
  | cons entry rest inductionHypothesis =>
    rw [encodeEntries, List.flatMap_cons, inductionHypothesis, encodeEntry]

/-- The values of a type. The entries of a map are listed by the encodings of their keys. -/
inductive HasType (c : GenericCodec T ι) : GoType ι → GoValue T → Prop
  | number (kind : NumberKind) (bits : Fin (256 ^ kind.len)) :
    HasType c (.number kind) (.number kind bits)
  | bool (b : Bool) : HasType c .bool (.bool b)
  | string (text : List UInt8) : HasType c .string (.string text)
  | bytes (content : List UInt8) : HasType c .bytes (.bytes content)
  | byteArray (content : List UInt8) :
    HasType c (.byteArray content.length) (.byteArray content)
  | nilPointer (elem : GoType ι) : HasType c (.pointer elem) .nilPointer
  | pointer {elem : GoType ι} {target : GoValue T} (typed : HasType c elem target) :
    HasType c (.pointer elem) (.pointer target)
  | nilInterface (name : ι) : HasType c (.interface name) .nilInterface
  | interface {name : ι} {concrete : T} {content : GoValue T}
    (implements : c.typer.implements concrete name = true)
    (typed : HasType c (c.definition concrete) content) :
    HasType c (.interface name) (.interface concrete content)
  | slice {elem : GoType ι} {elements : List (GoValue T)}
    (typed : ∀ value ∈ elements, HasType c elem value) : HasType c (.slice elem) (.slice elements)
  | array {elem : GoType ι} {elements : List (GoValue T)}
    (typed : ∀ value ∈ elements, HasType c elem value) :
    HasType c (.array elements.length elem) (.array elements)
  | struct {types : List (GoType ι)} {fields : List (GoValue T)}
    (length : types.length = fields.length)
    (typed : ∀ pair ∈ types.zip fields, HasType c pair.1 pair.2) :
    HasType c (.struct types) (.struct fields)
  | map {key value : GoType ι} {entries : List (GoValue T × GoValue T)}
    (keys : ∀ entry ∈ entries, HasType c key entry.1)
    (values : ∀ entry ∈ entries, HasType c value entry.2)
    (listed : Listed (encode c) entries) : HasType c (.map key value) (.map entries)
  | unsupported : HasType c .unsupported .unsupported

/-- The first value is the second or stands inside it. -/
inductive Inside (part : GoValue T) : GoValue T → Prop
  | self : Inside part part
  | pointer {target : GoValue T} (inside : Inside part target) : Inside part (.pointer target)
  | interface {concrete : T} {content : GoValue T} (inside : Inside part content) :
    Inside part (.interface concrete content)
  | slice {elements : List (GoValue T)} {value : GoValue T} (member : value ∈ elements)
    (inside : Inside part value) : Inside part (.slice elements)
  | array {elements : List (GoValue T)} {value : GoValue T} (member : value ∈ elements)
    (inside : Inside part value) : Inside part (.array elements)
  | struct {fields : List (GoValue T)} {value : GoValue T} (member : value ∈ fields)
    (inside : Inside part value) : Inside part (.struct fields)
  | key {entries : List (GoValue T × GoValue T)} {entry : GoValue T × GoValue T}
    (member : entry ∈ entries) (inside : Inside part entry.1) : Inside part (.map entries)
  | value {entries : List (GoValue T × GoValue T)} {entry : GoValue T × GoValue T}
    (member : entry ∈ entries) (inside : Inside part entry.2) : Inside part (.map entries)

/-- No two keys of a map in the value have the same bytes. -/
def KeysApart (c : GenericCodec T ι) (value : GoValue T) : Prop :=
  ∀ entries, Inside (.map entries) value → Apart (encode c) entries

/-- The values that can be written, inside interfaces of the concrete types on the stack. -/
inductive Encodable (c : GenericCodec T ι) : List T → GoValue T → Prop
  | number (typeStack : List T) (kind : NumberKind) (bits : Fin (256 ^ kind.len)) :
    Encodable c typeStack (.number kind bits)
  | bool (typeStack : List T) (b : Bool) : Encodable c typeStack (.bool b)
  | string (typeStack : List T) {text : List UInt8} (bounded : text.length ≤ maxStringLen) :
    Encodable c typeStack (.string text)
  | bytes (typeStack : List T) {content : List UInt8} (bounded : content.length ≤ maxInt32) :
    Encodable c typeStack (.bytes content)
  | byteArray (typeStack : List T) (content : List UInt8) :
    Encodable c typeStack (.byteArray content)
  | pointer {typeStack : List T} {target : GoValue T} (inside : Encodable c typeStack target) :
    Encodable c typeStack (.pointer target)
  | interface {typeStack : List T} {concrete : T} {content : GoValue T}
    (usable : c.sets = .map) (registered : concrete ∈ c.typer.types) (fresh : concrete ∉ typeStack)
    (inside : Encodable c (concrete :: typeStack) content) :
    Encodable c typeStack (.interface concrete content)
  | slice {typeStack : List T} {elements : List (GoValue T)}
    (bounded : elements.length ≤ maxInt32)
    (inside : ∀ value ∈ elements, Encodable c typeStack value)
    (nonempty : ∀ value ∈ elements, encode c value ≠ []) :
    Encodable c typeStack (.slice elements)
  | array {typeStack : List T} {elements : List (GoValue T)}
    (inside : ∀ value ∈ elements, Encodable c typeStack value) :
    Encodable c typeStack (.array elements)
  | struct {typeStack : List T} {fields : List (GoValue T)}
    (inside : ∀ value ∈ fields, Encodable c typeStack value) :
    Encodable c typeStack (.struct fields)
  | map {typeStack : List T} {entries : List (GoValue T × GoValue T)}
    (bounded : entries.length ≤ maxInt32)
    (keys : ∀ entry ∈ entries, Encodable c typeStack entry.1)
    (values : ∀ entry ∈ entries, Encodable c typeStack entry.2)
    (nonempty : ∀ entry ∈ entries, encodeEntry (encode c) entry ≠ []) :
    Encodable c typeStack (.map entries)

/-! ## What unmarshaling accepts -/

section Unmarshal

variable {c : GenericCodec T ι}

/-- The values of the type with keys apart that can be written. -/
def Valid (c : GenericCodec T ι) (typeStack : List T) (t : GoType ι) (value : GoValue T) : Prop :=
  (HasType c t value ∧ KeysApart c value) ∧ Encodable c typeStack value

/-- Keys inside the target of a pointer. -/
theorem keysApart_pointer_iff (target : GoValue T) :
    KeysApart c (.pointer target) ↔ KeysApart c target := by
  constructor
  · exact fun apart entries inside => apart entries (.pointer inside)
  · intro apart entries inside
    cases inside with
    | pointer inside => exact apart entries inside

/-- Keys inside the content of an interface. -/
theorem keysApart_interface_iff (concrete : T) (content : GoValue T) :
    KeysApart c (.interface concrete content) ↔ KeysApart c content := by
  constructor
  · exact fun apart entries inside => apart entries (.interface inside)
  · intro apart entries inside
    cases inside with
    | interface inside => exact apart entries inside

/-- Keys inside the elements of a slice. -/
theorem keysApart_slice_iff (elements : List (GoValue T)) :
    KeysApart c (.slice elements) ↔ ∀ value ∈ elements, KeysApart c value := by
  constructor
  · exact fun apart value member entries inside => apart entries (.slice member inside)
  · intro apart entries inside
    cases inside with
    | slice member inside => exact apart _ member entries inside

/-- Keys inside the elements of an array. -/
theorem keysApart_array_iff (elements : List (GoValue T)) :
    KeysApart c (.array elements) ↔ ∀ value ∈ elements, KeysApart c value := by
  constructor
  · exact fun apart value member entries inside => apart entries (.array member inside)
  · intro apart entries inside
    cases inside with
    | array member inside => exact apart _ member entries inside

/-- Keys inside the fields of a struct. -/
theorem keysApart_struct_iff (fields : List (GoValue T)) :
    KeysApart c (.struct fields) ↔ ∀ value ∈ fields, KeysApart c value := by
  constructor
  · exact fun apart value member entries inside => apart entries (.struct member inside)
  · intro apart entries inside
    cases inside with
    | struct member inside => exact apart _ member entries inside

/-- The keys of a map, and the keys inside its keys and values. -/
theorem keysApart_map_iff (entries : List (GoValue T × GoValue T)) :
    KeysApart c (.map entries) ↔ Apart (encode c) entries ∧
      (∀ entry ∈ entries, KeysApart c entry.1) ∧ ∀ entry ∈ entries, KeysApart c entry.2 := by
  constructor
  · intro apart
    refine ⟨apart entries .self, ?_, ?_⟩
    · exact fun entry member others inside => apart others (.key member inside)
    · exact fun entry member others inside => apart others (.value member inside)
  · rintro ⟨own, keys, values⟩ others inside
    cases inside with
    | self => exact own
    | key member inside => exact keys _ member others inside
    | value member inside => exact values _ member others inside

/-- Numbers are read as their types say. -/
theorem accepts_number (kind : NumberKind) (typeStack : List T) :
    Accepts (mapReader (fun n => GoValue.number kind (kind.truncate n)) (unpackNumber kind.len))
      (Valid c typeStack (.number kind)) (encode c) := by
  have truncated : ∀ n, n < 256 ^ kind.len → (kind.truncate n : ℕ) = n :=
    fun n small => Nat.mod_eq_of_lt small
  apply accepts_mapReader (accepts_unpackNumber kind.len)
  · intro value
    constructor
    · rintro ⟨⟨typed, _⟩, _⟩
      cases typed with
      | number kind bits =>
        refine ⟨bits, bits.isLt, ?_⟩
        rw [GoValue.number.injEq]
        exact ⟨rfl, heq_of_eq (Fin.ext (truncated bits bits.isLt).symm)⟩
    · rintro ⟨n, _, rfl⟩
      refine ⟨⟨.number kind _, ?_⟩, .number typeStack kind _⟩
      intro entries inside
      cases inside
  · intro n small
    rw [encode, truncated n small]

/-- Booleans are read as their type says. -/
theorem accepts_bool (typeStack : List T) :
    Accepts (mapReader GoValue.bool unpackBool) (Valid c typeStack .bool) (encode c) := by
  apply accepts_mapReader accepts_unpackBool
  · intro value
    constructor
    · rintro ⟨⟨typed, _⟩, _⟩
      cases typed with
      | bool b => exact ⟨b, trivial, rfl⟩
    · rintro ⟨b, _, rfl⟩
      refine ⟨⟨.bool b, ?_⟩, .bool typeStack b⟩
      intro entries inside
      cases inside
  · intro b _
    rw [encode]

/-- Texts are read as their type says. -/
theorem accepts_string (typeStack : List T) :
    Accepts (mapReader GoValue.string unpackStr) (Valid c typeStack .string) (encode c) := by
  apply accepts_mapReader accepts_unpackStr
  · intro value
    constructor
    · rintro ⟨⟨typed, _⟩, encodable⟩
      cases typed with
      | string text =>
        cases encodable with
        | string _ bounded => exact ⟨text, bounded, rfl⟩
    · rintro ⟨text, bounded, rfl⟩
      refine ⟨⟨.string text, ?_⟩, .string typeStack bounded⟩
      intro entries inside
      cases inside
  · intro text _
    rw [encode]

/-- Byte slices are read as their type says. -/
theorem accepts_bytes (typeStack : List T) :
    Accepts (mapReader GoValue.bytes (unpackCounted unpackFixedBytes))
      (Valid c typeStack .bytes) (encode c) := by
  have plain : ∀ n, Accepts (unpackFixedBytes n)
      (fun content => content.length = n ∧ True) id := by
    intro n
    apply (accepts_unpackFixedBytes n).congr
    · intro content
      rw [and_true]
    · exact fun _ _ => rfl
  apply accepts_mapReader (accepts_unpackCounted List.length plain)
  · intro value
    constructor
    · rintro ⟨⟨typed, _⟩, encodable⟩
      cases typed with
      | bytes content =>
        cases encodable with
        | bytes _ bounded => exact ⟨content, ⟨bounded, trivial⟩, rfl⟩
    · rintro ⟨content, ⟨bounded, _⟩, rfl⟩
      refine ⟨⟨.bytes content, ?_⟩, .bytes typeStack bounded⟩
      intro entries inside
      cases inside
  · intro content _
    rw [encode]
    rfl

/-- Byte arrays are read as their type says. -/
theorem accepts_byteArray (count : ℕ) (typeStack : List T) :
    Accepts (mapReader GoValue.byteArray (unpackFixedBytes count))
      (Valid c typeStack (.byteArray count)) (encode c) := by
  apply accepts_mapReader (accepts_unpackFixedBytes count)
  · intro value
    constructor
    · rintro ⟨⟨typed, _⟩, _⟩
      cases typed with
      | byteArray content => exact ⟨content, rfl, rfl⟩
    · rintro ⟨content, rfl, rfl⟩
      refine ⟨⟨.byteArray content, ?_⟩, .byteArray typeStack content⟩
      intro entries inside
      cases inside
  · intro content _
    rw [encode]
    rfl

variable {typeStack : List T} {reader : Reader (GoValue T)} {elem : GoType ι}

/-- Pointers are read as what they point to. -/
theorem accepts_pointer (accepts : Accepts reader (Valid c typeStack elem) (encode c)) :
    Accepts (mapReader GoValue.pointer reader) (Valid c typeStack (.pointer elem)) (encode c) := by
  apply accepts_mapReader accepts
  · intro value
    constructor
    · rintro ⟨⟨typed, apart⟩, encodable⟩
      cases typed with
      | nilPointer => cases encodable
      | pointer below =>
        cases encodable with
        | pointer inside =>
          exact ⟨_, ⟨⟨below, (keysApart_pointer_iff _).mp apart⟩, inside⟩, rfl⟩
    · rintro ⟨target, ⟨⟨typed, apart⟩, encodable⟩, rfl⟩
      exact ⟨⟨.pointer typed, (keysApart_pointer_iff _).mpr apart⟩, .pointer encodable⟩
  · intro target _
    rw [encode]

/-- Slices are read as their elements, each with bytes of its own. -/
theorem accepts_slice (accepts : Accepts reader (Valid c typeStack elem) (encode c)) :
    Accepts (mapReader GoValue.slice
      (unpackCounted (fun numElts => unpackAll (List.replicate numElts (unpackSome reader)))))
      (Valid c typeStack (.slice elem)) (encode c) := by
  apply accepts_mapReader (accepts_unpackCounted List.length
    (fun n => accepts_replicate (accepts_unpackSome accepts) n))
  · intro value
    constructor
    · rintro ⟨⟨typed, apart⟩, encodable⟩
      cases typed with
      | slice below =>
        cases encodable with
        | slice bounded inside nonempty =>
          have each := (keysApart_slice_iff _).mp apart
          exact ⟨_, ⟨bounded, fun value member =>
            ⟨⟨⟨below value member, each value member⟩, inside value member⟩,
              nonempty value member⟩⟩, rfl⟩
    · rintro ⟨elements, ⟨bounded, all⟩, rfl⟩
      exact ⟨⟨.slice (fun value member => (all value member).1.1.1),
          (keysApart_slice_iff _).mpr (fun value member => (all value member).1.1.2)⟩,
        .slice bounded (fun value member => (all value member).1.2)
          (fun value member => (all value member).2)⟩
  · intro elements _
    rw [encode, encodeAll_eq]

/-- Arrays are read as their elements. -/
theorem accepts_array (accepts : Accepts reader (Valid c typeStack elem) (encode c)) (count : ℕ) :
    Accepts (mapReader GoValue.array (unpackAll (List.replicate count reader)))
      (Valid c typeStack (.array count elem)) (encode c) := by
  apply accepts_mapReader (accepts_replicate accepts count)
  · intro value
    constructor
    · rintro ⟨⟨typed, apart⟩, encodable⟩
      cases typed with
      | array below =>
        cases encodable with
        | array inside =>
          have each := (keysApart_array_iff _).mp apart
          exact ⟨_, ⟨rfl, fun value member =>
            ⟨⟨below value member, each value member⟩, inside value member⟩⟩, rfl⟩
    · rintro ⟨elements, ⟨rfl, all⟩, rfl⟩
      exact ⟨⟨.array (fun value member => (all value member).1.1),
          (keysApart_array_iff _).mpr (fun value member => (all value member).1.2)⟩,
        .array (fun value member => (all value member).2)⟩
  · intro elements _
    rw [encode, encodeAll_eq]

/-- The fields are valid one by one. -/
theorem forall₂_valid_iff (types : List (GoType ι)) (fields : List (GoValue T)) :
    List.Forall₂ (fun (valid : GoValue T → Prop) value => valid value)
        (types.map (Valid c typeStack)) fields ↔
      types.length = fields.length ∧ (∀ pair ∈ types.zip fields, HasType c pair.1 pair.2) ∧
        (∀ value ∈ fields, KeysApart c value) ∧ ∀ value ∈ fields, Encodable c typeStack value := by
  induction types generalizing fields with
  | nil =>
    rw [List.map_nil, List.forall₂_nil_left_iff]
    constructor
    · rintro rfl
      exact ⟨rfl, by simp, by simp, by simp⟩
    · exact fun all => List.length_eq_zero_iff.mp all.1.symm
  | cons t types inductionHypothesis =>
    rw [List.map_cons, List.forall₂_cons_left_iff]
    constructor
    · rintro ⟨value, others, ⟨⟨typed, own⟩, encodable⟩, rest, rfl⟩
      obtain ⟨length, below, apart, inside⟩ := (inductionHypothesis others).mp rest
      exact ⟨by rw [List.length_cons, List.length_cons, length],
        List.forall_mem_cons.mpr ⟨typed, below⟩, List.forall_mem_cons.mpr ⟨own, apart⟩,
        List.forall_mem_cons.mpr ⟨encodable, inside⟩⟩
    · rintro ⟨length, below, apart, inside⟩
      cases fields with
      | nil => cases length
      | cons value others =>
        obtain ⟨typed, belowOthers⟩ := List.forall_mem_cons.mp below
        obtain ⟨own, apartOthers⟩ := List.forall_mem_cons.mp apart
        obtain ⟨encodable, insideOthers⟩ := List.forall_mem_cons.mp inside
        exact ⟨value, others, ⟨⟨typed, own⟩, encodable⟩, (inductionHypothesis others).mpr
          ⟨Nat.succ.inj length, belowOthers, apartOthers, insideOthers⟩, rfl⟩

/-- Structures are read as their fields. -/
theorem accepts_struct {types : List (GoType ι)} {readers : List (Reader (GoValue T))}
    (accepts : List.Forall₂ (fun valid reader => Accepts reader valid (encode c))
      (types.map (Valid c typeStack)) readers) :
    Accepts (mapReader GoValue.struct (unpackAll readers))
      (Valid c typeStack (.struct types)) (encode c) := by
  apply accepts_mapReader (accepts_unpackAll accepts)
  · intro value
    constructor
    · rintro ⟨⟨typed, apart⟩, encodable⟩
      cases typed with
      | struct length below =>
        cases encodable with
        | struct inside =>
          exact ⟨_, (forall₂_valid_iff _ _).mpr
            ⟨length, below, (keysApart_struct_iff _).mp apart, inside⟩, rfl⟩
    · rintro ⟨fields, all, rfl⟩
      obtain ⟨length, below, apart, inside⟩ := (forall₂_valid_iff _ _).mp all
      exact ⟨⟨.struct length below, (keysApart_struct_iff _).mpr apart⟩, .struct inside⟩
  · intro fields _
    rw [encode, encodeAll_eq]

/-- Maps are read as their entries. -/
theorem accepts_map {key value : GoType ι} {mapKey mapValue : Reader (GoValue T)}
    (keys : Accepts mapKey (Valid c typeStack key) (encode c))
    (values : Accepts mapValue (Valid c typeStack value) (encode c)) :
    Accepts (mapReader GoValue.map
      (unpackCounted (fun numElts => unpackEntries mapKey mapValue numElts none)))
      (Valid c typeStack (.map key value)) (encode c) := by
  apply accepts_mapReader (accepts_unpackCounted List.length
    (fun n => accepts_unpackEntries keys values n none))
  · intro result
    constructor
    · rintro ⟨⟨typed, apart⟩, encodable⟩
      cases typed with
      | map keysTyped valuesTyped listed =>
        cases encodable with
        | map bounded keysInside valuesInside nonempty =>
          obtain ⟨own, keysApart, valuesApart⟩ := (keysApart_map_iff _).mp apart
          refine ⟨_, ⟨bounded, fun entry member => ?_, (ascends_iff _ _).mpr ⟨listed, own⟩,
            by simp⟩, rfl⟩
          exact ⟨⟨⟨keysTyped entry member, keysApart entry member⟩, keysInside entry member⟩,
            ⟨⟨valuesTyped entry member, valuesApart entry member⟩, valuesInside entry member⟩,
            nonempty entry member⟩
    · rintro ⟨entries, ⟨bounded, all, ascends, _⟩, rfl⟩
      obtain ⟨listed, own⟩ := (ascends_iff _ _).mp ascends
      exact ⟨⟨.map (fun entry member => (all entry member).1.1.1)
            (fun entry member => (all entry member).2.1.1.1) listed,
          (keysApart_map_iff _).mpr ⟨own, fun entry member => (all entry member).1.1.2,
            fun entry member => (all entry member).2.1.1.2⟩⟩,
        .map bounded (fun entry member => (all entry member).1.2)
          (fun entry member => (all entry member).2.1.2)
          (fun entry member => (all entry member).2.2)⟩
  · intro entries _
    rw [encode, encodeEntries_eq]

variable [DecidableEq T]

section Inner

variable {inner : T → List T → Reader (GoValue T)}

/-- The readers of the contents of interfaces accept the values of the concrete types. -/
def AcceptsContents (c : GenericCodec T ι) (inner : T → List T → Reader (GoValue T))
    (typeStack : List T) : Prop :=
  ∀ concrete ∈ c.typer.types, concrete ∉ typeStack →
    Accepts (inner concrete (concrete :: typeStack))
      (Valid c (concrete :: typeStack) (c.definition concrete)) (encode c)

/-- Interfaces are read as their type ID and the content of that type, which must not be a type that
is being read. With the nil interface for a set, nothing is accepted. -/
theorem accepts_interface (accepts : AcceptsContents c inner typeStack) (name : ι) :
    Accepts (readThen (c.typer.unpackPrefix name) (fun concrete =>
      if c.sets = .interface then fun _ => .error .panicked
      else if concrete ∈ typeStack then fun _ => .error .recursiveInterfaceTypes
      else mapReader (.interface concrete) (inner concrete (concrete :: typeStack))))
      (Valid c typeStack (.interface name)) (encode c) := by
  have later : ∀ concrete, concrete ∈ c.typer.types ∧ c.typer.implements concrete name = true →
      Accepts (if c.sets = .interface then fun _ => .error .panicked
        else if concrete ∈ typeStack then fun _ => .error .recursiveInterfaceTypes
        else mapReader (.interface concrete) (inner concrete (concrete :: typeStack)))
        (fun value => (c.sets = .map ∧ concrete ∉ typeStack) ∧ ∃ content,
          Valid c (concrete :: typeStack) (c.definition concrete) content ∧
            value = .interface concrete content)
        (fun value => (encode c value).drop (c.typer.code concrete).length) := by
    rintro concrete ⟨registered, _⟩
    cases reading : c.sets with
    | interface =>
      rw [if_pos rfl]
      exact accepts_error _ _ (fun _ valid => by cases valid.1.1)
    | map =>
      rw [if_neg (by decide)]
      by_cases stacked : concrete ∈ typeStack
      · rw [if_pos stacked]
        exact accepts_error _ _ (fun _ valid => valid.1.2 stacked)
      · rw [if_neg stacked]
        apply accepts_mapReader (accepts concrete registered stacked)
        · exact fun value => and_iff_right ⟨rfl, stacked⟩
        · intro content _
          rw [encode, List.drop_left]
  apply accepts_readThen (c.typer.accepts name) later
  · intro value
    constructor
    · rintro ⟨⟨typed, apart⟩, encodable⟩
      cases typed with
      | nilInterface => cases encodable
      | interface implements below =>
        cases encodable with
        | interface usable registered fresh inside =>
          exact ⟨_, ⟨registered, implements⟩, ⟨usable, fresh⟩, _,
            ⟨⟨below, (keysApart_interface_iff _ _).mp apart⟩, inside⟩, rfl⟩
    · rintro ⟨concrete, ⟨registered, implements⟩, ⟨usable, fresh⟩, content,
        ⟨⟨typed, apart⟩, encodable⟩, rfl⟩
      exact ⟨⟨.interface implements typed, (keysApart_interface_iff _ _).mpr apart⟩,
        .interface usable registered fresh encodable⟩
  · rintro concrete _ _ ⟨_, content, _, rfl⟩
    rw [encode, List.drop_left]

mutual

/-- `unmarshal` accepts the encodings of the valid values of the type. -/
theorem accepts_unmarshalWith (accepts : AcceptsContents c inner typeStack) :
    ∀ t : GoType ι, Accepts (unmarshalWith c inner t typeStack) (Valid c typeStack t) (encode c)
  | .number kind => by
    rw [unmarshalWith]
    exact accepts_number kind typeStack
  | .bool => by
    rw [unmarshalWith]
    exact accepts_bool typeStack
  | .string => by
    rw [unmarshalWith]
    exact accepts_string typeStack
  | .bytes => by
    rw [unmarshalWith]
    exact accepts_bytes typeStack
  | .byteArray count => by
    rw [unmarshalWith]
    exact accepts_byteArray count typeStack
  | .pointer elem => by
    rw [unmarshalWith]
    exact accepts_pointer (accepts_unmarshalWith accepts elem)
  | .interface name => by
    rw [unmarshalWith]
    exact accepts_interface accepts name
  | .slice elem => by
    rw [unmarshalWith]
    exact accepts_slice (accepts_unmarshalWith accepts elem)
  | .array count elem => by
    rw [unmarshalWith]
    exact accepts_array (accepts_unmarshalWith accepts elem) count
  | .struct fields => by
    rw [unmarshalWith]
    exact accepts_struct (accepts_unmarshalFields accepts fields)
  | .map key value => by
    rw [unmarshalWith]
    exact accepts_map (accepts_unmarshalWith accepts key) (accepts_unmarshalWith accepts value)
  | .unsupported => by
    rw [unmarshalWith]
    apply accepts_error
    rintro value ⟨⟨⟨⟩, _⟩, ⟨⟩⟩

/-- The fields of a structure are read as their types say. -/
theorem accepts_unmarshalFields (accepts : AcceptsContents c inner typeStack) :
    ∀ fields : List (GoType ι),
      List.Forall₂ (fun valid reader => Accepts reader valid (encode c))
        (fields.map (Valid c typeStack)) (unmarshalFields c inner fields typeStack)
  | [] => by
    rw [unmarshalFields]
    exact .nil
  | field :: rest => by
    rw [unmarshalFields]
    exact .cons (accepts_unmarshalWith accepts field) (accepts_unmarshalFields accepts rest)

end

end Inner

/-- A concrete type that is registered and not on the stack leaves one type less. -/
theorem card_remaining {concrete : T} (registered : concrete ∈ c.typer.types)
    (fresh : concrete ∉ typeStack) :
    (c.typer.types.filter (· ∉ concrete :: typeStack)).card <
      (c.typer.types.filter (· ∉ typeStack)).card := by
  apply Finset.card_lt_card
  rw [Finset.ssubset_iff_of_subset]
  · exact ⟨concrete, by simp [registered, fresh], by simp⟩
  · intro other member
    simp only [Finset.mem_filter, List.mem_cons, not_or] at member ⊢
    exact ⟨member.1, member.2.2⟩

/-- `unmarshal` accepts the encodings of the valid values of the type, if it may go through as
many interfaces as there are types that are not on the stack. -/
theorem accepts_unmarshal (c : GenericCodec T ι) (depth : ℕ) (typeStack : List T)
    (enough : (c.typer.types.filter (· ∉ typeStack)).card ≤ depth) (t : GoType ι) :
    Accepts (unmarshal c depth t typeStack) (Valid c typeStack t) (encode c) := by
  induction depth generalizing t typeStack with
  | zero =>
    rw [unmarshal]
    apply accepts_unmarshalWith
    intro concrete registered fresh
    have fewer := card_remaining registered fresh
    omega
  | succ depth inductionHypothesis =>
    rw [unmarshal]
    apply accepts_unmarshalWith
    intro concrete registered fresh
    apply inductionHypothesis
    have fewer := card_remaining registered fresh
    omega

end Unmarshal

end AvalancheParallel.Codec
