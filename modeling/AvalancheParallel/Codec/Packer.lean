import AvalancheParallel.Foundation.ByteOrder

/-!
# Packing bytes

`wrappers.Packer` writes numbers, flags, strings and bytes at its offset into a byte array that
grows up to a maximal size, and reads them back. An error of the packer ends the whole operation
of the codec, so the functions return it.

What a sequence of writers does is said by one string of bytes, and what a reader accepts by the
strings that stand for the values it returns. Both compose.
-/

namespace AvalancheParallel.Codec

open AvalancheParallel.ByteOrder

/-- The errors of the packer and of the codecs, and the panic of a call. -/
inductive CodecError where
  | insufficientLength
  | invalidInput
  | badBool
  | marshalNil
  | recursiveInterfaceTypes
  | unregisteredType
  | unknownTypeID
  | doesNotImplementInterface
  | duplicateType
  | maxSliceLenExceeded
  | marshalZeroLength
  | unmarshalZeroLength
  | unsortedKeys
  | unsupportedType
  | unknownVersion
  | duplicatedVersion
  | cantPackVersion
  | cantUnpackVersion
  | unmarshalTooBig
  | extraSpace
  | panicked
  deriving DecidableEq

/-- `wrappers.Packer`. -/
@[ext] structure Packer where
  maxSize : ℕ
  bytes : List UInt8
  offset : ℕ
  deriving DecidableEq

/-- What changes the packer, or fails. -/
abbrev Writer := Packer → Except CodecError Packer

/-- What reads from the packer, or fails. -/
abbrev Reader (α : Type) := Packer → Except CodecError (α × Packer)

namespace Packer

/-- The bytes from the offset on are overwritten. -/
def write (p : Packer) (val : List UInt8) : Packer :=
  { p with
    bytes := p.bytes.take p.offset ++ val ++ p.bytes.drop (p.offset + val.length)
    offset := p.offset + val.length }

/-- The array is long enough, or may be lengthened. -/
def Fits (p : Packer) (val : List UInt8) : Prop :=
  p.offset + val.length ≤ p.bytes.length ∨ p.offset + val.length ≤ p.maxSize

instance decidableFits (p : Packer) (val : List UInt8) : Decidable (p.Fits val) :=
  inferInstanceAs (Decidable (_ ∨ _))

/-- `PackFixedBytes`: `expand`, and the copy to the offset. What a longer array holds at first is
overwritten. -/
def packFixedBytes (val : List UInt8) : Writer := fun p =>
  if p.Fits val then .ok (p.write val) else .error .insufficientLength

/-- `PackByte`. -/
def packByte (val : UInt8) : Writer := packFixedBytes [val]

/-- `PackShort`. -/
def packShort (val : UInt16) : Writer := packFixedBytes (digits 2 val.toNat)

/-- `PackInt`. -/
def packInt (val : UInt32) : Writer := packFixedBytes (digits 4 val.toNat)

/-- `PackLong`. -/
def packLong (val : UInt64) : Writer := packFixedBytes (digits 8 val.toNat)

/-- `PackBool`. -/
def packBool (b : Bool) : Writer := packByte (if b = true then 1 else 0)

/-- `MaxStringLen`. -/
def maxStringLen : ℕ := 65535

/-- One writer after another. -/
def followedBy (first second : Writer) : Writer := fun p =>
  match first p with
  | .error e => .error e
  | .ok p => second p

/-- `PackStr`. -/
def packStr (str : List UInt8) : Writer :=
  if str.length > maxStringLen then fun _ => .error .invalidInput
  else followedBy (packShort (UInt16.ofNat str.length)) (packFixedBytes str)

/-- `UnpackFixedBytes`, with the check of `checkSpace`. -/
def unpackFixedBytes (size : ℕ) : Reader (List UInt8) := fun p =>
  if p.bytes.length < p.offset + size then .error .insufficientLength
  else .ok ((p.bytes.drop p.offset).take size, { p with offset := p.offset + size })

/-- A reader, and then one that depends on what was read. -/
def readThen {α β : Type} (reader : Reader α) (next : α → Reader β) : Reader β := fun p =>
  match reader p with
  | .error e => .error e
  | .ok (value, p) => next value p

/-- What is read, under a function. -/
def mapReader {α β : Type} (f : α → β) (reader : Reader α) : Reader β :=
  readThen reader (fun value p => .ok (f value, p))

/-- The number that the next bytes denote. -/
def unpackNumber (size : ℕ) : Reader ℕ := mapReader number (unpackFixedBytes size)

/-- `UnpackByte`. -/
def unpackByte : Reader ℕ := unpackNumber 1

/-- `UnpackShort`. -/
def unpackShort : Reader ℕ := unpackNumber 2

/-- `UnpackInt`. -/
def unpackInt : Reader ℕ := unpackNumber 4

/-- `UnpackBool`. -/
def unpackBool : Reader Bool :=
  readThen unpackByte (fun b p =>
    if b = 0 then .ok (false, p) else if b = 1 then .ok (true, p) else .error .badBool)

/-- `UnpackStr`. -/
def unpackStr : Reader (List UInt8) := readThen unpackShort unpackFixedBytes

/-! ## What writers write -/

/-- The offset lies within the array. -/
def Within (p : Packer) : Prop := p.offset ≤ p.bytes.length

/-- A write extends the bytes as far as it reaches. -/
theorem length_write {p : Packer} (within : p.Within) (val : List UInt8) :
    (p.write val).bytes.length = max p.bytes.length (p.offset + val.length) := by
  have bound : p.offset ≤ p.bytes.length := within
  simp only [write, List.length_append, List.length_take, List.length_drop]
  omega

/-- A write leaves the packer within its bounds. -/
theorem within_write {p : Packer} (within : p.Within) (val : List UInt8) :
    (p.write val).Within := by
  rw [Within, length_write within]
  exact Nat.le_max_right _ _

/-- Writing nothing changes nothing. -/
theorem write_nil (p : Packer) : p.write [] = p := by
  ext1
  · rfl
  · simp [write]
  · rfl

/-- Two writes after one another are one. -/
theorem write_write {p : Packer} (within : p.Within) (first second : List UInt8) :
    (p.write first).write second = p.write (first ++ second) := by
  have bound : p.offset ≤ p.bytes.length := within
  have front : (p.bytes.take p.offset).length = p.offset := by
    rw [List.length_take]
    omega
  have start : (p.bytes.take p.offset ++ first).length = p.offset + first.length := by
    rw [List.length_append, front]
  have past : (p.bytes.take p.offset ++ first ++ p.bytes.drop (p.offset + first.length)).drop
      (p.offset + first.length + second.length) =
        p.bytes.drop (p.offset + (first ++ second).length) := by
    rw [← List.drop_drop, List.drop_left' start, List.drop_drop, List.length_append,
      Nat.add_assoc]
  ext1
  · rfl
  · simp only [write]
    rw [List.take_left' start, past, List.append_assoc (p.bytes.take p.offset) first second]
  · simp only [write, List.length_append]
    omega

/-- Both writes fit if the one does. -/
theorem fits_append {p : Packer} (within : p.Within) (first second : List UInt8) :
    p.Fits (first ++ second) ↔ p.Fits first ∧ (p.write first).Fits second := by
  have offset : (p.write first).offset = p.offset + first.length := rfl
  have size : (p.write first).maxSize = p.maxSize := rfl
  simp only [Fits, length_write within, offset, size, List.length_append]
  omega

/-- The writer packs the bytes. -/
def Writes (writer : Writer) (val : List UInt8) : Prop :=
  ∀ p : Packer, p.Within → writer p = packFixedBytes val p

/-- The writer fails. -/
def Refuses (writer : Writer) : Prop := ∀ p : Packer, p.Within → ∃ e, writer p = .error e

/-- `PackFixedBytes` writes the bytes. -/
theorem writes_packFixedBytes (val : List UInt8) : Writes (packFixedBytes val) val :=
  fun _ _ => rfl

/-- Nothing is written by one that changes nothing. -/
theorem writes_nil : Writes Except.ok [] := by
  intro p within
  have fits : p.Fits [] := Or.inl within
  rw [packFixedBytes, if_pos fits, write_nil]

/-- Two writers that write, one after the other. -/
theorem Writes.followedBy {first second : Writer} {one other : List UInt8}
    (before : Writes first one) (after : Writes second other) :
    Writes (Packer.followedBy first second) (one ++ other) := by
  intro p within
  rw [Packer.followedBy, before p within, packFixedBytes, packFixedBytes]
  by_cases fits : p.Fits one
  · rw [if_pos fits]
    simp only
    rw [after _ (within_write within one), packFixedBytes, write_write within]
    by_cases both : (p.write one).Fits other
    · rw [if_pos both, if_pos ((fits_append within one other).mpr ⟨fits, both⟩)]
    · rw [if_neg both, if_neg (fun all => both ((fits_append within one other).mp all).2)]
  · rw [if_neg fits, if_neg (fun all => fits ((fits_append within one other).mp all).1)]

/-- Nothing is written after a refusal. -/
theorem Refuses.followedBy_left {first : Writer} (refuses : Refuses first) (second : Writer) :
    Refuses (Packer.followedBy first second) := by
  intro p within
  obtain ⟨e, failed⟩ := refuses p within
  exact ⟨e, by rw [Packer.followedBy, failed]⟩

/-- A later writer may still refuse. -/
theorem Writes.followedBy_refuses {first second : Writer} {one : List UInt8}
    (before : Writes first one) (refuses : Refuses second) :
    Refuses (Packer.followedBy first second) := by
  intro p within
  rw [Packer.followedBy, before p within, packFixedBytes]
  by_cases fits : p.Fits one
  · rw [if_pos fits]
    exact refuses _ (within_write within one)
  · rw [if_neg fits]
    exact ⟨_, rfl⟩

/-- An error is a refusal. -/
theorem refuses_error (e : CodecError) : Refuses (fun _ => .error e) := fun _ _ => ⟨e, rfl⟩

/-! ## What readers accept -/

/-- Between the two offsets of the array stand the bytes. -/
structure Reads (p : Packer) (val : List UInt8) (q : Packer) : Prop where
  maxSize : q.maxSize = p.maxSize
  bytes : q.bytes = p.bytes
  offset : q.offset = p.offset + val.length
  rest : p.bytes.drop p.offset = val ++ p.bytes.drop q.offset
  within : q.Within

/-- Nothing can always be read. -/
theorem reads_nil {p : Packer} (within : p.Within) : Reads p [] p :=
  ⟨rfl, rfl, rfl, rfl, within⟩

section Reads

variable {p q r : Packer} {first second : List UInt8}

/-- Two reads, one after the other. -/
theorem Reads.append (one : Reads p first q) (other : Reads q second r) :
    Reads p (first ++ second) r where
  maxSize := other.maxSize.trans one.maxSize
  bytes := other.bytes.trans one.bytes
  offset := by rw [other.offset, one.offset, List.length_append, Nat.add_assoc]
  rest := by
    have later := other.rest
    rw [one.bytes] at later
    rw [one.rest, later, List.append_assoc]
  within := other.within

/-- The packer that stands between two parts of what is read. -/
theorem Reads.split (both : Reads p (first ++ second) r) :
    Reads p first { p with offset := p.offset + first.length } ∧
      Reads { p with offset := p.offset + first.length } second r := by
  have middle : p.bytes.drop (p.offset + first.length) = second ++ p.bytes.drop r.offset := by
    rw [← List.drop_drop, both.rest, List.append_assoc, List.drop_left]
  have bound := both.within
  rw [Within, both.offset, both.bytes, List.length_append] at bound
  refine ⟨⟨rfl, rfl, rfl, ?_, ?_⟩, ⟨both.maxSize, both.bytes, ?_, middle, both.within⟩⟩
  · rw [both.rest, List.append_assoc, middle]
  · rw [Within]
    simp only
    omega
  · rw [both.offset, List.length_append, Nat.add_assoc]

/-- Reading the same bytes ends at the same place. -/
theorem Reads.unique (one : Reads p first q) (other : Reads p first r) : q = r := by
  ext1
  · rw [one.maxSize, other.maxSize]
  · rw [one.bytes, other.bytes]
  · rw [one.offset, other.offset]

end Reads

/-- `UnpackFixedBytes` reads exactly as many bytes as it is asked for. -/
theorem unpackFixedBytes_iff {p : Packer} (size : ℕ) (val : List UInt8) (q : Packer) :
    unpackFixedBytes size p = .ok (val, q) ↔ val.length = size ∧ Reads p val q := by
  rw [unpackFixedBytes]
  by_cases short : p.bytes.length < p.offset + size
  · rw [if_pos short]
    refine iff_of_false (by simp) ?_
    rintro ⟨rfl, reads⟩
    have bound := reads.within
    rw [Within, reads.offset, reads.bytes] at bound
    omega
  · rw [if_neg short, Except.ok.injEq, Prod.mk.injEq]
    constructor
    · rintro ⟨rfl, rfl⟩
      have length : ((p.bytes.drop p.offset).take size).length = size := by
        rw [List.length_take, List.length_drop]
        omega
      refine ⟨length, rfl, rfl, by rw [length], ?_, ?_⟩
      · rw [← List.drop_drop, List.take_append_drop]
      · rw [Within]
        simp only
        omega
    · rintro ⟨rfl, reads⟩
      refine ⟨?_, ?_⟩
      · rw [reads.rest, List.take_left]
      · ext1
        · exact reads.maxSize.symm
        · exact reads.bytes.symm
        · exact reads.offset.symm

/-- A reader accepts the encodings of the valid values. -/
def Accepts {α : Type} (reader : Reader α) (valid : α → Prop) (encode : α → List UInt8) : Prop :=
  ∀ p : Packer, p.Within → ∀ val q,
    reader p = .ok (val, q) ↔ valid val ∧ Reads p (encode val) q

/-- `UnpackFixedBytes` accepts the byte strings of the given length. -/
theorem accepts_unpackFixedBytes (size : ℕ) :
    Accepts (unpackFixedBytes size) (fun val => val.length = size) id :=
  fun _ _ val q => unpackFixedBytes_iff size val q

/-- What a reader and the next accept. -/
theorem accepts_readThen {α β : Type} {reader : Reader α} {valid : α → Prop}
    {encoding : α → List UInt8} (accepts : Accepts reader valid encoding) {next : α → Reader β}
    {validNext : α → β → Prop} {encodingNext : α → β → List UInt8}
    (acceptsNext : ∀ value, valid value →
      Accepts (next value) (validNext value) (encodingNext value))
    {validAfter : β → Prop} {encodingAfter : β → List UInt8}
    (shape : ∀ result, validAfter result ↔ ∃ value, valid value ∧ validNext value result)
    (same : ∀ value result, valid value → validNext value result →
      encodingAfter result = encoding value ++ encodingNext value result) :
    Accepts (readThen reader next) validAfter encodingAfter := by
  intro p within result q
  rw [readThen]
  constructor
  · intro read
    split at read
    · cases read
    · rename_i value middle accepted
      obtain ⟨good, first⟩ := (accepts p within value middle).mp accepted
      obtain ⟨goodNext, second⟩ :=
        (acceptsNext value good middle first.within result q).mp read
      rw [same value result good goodNext]
      exact ⟨(shape result).mpr ⟨value, good, goodNext⟩, first.append second⟩
  · rintro ⟨goodAfter, reads⟩
    obtain ⟨value, good, goodNext⟩ := (shape result).mp goodAfter
    rw [same value result good goodNext] at reads
    obtain ⟨first, second⟩ := reads.split
    rw [(accepts p within value _).mpr ⟨good, first⟩]
    exact (acceptsNext value good _ first.within result q).mpr ⟨goodNext, second⟩

/-- A reader that reads nothing. -/
theorem accepts_ok {α : Type} (value : α) :
    Accepts (fun p => .ok (value, p)) (fun result => result = value) (fun _ => []) := by
  intro p within result q
  rw [Except.ok.injEq, Prod.mk.injEq]
  constructor
  · rintro ⟨rfl, rfl⟩
    exact ⟨rfl, reads_nil within⟩
  · rintro ⟨rfl, reads⟩
    exact ⟨rfl, (reads_nil within).unique reads⟩

/-- A reader that always fails accepts nothing. -/
theorem accepts_error {α : Type} (e : CodecError) {valid : α → Prop}
    (encoding : α → List UInt8) (never : ∀ value, ¬ valid value) :
    Accepts (fun _ => .error e) valid encoding := by
  intro p within value q
  exact iff_of_false (by simp) (fun accepted => never value accepted.1)

/-- What is read under a function. -/
theorem accepts_mapReader {α β : Type} {reader : Reader α} {valid : α → Prop}
    {encoding : α → List UInt8} (accepts : Accepts reader valid encoding) {f : α → β}
    {validAfter : β → Prop} {encodingAfter : β → List UInt8}
    (shape : ∀ result, validAfter result ↔ ∃ value, valid value ∧ result = f value)
    (same : ∀ value, valid value → encodingAfter (f value) = encoding value) :
    Accepts (mapReader f reader) validAfter encodingAfter := by
  apply accepts_readThen accepts (fun value _ => accepts_ok (f value)) shape
  rintro value _ good rfl
  rw [same value good, List.append_nil]

/-- A number is read from its digits. -/
theorem accepts_unpackNumber (size : ℕ) :
    Accepts (unpackNumber size) (fun n => n < 256 ^ size) (digits size) := by
  apply accepts_mapReader (accepts_unpackFixedBytes size)
  · intro n
    constructor
    · intro small
      exact ⟨digits size n, length_digits size n, by
        rw [number_digits, Nat.mod_eq_of_lt small]⟩
    · rintro ⟨val, rfl, rfl⟩
      exact number_lt val
  · rintro val rfl
    exact digits_number val

/-- A Boolean is read from one byte. -/
theorem accepts_unpackBool :
    Accepts unpackBool (fun _ => True) (fun b => [if b = true then 1 else 0]) := by
  have later : ∀ n : ℕ, n < 256 ^ 1 → Accepts
      (fun p => if n = 0 then .ok (false, p) else if n = 1 then .ok (true, p) else .error .badBool)
      (fun b => n = if b = true then 1 else 0) (fun _ => []) := by
    intro n _
    by_cases zero : n = 0
    · simpa [zero] using accepts_ok false
    · by_cases one : n = 1
      · simpa [one] using accepts_ok true
      · simp only [if_neg zero, if_neg one]
        apply accepts_error
        intro b same
        cases b with
        | false => exact zero same
        | true => exact one same
  apply accepts_readThen (accepts_unpackNumber 1) later
  · intro b
    refine iff_of_true trivial ⟨_, ?_, rfl⟩
    cases b with
    | false => decide
    | true => decide
  · rintro n b _ rfl
    cases b with
    | false => rfl
    | true => rfl

/-- A text is read after its length. -/
theorem accepts_unpackStr : Accepts unpackStr (fun text => text.length ≤ maxStringLen)
    (fun text => digits 2 text.length ++ text) := by
  apply accepts_readThen (accepts_unpackNumber 2) (fun size _ => accepts_unpackFixedBytes size)
  · intro text
    constructor
    · intro bounded
      exact ⟨text.length, Nat.lt_succ_of_le bounded, rfl⟩
    · rintro ⟨_, bounded, rfl⟩
      exact Nat.le_of_lt_succ bounded
  · rintro _ text _ rfl
    rfl

/-- What one reader accepts is the same under other names. -/
theorem Accepts.congr {α : Type} {reader : Reader α} {valid validAfter : α → Prop}
    {encoding encodingAfter : α → List UInt8} (accepts : Accepts reader valid encoding)
    (shape : ∀ value, validAfter value ↔ valid value)
    (same : ∀ value, valid value → encodingAfter value = encoding value) :
    Accepts reader validAfter encodingAfter := by
  intro p within value q
  rw [accepts p within value q, shape value]
  constructor
  · rintro ⟨good, reads⟩
    rw [same value good]
    exact ⟨good, reads⟩
  · rintro ⟨good, reads⟩
    rw [same value good] at reads
    exact ⟨good, reads⟩

end Packer

end AvalancheParallel.Codec
