import Mathlib.Data.List.Sort
import AvalancheParallel.Codec.Marshaling

/-!
# Marshaling and unmarshaling are inverse

`Unmarshal` accepts exactly the byte strings that `Marshal` writes for values without keys that are
encoded alike, and gives back the value: there are no two byte strings for one such value, and none
that stands for a value that could not have been written. This holds for `linearcodec` and
`hierarchycodec`, whatever types are registered, and for both readings of `set.Set`: where a nil
set panics, no value with an interface in it is written or read.
-/

namespace AvalancheParallel.Codec

open AvalancheParallel.ByteOrder
open AvalancheParallel.Utils
open AvalancheParallel.Codec.Packer

variable {T ι : Type}

/-! ## Registered types -/

section Registered

variable [DecidableEq T] {K : Type} [DecidableEq K]

/-- A type ID stands for the registered type, if that implements the interface. -/
theorem accepts_findType (registeredTypes : BiMap K T) (implements : T → ι → Bool) (name : ι)
    (typeID : K) :
    Accepts (findType registeredTypes implements name typeID)
      (fun concrete => registeredTypes.getValue typeID = some concrete ∧
        implements concrete name = true) (fun _ => []) := by
  intro p within concrete q
  rw [findType]
  cases found : registeredTypes.getValue typeID with
  | none => exact iff_of_false (by simp) (by simp)
  | some implementingType =>
    simp only [Option.some.injEq]
    split
    · rename_i other
      refine iff_of_false (by simp) ?_
      rintro ⟨⟨rfl, implemented⟩, _⟩
      rw [other] at implemented
      cases implemented
    · rename_i implemented
      rw [Except.ok.injEq, Prod.mk.injEq]
      constructor
      · rintro ⟨rfl, rfl⟩
        exact ⟨⟨rfl, by simpa using implemented⟩, reads_nil within⟩
      · rintro ⟨⟨rfl, _⟩, reads⟩
        exact ⟨rfl, (reads_nil within).unique reads⟩

/-- The types that have a number. -/
def registered (registeredTypes : BiMap K T) : Finset T := registeredTypes.valueToKey.keys

/-- A type is registered when it has a type ID. -/
theorem mem_registered_iff (registeredTypes : BiMap K T) (concrete : T) :
    concrete ∈ registered registeredTypes ↔
      ∃ typeID, registeredTypes.getKey concrete = some typeID := by
  rw [registered, Finmap.mem_keys, Finmap.mem_iff]
  rfl

/-- The code of a type is that of its number. -/
def codeOf (registeredTypes : BiMap K T) (encoding : K → List UInt8) (concrete : T) : List UInt8 :=
  match registeredTypes.getKey concrete with
  | none => []
  | some typeID => encoding typeID

/-- The code of a registered type is the encoding of its type ID. -/
theorem codeOf_eq {registeredTypes : BiMap K T} (encoding : K → List UInt8) {concrete : T}
    {typeID : K} (found : registeredTypes.getKey concrete = some typeID) :
    codeOf registeredTypes encoding concrete = encoding typeID := by
  rw [codeOf, found]

/-- A number of a type is read, and then the type is looked up. -/
theorem accepts_unpackPrefix (registeredTypes : BiMap K T) (implements : T → ι → Bool) (name : ι)
    {reader : Reader K} {encoding : K → List UInt8}
    (accepts : Accepts reader (fun _ => True) encoding) :
    Accepts (readThen reader (findType registeredTypes implements name))
      (fun concrete => concrete ∈ registered registeredTypes ∧ implements concrete name = true)
      (codeOf registeredTypes encoding) := by
  apply accepts_readThen accepts
    (fun typeID _ => accepts_findType registeredTypes implements name typeID)
  · intro concrete
    rw [mem_registered_iff]
    constructor
    · rintro ⟨⟨typeID, found⟩, implemented⟩
      exact ⟨typeID, trivial, (registeredTypes.inverse typeID concrete).mpr found, implemented⟩
    · rintro ⟨typeID, _, found, implemented⟩
      exact ⟨⟨typeID, (registeredTypes.inverse typeID concrete).mp found⟩, implemented⟩
  · rintro typeID concrete _ ⟨found, _⟩
    rw [codeOf_eq encoding ((registeredTypes.inverse typeID concrete).mp found), List.append_nil]

/-- Reading one after another is associative. -/
theorem readThen_readThen {α β γ : Type} (reader : Reader α) (next : α → Reader β)
    (last : β → Reader γ) :
    readThen (readThen reader next) last =
      readThen reader (fun value => readThen (next value) last) := by
  funext p
  rw [readThen, readThen, readThen]
  cases reader p with
  | error e => rfl
  | ok read => rfl

/-- What is read next sees the value after the function. -/
theorem readThen_mapReader {α β γ : Type} (reader : Reader α) (f : α → β) (last : β → Reader γ) :
    readThen (mapReader f reader) last = readThen reader (fun value => last (f value)) := by
  rw [mapReader, readThen_readThen]
  rfl

namespace LinearCodec

variable (c : LinearCodec T) (implements : T → ι → Bool)

/-- The number of a type, as it is written. -/
def code : T → List UInt8 := codeOf c.registeredTypes (fun typeID => digits 4 typeID.toNat)

/-- The type ID of a registered type is written. -/
theorem writes_packPrefix (concrete : T) (member : concrete ∈ registered c.registeredTypes) :
    Writes (c.packPrefix concrete) (c.code concrete) := by
  obtain ⟨typeID, found⟩ := (mem_registered_iff _ _).mp member
  rw [packPrefix, code, found, codeOf_eq _ found]
  exact writes_packFixedBytes _

/-- A type that is not registered is refused. -/
theorem refuses_packPrefix (concrete : T) (unknown : concrete ∉ registered c.registeredTypes) :
    Refuses (c.packPrefix concrete) := by
  rw [mem_registered_iff, not_exists] at unknown
  rw [packPrefix, Option.eq_none_iff_forall_ne_some.mpr unknown]
  exact refuses_error _

/-- A type ID is read back as its type. -/
theorem accepts_code (name : ι) : Accepts (c.unpackPrefix implements name)
    (fun concrete => concrete ∈ registered c.registeredTypes ∧ implements concrete name = true)
    c.code := by
  have number : Accepts (mapReader UInt32.ofNat unpackInt) (fun _ => True)
      (fun typeID => digits 4 typeID.toNat) := by
    apply accepts_mapReader (accepts_unpackNumber 4)
    · intro typeID
      exact iff_of_true trivial ⟨typeID.toNat, typeID.toNat_lt, UInt32.ofNat_toNat.symm⟩
    · intro n small
      rw [UInt32.toNat_ofNat_of_lt' small]
  have accepts := accepts_unpackPrefix c.registeredTypes implements name number
  rw [readThen_mapReader] at accepts
  exact accepts

/-- A type ID of the linear codec has four bytes. -/
theorem length_code (concrete : T) (member : concrete ∈ registered c.registeredTypes) :
    4 = (c.code concrete).length := by
  obtain ⟨typeID, found⟩ := (mem_registered_iff _ _).mp member
  rw [code, codeOf_eq _ found, length_digits]

/-- The types of `linearcodec`. -/
def typeCodec : TypeCodec T ι where
  packPrefix := c.packPrefix
  unpackPrefix := c.unpackPrefix implements
  prefixSize _ := 4
  implements := implements
  types := registered c.registeredTypes
  code := c.code
  packs := c.writes_packPrefix
  refuses := c.refuses_packPrefix
  accepts := c.accepts_code implements
  sized := c.length_code

end LinearCodec

namespace HierarchyCodec

variable (c : HierarchyCodec T) (implements : T → ι → Bool)

/-- The numbers of a group and of a type, as they are written. -/
def encodeID (id : TypeID) : List UInt8 := digits 2 id.groupID.toNat ++ digits 2 id.typeID.toNat

/-- The numbers of a type, as they are written. -/
def code : T → List UInt8 := codeOf c.registeredTypes encodeID

/-- The group and the type of a registered type are written. -/
theorem writes_packPrefix (concrete : T) (member : concrete ∈ registered c.registeredTypes) :
    Writes (c.packPrefix concrete) (c.code concrete) := by
  obtain ⟨id, found⟩ := (mem_registered_iff _ _).mp member
  rw [packPrefix, code, found, codeOf_eq _ found]
  exact (writes_packFixedBytes _).followedBy (writes_packFixedBytes _)

/-- A type that is not registered is refused. -/
theorem refuses_packPrefix (concrete : T) (unknown : concrete ∉ registered c.registeredTypes) :
    Refuses (c.packPrefix concrete) := by
  rw [mem_registered_iff, not_exists] at unknown
  rw [packPrefix, Option.eq_none_iff_forall_ne_some.mpr unknown]
  exact refuses_error _

/-- A group and a type are read. -/
theorem accepts_typeID : Accepts (readThen unpackShort (fun groupID =>
      mapReader (fun typeIDShort => TypeID.mk (UInt16.ofNat groupID) (UInt16.ofNat typeIDShort))
        unpackShort)) (fun _ => True) encodeID := by
  have second : ∀ groupID, groupID < 256 ^ 2 → Accepts
      (mapReader (fun typeIDShort => TypeID.mk (UInt16.ofNat groupID) (UInt16.ofNat typeIDShort))
        unpackShort)
      (fun id => id.groupID = UInt16.ofNat groupID) (fun id => digits 2 id.typeID.toNat) := by
    intro groupID _
    apply accepts_mapReader (accepts_unpackNumber 2)
    · intro id
      constructor
      · intro same
        refine ⟨id.typeID.toNat, id.typeID.toNat_lt, ?_⟩
        rw [UInt16.ofNat_toNat, ← same]
      · rintro ⟨_, _, rfl⟩
        rfl
    · intro typeIDShort small
      simp only
      rw [UInt16.toNat_ofNat_of_lt' small]
  apply accepts_readThen (accepts_unpackNumber 2) second
  · intro id
    exact iff_of_true trivial ⟨id.groupID.toNat, id.groupID.toNat_lt, UInt16.ofNat_toNat.symm⟩
  · intro groupID id small same
    rw [encodeID, same, UInt16.toNat_ofNat_of_lt' small]

/-- A group and a type are read back as the registered type. -/
theorem accepts_code (name : ι) : Accepts (c.unpackPrefix implements name)
    (fun concrete => concrete ∈ registered c.registeredTypes ∧ implements concrete name = true)
    c.code := by
  have accepts := accepts_unpackPrefix c.registeredTypes implements name accepts_typeID
  rw [readThen_readThen] at accepts
  simp only [readThen_mapReader] at accepts
  exact accepts

/-- A type ID of the hierarchical codec has four bytes. -/
theorem length_code (concrete : T) (member : concrete ∈ registered c.registeredTypes) :
    4 = (c.code concrete).length := by
  obtain ⟨id, found⟩ := (mem_registered_iff _ _).mp member
  rw [code, codeOf_eq _ found, encodeID, List.length_append, length_digits, length_digits]

/-- The types of `hierarchycodec`. -/
def typeCodec : TypeCodec T ι where
  packPrefix := c.packPrefix
  unpackPrefix := c.unpackPrefix implements
  prefixSize _ := 4
  implements := implements
  types := registered c.registeredTypes
  code := c.code
  packs := c.writes_packPrefix
  refuses := c.refuses_packPrefix
  accepts := c.accepts_code implements
  sized := c.length_code

end HierarchyCodec

end Registered

/-! ## Versions -/

section Manager

variable [DecidableEq T] {m : Manager T ι} {version : UInt16} {c : GenericCodec T ι}

/-- What stands between the beginning and the end of the array. -/
theorem Packer.Reads.whole {size : ℕ} {bytes val : List UInt8} {q : Packer}
    (reads : Reads ⟨size, bytes, 0⟩ val q) : q.offset = bytes.length ↔ bytes = val := by
  have rest := reads.rest
  have offset := reads.offset
  simp only [List.drop_zero, Nat.zero_add] at rest offset
  constructor
  · intro same
    rw [same, List.drop_length, List.append_nil] at rest
    exact rest
  · intro same
    rw [offset, same]

/-- `Marshal` writes the version and the encoding, exactly for the encodable values within the
limit. -/
theorem Manager.marshal_iff (known : m.codecs.lookup version = some c) (orders : MapOrders)
    {t : GoType ι} {value : GoValue T} (typed : HasType c t value) (apart : KeysApart c value)
    (bytes : List UInt8) :
    m.marshal orders version value = .ok bytes ↔
      Encodable c [] value ∧ bytes = digits 2 version.toNat ++ encode c value ∧
        bytes.length ≤ m.maxSize := by
  have empty : Within ⟨m.maxSize, [], 0⟩ := Nat.le_refl 0
  have decided := marshal_decided orders typed apart []
  have opened : write ⟨m.maxSize, [], 0⟩ (digits 2 version.toNat) =
      ⟨m.maxSize, digits 2 version.toNat, 2⟩ := by
    simp [write]
  have written : write ⟨m.maxSize, digits 2 version.toNat, 2⟩ (encode c value) =
      ⟨m.maxSize, digits 2 version.toNat ++ encode c value, 2 + (encode c value).length⟩ := by
    simp [write, List.take_of_length_le, List.drop_eq_nil_of_le]
  have within : Within ⟨m.maxSize, digits 2 version.toNat, 2⟩ := by
    rw [Within, length_digits]
  rw [Manager.marshal, known]
  simp only
  rw [packShort, packFixedBytes, opened]
  by_cases room : Fits ⟨m.maxSize, [], 0⟩ (digits 2 version.toNat)
  · rw [if_pos room]
    simp only [Fits, length_digits, List.length_nil] at room
    simp only
    by_cases encodable : Encodable c [] value
    · rw [decided.writes encodable _ within, packFixedBytes, written]
      by_cases fits : Fits ⟨m.maxSize, digits 2 version.toNat, 2⟩ (encode c value)
      · rw [if_pos fits]
        simp only [Fits, length_digits] at fits
        simp only [Except.ok.injEq]
        constructor
        · rintro rfl
          refine ⟨encodable, rfl, ?_⟩
          rw [List.length_append, length_digits]
          omega
        · exact fun all => all.2.1.symm
      · rw [if_neg fits]
        refine iff_of_false (by simp) ?_
        rintro ⟨_, rfl, bounded⟩
        rw [List.length_append, length_digits] at bounded
        exact fits (Or.inr bounded)
    · obtain ⟨e, failed⟩ := decided.refuses encodable _ within
      rw [failed]
      exact iff_of_false (by simp) (fun all => encodable all.1)
  · rw [if_neg room]
    refine iff_of_false (by simp) ?_
    rintro ⟨_, rfl, bounded⟩
    rw [List.length_append, length_digits] at bounded
    apply room
    right
    rw [length_digits]
    simp only
    omega

/-- `Unmarshal` reads the version and the encoding, exactly of the valid values within the limit. -/
theorem Manager.unmarshal_iff (known : m.codecs.lookup version = some c) (t : GoType ι)
    (bytes : List UInt8) (value : GoValue T) :
    m.unmarshal t bytes = .ok (version, value) ↔
      Valid c [] t value ∧ bytes = digits 2 version.toNat ++ encode c value ∧
        bytes.length ≤ m.maxSize := by
  have empty : Within ⟨0, bytes, 0⟩ := Nat.zero_le _
  have accepts := accepts_unmarshal c c.typer.types.card [] (Finset.card_filter_le _ _) t
  rw [Manager.unmarshal]
  constructor
  · intro read
    split at read
    · cases read
    · rename_i bounded
      split at read
      · cases read
      · rename_i n p unpacked
        obtain ⟨small, first⟩ := (accepts_unpackNumber 2 _ empty n p).mp unpacked
        split at read
        · cases read
        · rename_i codec found
          split at read
          · cases read
          · rename_i decoded q unmarshaled
            split at read
            · cases read
            · rename_i finished
              cases read
              rw [known] at found
              cases found
              obtain ⟨valid, second⟩ := (accepts p first.within value q).mp unmarshaled
              have whole := (first.append second).whole.mp (not_not.mp finished)
              refine ⟨valid, ?_, Nat.le_of_not_gt bounded⟩
              rw [UInt16.toNat_ofNat_of_lt' small]
              exact whole
  · rintro ⟨valid, rfl, bounded⟩
    have all : Reads ⟨0, digits 2 version.toNat ++ encode c value, 0⟩
        (digits 2 version.toNat ++ encode c value)
        ⟨0, digits 2 version.toNat ++ encode c value,
          (digits 2 version.toNat ++ encode c value).length⟩ := by
      refine ⟨rfl, rfl, (Nat.zero_add _).symm, ?_, Nat.le_refl _⟩
      simp
    obtain ⟨first, second⟩ := all.split
    rw [if_neg (Nat.not_lt_of_le bounded), unpackShort,
      (accepts_unpackNumber 2 _ empty _ _).mpr ⟨version.toNat_lt, first⟩]
    simp only
    rw [UInt16.ofNat_toNat, known]
    simp only
    rw [(accepts _ first.within value _).mpr ⟨valid, second⟩]
    simp

end Manager

/-! ## An example -/

/-- Two types that implement an interface. -/
inductive Shape where
  | label
  | box
  deriving DecidableEq

/-- A label has a text, and a box a content and a map from numbers to flags. -/
def shapeCodec (sets : SetReading) : GenericCodec Shape Unit where
  typer := LinearCodec.typeCodec ⟨2, (BiMap.new.put 0 .label).put 1 .box⟩ (fun _ _ => true)
  definition
    | .label => .pointer (.struct [.string])
    | .box => .pointer (.struct [.interface (), .map (.number .uint8) .bool])
  sets := sets

/-- The manager with this codec as its version 0. -/
def shapeManager (sets : SetReading) : Manager Shape Unit :=
  ⟨1024, Finmap.singleton 0 (shapeCodec sets)⟩

/-- Maps are visited backwards. -/
def backwards : MapOrders where
  mapKeys _ count := (List.range count).reverse
  mapKeys_perm _ _ := List.reverse_perm _
  sortFunc keys :=
    (List.range keys.length).insertionSort (fun i j => keys.getD i [] ≤ keys.getD j [])
  sortFunc_perm _ := List.perm_insertionSort _ _
  sortFunc_sorted keys := by
    have total : Std.Total (fun i j => keys.getD i [] ≤ keys.getD j []) :=
      ⟨fun _ _ => le_total _ _⟩
    have trans : IsTrans ℕ (fun i j => keys.getD i [] ≤ keys.getD j []) :=
      ⟨fun _ _ _ => le_trans⟩
    exact (List.pairwise_insertionSort _ _).imp not_lt_of_ge

/-- A map from numbers to flags. -/
def flags : GoValue Shape :=
  .map [(.number .uint8 (NumberKind.truncate .uint8 3), .bool true),
    (.number .uint8 (NumberKind.truncate .uint8 7), .bool false)]

/-- A box with a label in it. -/
def labelInBox : GoValue Shape :=
  .interface .box (.pointer (.struct
    [.interface .label (.pointer (.struct [.string [104, 105]])), flags]))

/-- The flags are a map from numbers to flags. -/
theorem flags_typed (sets : SetReading) :
    HasType (shapeCodec sets) (.map (.number .uint8) .bool) flags := by
  apply HasType.map
  · intro entry member
    simp only [List.mem_cons, List.not_mem_nil, or_false] at member
    rcases member with rfl | rfl
    · exact .number _ _
    · exact .number _ _
  · intro entry member
    simp only [List.mem_cons, List.not_mem_nil, or_false] at member
    rcases member with rfl | rfl
    · exact .bool _
    · exact .bool _
  · rw [Listed, List.pairwise_pair]
    simp only [encode]
    decide +kernel

/-- Their keys are apart. -/
theorem flags_apart (sets : SetReading) : KeysApart (shapeCodec sets) flags := by
  rw [flags, keysApart_map_iff]
  refine ⟨?_, ?_, ?_⟩
  · rw [Apart, List.pairwise_pair]
    simp only [encode]
    decide +kernel
  · intro entry member entries inside
    simp only [List.mem_cons, List.not_mem_nil, or_false] at member
    rcases member with rfl | rfl
    · cases inside
    · cases inside
  · intro entry member entries inside
    simp only [List.mem_cons, List.not_mem_nil, or_false] at member
    rcases member with rfl | rfl
    · cases inside
    · cases inside

/-- The box is a value of the interface. -/
theorem labelInBox_typed (sets : SetReading) :
    HasType (shapeCodec sets) (.interface ()) labelInBox := by
  apply HasType.interface rfl
  apply HasType.pointer
  apply HasType.struct rfl
  intro pair member
  simp only [List.zip_cons_cons, List.zip_nil_right, List.mem_cons, List.not_mem_nil,
    or_false] at member
  rcases member with rfl | rfl
  · apply HasType.interface rfl
    apply HasType.pointer
    apply HasType.struct rfl
    intro pair member
    simp only [List.zip_cons_cons, List.zip_nil_right, List.mem_singleton] at member
    rw [member]
    exact .string _
  · exact flags_typed sets

/-- The keys in the box are apart. -/
theorem labelInBox_apart (sets : SetReading) : KeysApart (shapeCodec sets) labelInBox := by
  rw [labelInBox, keysApart_interface_iff, keysApart_pointer_iff, keysApart_struct_iff]
  intro value member
  simp only [List.mem_cons, List.not_mem_nil, or_false] at member
  rcases member with rfl | rfl
  · rw [keysApart_interface_iff, keysApart_pointer_iff, keysApart_struct_iff]
    intro value member entries inside
    rw [List.mem_singleton.mp member] at inside
    cases inside
  · exact flags_apart sets

/-- A map with two pointers to the same number as its keys. -/
def twins : GoValue Shape :=
  .map [(.pointer (.number .uint8 (NumberKind.truncate .uint8 3)), .bool true),
    (.pointer (.number .uint8 (NumberKind.truncate .uint8 3)), .bool false)]

/-- `Marshal` writes both entries, and `Unmarshal` refuses the second key. -/
example : (shapeManager .map).marshal backwards 0 twins = .ok [0, 0, 0, 0, 0, 2, 3, 0, 3, 1] ∧
    ((shapeManager .map).unmarshal (.map (.pointer (.number .uint8)) .bool)
      [0, 0, 0, 0, 0, 2, 3, 0, 3, 1]).isOk = false := by
  decide +kernel

end AvalancheParallel.Codec
