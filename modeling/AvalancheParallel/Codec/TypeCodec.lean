import AvalancheParallel.Codec.Packer
import AvalancheParallel.Utils.Collections

/-!
# Marshaling by types

`genericCodec` of `reflectcodec` writes a value of a Go type as the fields that are marked for
it, one after the other: numbers with the most significant byte first, slices and maps with
the number of their elements before them, a map by the order of the bytes of its keys, and the
value of an interface with a number for its concrete type before it. The concrete types are
registered with `linearcodec` or `hierarchycodec`, and `codec.Manager` puts a version before all.

A struct type is the list of the types of its marked fields, so a struct contains itself only
through an interface. Slices and arrays of kind `Uint8` have constructors of their own, as the
codec treats them apart. A map lists its entries by the bytes of their keys; the order in which
Go visits them, and what `slices.SortFunc` makes of it, are parameters.

The stack of the concrete types that are being written or read is a `set.Set` that is nil at
first, and its methods are called for every interface. With sets that are interfaces the first
of these calls panics.
-/

namespace AvalancheParallel.Codec

open AvalancheParallel.ByteOrder
open AvalancheParallel.Utils
open AvalancheParallel.Codec.Packer

variable {T ι : Type}

/-- The kinds of numbers. -/
inductive NumberKind where
  | uint8
  | int8
  | uint16
  | int16
  | uint32
  | int32
  | uint64
  | int64
  deriving DecidableEq

/-- `ByteLen`, `ShortLen`, `IntLen` and `LongLen`. -/
def NumberKind.len : NumberKind → ℕ
  | .uint8 => 1
  | .int8 => 1
  | .uint16 => 2
  | .int16 => 2
  | .uint32 => 4
  | .int32 => 4
  | .uint64 => 8
  | .int64 => 8

/-- Go types, over the names of interface types. -/
inductive GoType (ι : Type) where
  | number (kind : NumberKind)
  | bool
  | string
  /-- A slice of kind `Uint8`. -/
  | bytes
  /-- An array of kind `Uint8`. -/
  | byteArray (count : ℕ)
  | pointer (elem : GoType ι)
  | interface (name : ι)
  | slice (elem : GoType ι)
  | array (count : ℕ) (elem : GoType ι)
  /-- A struct with these marked fields. -/
  | struct (fields : List (GoType ι))
  | map (key value : GoType ι)
  | unsupported

/-- Go values, over the names of the concrete types. The bits of a negative number are those of
its two's complement. -/
inductive GoValue (T : Type) where
  | number (kind : NumberKind) (bits : Fin (256 ^ kind.len))
  | bool (b : Bool)
  | string (text : List UInt8)
  | bytes (content : List UInt8)
  | byteArray (content : List UInt8)
  | nilPointer
  | pointer (target : GoValue T)
  | nilInterface
  | interface (concrete : T) (content : GoValue T)
  | slice (elements : List (GoValue T))
  | array (elements : List (GoValue T))
  | struct (fields : List (GoValue T))
  | map (entries : List (GoValue T × GoValue T))
  | unsupported

/-! ## Concrete types and their numbers -/

/-- `reflectcodec.TypeCodec`: what is written before the value of an interface. The codes of the
registered types say what the functions do. -/
structure TypeCodec (T ι : Type) where
  packPrefix : T → Writer
  unpackPrefix : ι → Reader T
  prefixSize : T → ℕ
  implements : T → ι → Bool
  types : Finset T
  code : T → List UInt8
  packs : ∀ concrete ∈ types, Writes (packPrefix concrete) (code concrete)
  refuses : ∀ concrete ∉ types, Refuses (packPrefix concrete)
  accepts : ∀ name, Accepts (unpackPrefix name)
    (fun concrete => concrete ∈ types ∧ implements concrete name = true) code
  sized : ∀ concrete ∈ types, prefixSize concrete = (code concrete).length

/-- The end of `UnpackPrefix`: the type of a number, which has to implement the interface. -/
def findType {K : Type} [DecidableEq K] [DecidableEq T] (registeredTypes : BiMap K T)
    (implements : T → ι → Bool) (valueType : ι) (typeID : K) : Reader T := fun p =>
  match registeredTypes.getValue typeID with
  | none => .error .unknownTypeID
  | some implementingType =>
    if implements implementingType valueType = false then .error .doesNotImplementInterface
    else .ok (implementingType, p)

/-- `linearCodec`. -/
structure LinearCodec (T : Type) [DecidableEq T] where
  nextTypeID : UInt32
  registeredTypes : BiMap UInt32 T

namespace LinearCodec

variable [DecidableEq T]

/-- `New`. -/
def new : LinearCodec T := ⟨0, BiMap.new⟩

/-- `SkipRegistrations`. -/
def skipRegistrations (num : ℕ) (c : LinearCodec T) : LinearCodec T :=
  { c with nextTypeID := c.nextTypeID + UInt32.ofNat num }

/-- `RegisterType`. -/
def registerType (valType : T) (c : LinearCodec T) : Except CodecError (LinearCodec T) :=
  if c.registeredTypes.hasValue valType = true then .error .duplicateType
  else .ok ⟨c.nextTypeID + 1, c.registeredTypes.put c.nextTypeID valType⟩

/-- `PackPrefix`. -/
def packPrefix (c : LinearCodec T) (valueType : T) : Writer :=
  match c.registeredTypes.getKey valueType with
  | none => fun _ => .error .unregisteredType
  | some typeID => packInt typeID

/-- `UnpackPrefix`. -/
def unpackPrefix (c : LinearCodec T) (implements : T → ι → Bool) (valueType : ι) : Reader T :=
  readThen unpackInt (fun typeID =>
    findType c.registeredTypes implements valueType (UInt32.ofNat typeID))

end LinearCodec

/-- `typeID` of `hierarchycodec`. -/
structure TypeID where
  groupID : UInt16
  typeID : UInt16
  deriving DecidableEq

/-- `hierarchyCodec`. -/
structure HierarchyCodec (T : Type) [DecidableEq T] where
  currentGroupID : UInt16
  nextTypeID : UInt16
  registeredTypes : BiMap TypeID T

namespace HierarchyCodec

variable [DecidableEq T]

/-- `New`. -/
def new : HierarchyCodec T := ⟨0, 0, BiMap.new⟩

/-- `SkipRegistrations`. -/
def skipRegistrations (num : ℕ) (c : HierarchyCodec T) : HierarchyCodec T :=
  { c with nextTypeID := c.nextTypeID + UInt16.ofNat num }

/-- `NextGroup`. -/
def nextGroup (c : HierarchyCodec T) : HierarchyCodec T :=
  { c with currentGroupID := c.currentGroupID + 1, nextTypeID := 0 }

/-- `RegisterType`. -/
def registerType (valType : T) (c : HierarchyCodec T) : Except CodecError (HierarchyCodec T) :=
  if c.registeredTypes.hasValue valType = true then .error .duplicateType
  else
    .ok { c with
      nextTypeID := c.nextTypeID + 1
      registeredTypes := c.registeredTypes.put ⟨c.currentGroupID, c.nextTypeID⟩ valType }

/-- `PackPrefix`. -/
def packPrefix (c : HierarchyCodec T) (valueType : T) : Writer :=
  match c.registeredTypes.getKey valueType with
  | none => fun _ => .error .unregisteredType
  | some id => followedBy (packShort id.groupID) (packShort id.typeID)

/-- `UnpackPrefix`. -/
def unpackPrefix (c : HierarchyCodec T) (implements : T → ι → Bool) (valueType : ι) : Reader T :=
  readThen unpackShort (fun groupID => readThen unpackShort (fun typeIDShort =>
    findType c.registeredTypes implements valueType
      ⟨UInt16.ofNat groupID, UInt16.ofNat typeIDShort⟩))

end HierarchyCodec

/-- `genericCodec`, with the definitions of the concrete types and the reading of `set.Set`. -/
structure GenericCodec (T ι : Type) where
  typer : TypeCodec T ι
  definition : T → GoType ι
  sets : SetReading

/-! ## Marshaling -/

/-- `math.MaxInt32`. -/
def maxInt32 : ℕ := 2147483647

/-- The orders that are not determined: in which order `MapKeys` lists the entries of a map that
is written at an offset, and how `slices.SortFunc` orders keys by their bytes. -/
structure MapOrders where
  mapKeys : ℕ → ℕ → List ℕ
  mapKeys_perm : ∀ offset count, (mapKeys offset count).Perm (List.range count)
  sortFunc : List (List UInt8) → List ℕ
  sortFunc_perm : ∀ keys, (sortFunc keys).Perm (List.range keys.length)
  sortFunc_sorted : ∀ keys, (sortFunc keys).Pairwise
    (fun earlier later => ¬ keys.getD later [] < keys.getD earlier [])

/-- The elements at the positions. -/
def select {α : Type} (positions : List ℕ) (elements : List α) : List α :=
  positions.filterMap (fun i => elements[i]?)

/-- A number of a kind. -/
def packNumber : (kind : NumberKind) → Fin (256 ^ kind.len) → Writer
  | .uint8, bits => packByte (UInt8.ofNat bits)
  | .int8, bits => packByte (UInt8.ofNat bits)
  | .uint16, bits => packShort (UInt16.ofNat bits)
  | .int16, bits => packShort (UInt16.ofNat bits)
  | .uint32, bits => packInt (UInt32.ofNat bits)
  | .int32, bits => packInt (UInt32.ofNat bits)
  | .uint64, bits => packLong (UInt64.ofNat bits)
  | .int64, bits => packLong (UInt64.ofNat bits)

/-- The loop over the elements of an array, or over the fields of a struct. -/
def packAll : List Writer → Writer
  | [] => .ok
  | element :: rest => followedBy element (packAll rest)

/-- Elements of slices and entries of maps may not be empty. -/
def packSome (element : Writer) : Writer := fun p =>
  match element p with
  | .error e => .error e
  | .ok q => if p.offset = q.offset then .error .marshalZeroLength else .ok q

/-- The number of elements of a slice or map, and what follows it. -/
def packCounted (numElts : ℕ) (rest : Writer) : Writer :=
  if numElts > maxInt32 then fun _ => .error .maxSliceLenExceeded
  else followedBy (packInt (UInt32.ofNat numElts)) rest

/-- `keyTuple`, with what writes the value of the key. -/
structure KeyTuple where
  startIndex : ℕ
  endIndex : ℕ
  value : Writer

/-- The bytes of a key. -/
def KeyTuple.bytes (p : Packer) (key : KeyTuple) : List UInt8 :=
  (p.bytes.take key.endIndex).drop key.startIndex

/-- The loop that writes the keys. -/
def packKeys : List (Writer × Writer) → Packer → Except CodecError (List KeyTuple × Packer)
  | [], p => .ok ([], p)
  | (key, value) :: rest, p =>
    match key p with
    | .error e => .error e
    | .ok q =>
      match packKeys rest q with
      | .error e => .error e
      | .ok (tuples, r) => .ok (⟨p.offset, q.offset, value⟩ :: tuples, r)

/-- A sorted entry. -/
def packEntry (keyBytes : List UInt8) (value : Writer) : Writer :=
  packSome (followedBy (packFixedBytes keyBytes) value)

/-- The entries of a map: the keys are written, sorted, and written again with their values. -/
def packMap (orders : MapOrders) (entries : List (Writer × Writer)) : Writer := fun p =>
  match packKeys (select (orders.mapKeys p.offset entries.length) entries) p with
  | .error e => .error e
  | .ok (keys, q) =>
    packAll (select (orders.sortFunc (keys.map (KeyTuple.bytes q)))
      (keys.map (fun key => packEntry (key.bytes q) key.value))) { q with offset := p.offset }

mutual

/-- `marshal`. -/
def marshal [DecidableEq T] (c : GenericCodec T ι) (orders : MapOrders) :
    GoValue T → List T → Writer
  | .number kind bits, _ => packNumber kind bits
  | .string text, _ => packStr text
  | .bool b, _ => packBool b
  | .nilPointer, _ => fun _ => .error .marshalNil
  | .pointer target, typeStack => marshal c orders target typeStack
  | .nilInterface, _ => fun _ => .error .marshalNil
  | .interface concrete content, typeStack =>
    -- `Contains` of the nil stack
    if c.sets = .interface then fun _ => .error .panicked
    else if concrete ∈ typeStack then fun _ => .error .recursiveInterfaceTypes
    else followedBy (c.typer.packPrefix concrete)
      (marshal c orders content (concrete :: typeStack))
  | .bytes content, _ => packCounted content.length (packFixedBytes content)
  | .slice elements, typeStack =>
    packCounted elements.length (packAll ((marshalAll c orders elements typeStack).map packSome))
  -- The kind of the array, not that of its elements, is compared with `Uint8`.
  | .byteArray content, _ => packAll (content.map packByte)
  | .array elements, typeStack => packAll (marshalAll c orders elements typeStack)
  | .struct fields, typeStack => packAll (marshalAll c orders fields typeStack)
  | .map entries, typeStack =>
    packCounted entries.length (packMap orders (marshalEntries c orders entries typeStack))
  | .unsupported, _ => fun _ => .error .unsupportedType

def marshalAll [DecidableEq T] (c : GenericCodec T ι) (orders : MapOrders) :
    List (GoValue T) → List T → List Writer
  | [], _ => []
  | value :: rest, typeStack =>
    marshal c orders value typeStack :: marshalAll c orders rest typeStack

def marshalEntries [DecidableEq T] (c : GenericCodec T ι) (orders : MapOrders) :
    List (GoValue T × GoValue T) → List T → List (Writer × Writer)
  | [], _ => []
  | (key, value) :: rest, typeStack =>
    (marshal c orders key typeStack, marshal c orders value typeStack) ::
      marshalEntries c orders rest typeStack

end

/-! ## Unmarshaling -/

/-- Every kind of number has a value. -/
theorem NumberKind.range_pos (kind : NumberKind) : 0 < 256 ^ kind.len := Nat.pow_pos (by decide)

/-- `SetUint` and `SetInt` keep as many bits as the kind has. -/
def NumberKind.truncate (kind : NumberKind) (n : ℕ) : Fin (256 ^ kind.len) :=
  ⟨n % 256 ^ kind.len, Nat.mod_lt n kind.range_pos⟩

/-- The loop over the elements of an array, or over the fields of a struct. -/
def unpackAll {α : Type} : List (Reader α) → Reader (List α)
  | [] => fun p => .ok ([], p)
  | element :: rest =>
    readThen element (fun value => mapReader (fun values => value :: values) (unpackAll rest))

/-- Elements of slices and entries of maps may not be empty. -/
def unpackSome {α : Type} (element : Reader α) : Reader α := fun p =>
  readThen element (fun value q =>
    if p.offset = q.offset then .error .unmarshalZeroLength else .ok (value, q)) p

/-- A key of a map, with its bytes, which are greater than those of the previous key. -/
def unpackKey {α : Type} (mapKey : Reader α) (prevKey : Option (List UInt8)) :
    Reader (α × List UInt8) := fun p =>
  readThen mapKey (fun key q =>
    let keyBytes := (q.bytes.take q.offset).drop p.offset
    if ∃ previous ∈ prevKey, ¬ previous < keyBytes then .error .unsortedKeys
    else .ok ((key, keyBytes), q)) p

/-- An entry of a map, with the bytes of its key. -/
def unpackEntry {α : Type} (mapKey mapValue : Reader α) (prevKey : Option (List UInt8)) :
    Reader ((α × α) × List UInt8) :=
  unpackSome (readThen (unpackKey mapKey prevKey) (fun key =>
    mapReader (fun value => ((key.1, value), key.2)) mapValue))

/-- The loop over the entries of a map. -/
def unpackEntries {α : Type} (mapKey mapValue : Reader α) :
    ℕ → Option (List UInt8) → Reader (List (α × α))
  | 0, _ => fun p => .ok ([], p)
  | numElts + 1, prevKey =>
    readThen (unpackEntry mapKey mapValue prevKey) (fun entry =>
      mapReader (fun entries => entry.1 :: entries)
        (unpackEntries mapKey mapValue numElts (some entry.2)))

/-- The number of elements of a slice or map, and what follows it. -/
def unpackCounted {α : Type} (rest : ℕ → Reader α) : Reader α :=
  readThen unpackInt (fun numElts =>
    if numElts > maxInt32 then fun _ => .error .maxSliceLenExceeded else rest numElts)

mutual

/-- `unmarshal`, given how the content of an interface is read. -/
def unmarshalWith [DecidableEq T] (c : GenericCodec T ι) (inner : T → List T → Reader (GoValue T)) :
    GoType ι → List T → Reader (GoValue T)
  | .number kind, _ => mapReader (fun n => .number kind (kind.truncate n)) (unpackNumber kind.len)
  | .bool, _ => mapReader .bool unpackBool
  | .bytes, _ => mapReader .bytes (unpackCounted unpackFixedBytes)
  | .slice elem, typeStack =>
    mapReader .slice (unpackCounted (fun numElts =>
      unpackAll (List.replicate numElts (unpackSome (unmarshalWith c inner elem typeStack)))))
  | .byteArray count, _ => mapReader .byteArray (unpackFixedBytes count)
  | .array count elem, typeStack =>
    mapReader .array (unpackAll (List.replicate count (unmarshalWith c inner elem typeStack)))
  | .string, _ => mapReader .string unpackStr
  | .interface name, typeStack =>
    readThen (c.typer.unpackPrefix name) (fun concrete =>
      if c.sets = .interface then fun _ => .error .panicked
      else if concrete ∈ typeStack then fun _ => .error .recursiveInterfaceTypes
      else mapReader (.interface concrete) (inner concrete (concrete :: typeStack)))
  | .struct fields, typeStack =>
    mapReader .struct (unpackAll (unmarshalFields c inner fields typeStack))
  | .pointer elem, typeStack => mapReader .pointer (unmarshalWith c inner elem typeStack)
  | .map key value, typeStack =>
    mapReader .map (unpackCounted (fun numElts =>
      unpackEntries (unmarshalWith c inner key typeStack) (unmarshalWith c inner value typeStack)
        numElts none))
  | .unsupported, _ => fun _ => .error .unsupportedType

def unmarshalFields [DecidableEq T] (c : GenericCodec T ι)
    (inner : T → List T → Reader (GoValue T)) :
    List (GoType ι) → List T → List (Reader (GoValue T))
  | [], _ => []
  | field :: rest, typeStack =>
    unmarshalWith c inner field typeStack :: unmarshalFields c inner rest typeStack

end

/-- `unmarshal`, through so many interfaces. The stack of types keeps a type from occurring
inside itself, so there are never more of them than there are registered types. -/
def unmarshal [DecidableEq T] (c : GenericCodec T ι) :
    ℕ → GoType ι → List T → Reader (GoValue T)
  | 0 => unmarshalWith c (fun _ _ _ => .error .recursiveInterfaceTypes)
  | depth + 1 =>
    unmarshalWith c (fun concrete => unmarshal c depth (c.definition concrete))

/-! ## Sizes -/

/-- The size of a value and whether all values of its type have it. -/
abbrev Sized := Except CodecError (ℕ × Bool)

/-- The sum of the sizes. -/
def sumSizes : List Sized → Except CodecError ℕ
  | [] => .ok 0
  | .error e :: _ => .error e
  | .ok (size, _) :: rest =>
    match sumSizes rest with
    | .error e => .error e
    | .ok total => .ok (size + total)

/-- `size` of a slice. -/
def sizeSlice : List Sized → Sized
  | [] => .ok (4, false)
  | .error e :: _ => .error e
  | .ok (size, constSize) :: rest =>
    if size = 0 then .error .marshalZeroLength
    else if constSize = true then .ok (4 + (rest.length + 1) * size, false)
    else
      match sumSizes rest with
      | .error e => .error e
      | .ok total => .ok (4 + (size + total), false)

/-- `size` of an array. -/
def sizeArray : List Sized → Sized
  | [] => .ok (0, true)
  | .error e :: _ => .error e
  | .ok (size, constSize) :: rest =>
    if constSize = true then .ok ((rest.length + 1) * size, true)
    else
      match sumSizes rest with
      | .error e => .error e
      | .ok total => .ok (size + total, false)

/-- `size` of a struct. -/
def sizeStruct : List Sized → Sized
  | [] => .ok (0, true)
  | .error e :: _ => .error e
  | .ok (size, constSize) :: rest =>
    match sizeStruct rest with
    | .error e => .error e
    | .ok (total, allConst) => .ok (size + total, constSize && allConst)

/-- The loop of `size` over the entries of a map after the first, where neither the keys nor the
values have a constant size. -/
def sumEntries : List (Sized × Sized) → Except CodecError ℕ
  | [] => .ok 0
  | (.error e, _) :: _ => .error e
  | (.ok _, .error e) :: _ => .error e
  | (.ok (keySize, _), .ok (valueSize, _)) :: rest =>
    match sumEntries rest with
    | .error e => .error e
    | .ok total => .ok (keySize + valueSize + total)

/-- `size` of a map. -/
def sizeMap : List (Sized × Sized) → Sized
  | [] => .ok (4, false)
  | (.error e, _) :: _ => .error e
  | (.ok _, .error e) :: _ => .error e
  | (.ok (keySize, keyConstSize), .ok (valueSize, valueConstSize)) :: rest =>
    if keySize = 0 ∧ valueSize = 0 then .error .marshalZeroLength
    else if keyConstSize = true ∧ valueConstSize = true then
      .ok (4 + (rest.length + 1) * (keySize + valueSize), false)
    else if keyConstSize = true then
      match sumSizes (rest.map Prod.snd) with
      | .error e => .error e
      | .ok total => .ok (4 + (rest.length + 1) * keySize + (valueSize + total), false)
    else if valueConstSize = true then
      match sumSizes (rest.map Prod.fst) with
      | .error e => .error e
      | .ok total => .ok (4 + (keySize + total) + (rest.length + 1) * valueSize, false)
    else
      match sumEntries rest with
      | .error e => .error e
      | .ok total => .ok (4 + keySize + valueSize + total, false)

mutual

/-- `size`. The parameter is the order in which `MapRange` visits the entries of a map. -/
def size [DecidableEq T] (c : GenericCodec T ι)
    (mapRange : List (GoValue T × GoValue T) → List ℕ) : GoValue T → List T → Sized
  | .number kind _, _ => .ok (kind.len, true)
  | .bool _, _ => .ok (1, true)
  | .string text, _ => .ok (2 + text.length, false)
  | .nilPointer, _ => .error .marshalNil
  | .pointer target, typeStack => size c mapRange target typeStack
  | .nilInterface, _ => .error .marshalNil
  | .interface concrete content, typeStack =>
    if c.sets = .interface then .error .panicked
    else if concrete ∈ typeStack then .error .recursiveInterfaceTypes
    else
      match size c mapRange content (concrete :: typeStack) with
      | .error e => .error e
      | .ok (valueSize, _) => .ok (c.typer.prefixSize concrete + valueSize, false)
  | .bytes content, _ => sizeSlice (content.map (fun _ => .ok (1, true)))
  | .slice elements, typeStack => sizeSlice (sizeAll c mapRange elements typeStack)
  | .byteArray content, _ => sizeArray (content.map (fun _ => .ok (1, true)))
  | .array elements, typeStack => sizeArray (sizeAll c mapRange elements typeStack)
  | .struct fields, typeStack => sizeStruct (sizeAll c mapRange fields typeStack)
  | .map entries, typeStack =>
    sizeMap (select (mapRange entries) (sizeEntries c mapRange entries typeStack))
  | .unsupported, _ => .error .unsupportedType

def sizeAll [DecidableEq T] (c : GenericCodec T ι)
    (mapRange : List (GoValue T × GoValue T) → List ℕ) :
    List (GoValue T) → List T → List Sized
  | [], _ => []
  | value :: rest, typeStack =>
    size c mapRange value typeStack :: sizeAll c mapRange rest typeStack

def sizeEntries [DecidableEq T] (c : GenericCodec T ι)
    (mapRange : List (GoValue T × GoValue T) → List ℕ) :
    List (GoValue T × GoValue T) → List T → List (Sized × Sized)
  | [], _ => []
  | (key, value) :: rest, typeStack =>
    (size c mapRange key typeStack, size c mapRange value typeStack) ::
      sizeEntries c mapRange rest typeStack

end

/-! ## Versions -/

/-- `codec.manager`. -/
structure Manager (T ι : Type) where
  maxSize : ℕ
  codecs : RangeLoop.GoMap UInt16 (GenericCodec T ι)

namespace Manager

/-- `NewManager`. -/
def new (maxSize : ℕ) : Manager T ι := ⟨maxSize, ∅⟩

/-- `RegisterCodec`. -/
def registerCodec (version : UInt16) (codec : GenericCodec T ι) (m : Manager T ι) :
    Except CodecError (Manager T ι) :=
  match m.codecs.lookup version with
  | some _ => .error .duplicatedVersion
  | none => .ok { m with codecs := m.codecs.insert version codec }

variable [DecidableEq T]

/-- `Size`. -/
def size (m : Manager T ι) (mapRange : List (GoValue T × GoValue T) → List ℕ) (version : UInt16)
    (value : GoValue T) : Except CodecError ℕ :=
  match m.codecs.lookup version with
  | none => .error .unknownVersion
  | some c =>
    match Codec.size c mapRange value [] with
    | .error e => .error e
    | .ok (res, _) => .ok (2 + res)

/-- `Marshal`. -/
def marshal (m : Manager T ι) (orders : MapOrders) (version : UInt16) (value : GoValue T) :
    Except CodecError (List UInt8) :=
  match m.codecs.lookup version with
  | none => .error .unknownVersion
  | some c =>
    match packShort version ⟨m.maxSize, [], 0⟩ with
    | .error _ => .error .cantPackVersion
    | .ok p =>
      match Codec.marshal c orders value [] p with
      | .error e => .error e
      | .ok p => .ok p.bytes

/-- `Unmarshal` into a value of the type. -/
def unmarshal (m : Manager T ι) (dest : GoType ι) (bytes : List UInt8) :
    Except CodecError (UInt16 × GoValue T) :=
  if bytes.length > m.maxSize then .error .unmarshalTooBig
  else
    match unpackShort ⟨0, bytes, 0⟩ with
    | .error _ => .error .cantUnpackVersion
    | .ok (version, p) =>
      match m.codecs.lookup (UInt16.ofNat version) with
      | none => .error .unknownVersion
      | some c =>
        match Codec.unmarshal c c.typer.types.card dest [] p with
        | .error e => .error e
        | .ok (value, p) =>
          if p.offset ≠ bytes.length then .error .extraSpace
          else .ok (UInt16.ofNat version, value)

end Manager

end AvalancheParallel.Codec
