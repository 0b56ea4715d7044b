import AvalancheParallel.Foundation.ExchangeSort
import AvalancheParallel.Utils.SampleableSet
import AvalancheParallel.Utils.Sorting

/-!
# Sets as JSON

`SampleableSetJSON` and `SetJSON` write their elements as a JSON array in the order of the
encoded bytes, so that the text does not depend on how the set was built or on the order in
which a map is visited. The package `encoding/json` is a parameter.
-/

namespace AvalancheParallel.Utils

open AvalancheParallel.RangeLoop AvalancheParallel.Ids AvalancheParallel.SliceSort
  AvalancheParallel.ExchangeSort AvalancheParallel.Runs

/-- `json.Marshal` of one element, and `json.Unmarshal` into a slice of elements. -/
structure ElementJson (T Failure : Type) where
  marshal : T → Except Failure (List UInt8)
  unmarshal : List UInt8 → Except Failure (List T)

/-- A JSON array of encoded elements. -/
def jsonArray (encoded : List (List UInt8)) : List UInt8 :=
  91 :: (List.intercalate [44] encoded ++ [93])

/-- Elements are encoded injectively, and a JSON array of encoded elements is decoded to these
elements in order. -/
structure ElementJson.Faithful {T Failure : Type} (json : ElementJson T Failure)
    (encode : T → List UInt8) : Prop where
  marshals : ∀ e, json.marshal e = .ok (encode e)
  injective : Function.Injective encode
  decodes : ∀ elements, json.unmarshal (jsonArray (elements.map encode)) = .ok elements

/-- The text of a null value. -/
def jsonNull : List UInt8 := [110, 117, 108, 108]

section Marshal

variable {T Failure : Type} (json : ElementJson T Failure)

/-- The elements and their separators, from the element at position `i` of `count` on. -/
def writeElements (count : ℕ) : ℕ → List (List UInt8) → List UInt8
  | _, [] => []
  | i, elt :: rest =>
    elt ++ (if i ≠ count - 1 then [44] else []) ++ writeElements count (i + 1) rest

/-- The text that `MarshalJSON` builds. Writing to a `bytes.Buffer` does not fail. -/
def buildJSON (elementBytes : List (List UInt8)) : List UInt8 :=
  [91] ++ writeElements elementBytes.length 0 elementBytes ++ [93]

/-- `MarshalJSON` of the elements in the order in which they are visited. -/
def marshalElements (elements : List T) : Except Failure (List UInt8) := do
  let elementBytes ← elements.mapM json.marshal
  let sorted :=
    exchangeSort (fun first second => decide (bytesCompare first second > 0)) elementBytes
  return buildJSON sorted

end Marshal

/-- `SetJSON`, whose map may be nil. -/
structure SetJSON (T : Type) where
  elements : Option (Finset T)

namespace SetJSON

variable {T Failure : Type} [DecidableEq T]

/-- The elements in the map. -/
def keys (s : SetJSON T) : Finset T := s.elements.getD ∅

/-- `Equals`. -/
def equals (order : IterationOrder T) (s other : SetJSON T) : Bool :=
  if s.keys.card ≠ other.keys.card then false
  else (order.arrange s.keys).all (fun elt => decide (elt ∈ other.keys))

/-- `MarshalJSON`. -/
def marshalJSON (json : ElementJson T Failure) (order : IterationOrder T) (s : SetJSON T) :
    Except Failure (List UInt8) :=
  marshalElements json (order.arrange s.keys)

/-- `UnmarshalJSON`: the set after the call, and the error. -/
def unmarshalJSON (json : ElementJson T Failure) (b : List UInt8) (s : SetJSON T) :
    SetJSON T × Option Failure :=
  if b = jsonNull then (s, none)
  else
    match json.unmarshal b with
    | .error failure => (s, some failure)
    | .ok elements => (⟨some (elements.foldl (fun members elt => insert elt members) ∅)⟩, none)

end SetJSON

namespace SampleableSet

variable {T Failure : Type} [DecidableEq T]

/-- `MarshalJSON`. -/
def marshalJSON (json : ElementJson T Failure) (s : SampleableSet T) :
    Except Failure (List UInt8) :=
  marshalElements json s.list

/-- `UnmarshalJSON`: the set after the call and the error, or nothing after a panic. -/
def unmarshalJSON (json : ElementJson T Failure) (b : List UInt8) (s : SampleableSet T) :
    Option (SampleableSet T × Option Failure) :=
  if b = jsonNull then some (s, none)
  else
    match json.unmarshal b with
    | .error failure => some (s, some failure)
    | .ok elements => (s.clear.addElements elements).map (·, none)

/-- The set is reached from a constructor by calls. -/
def Built (s : SampleableSet T) : Prop :=
  ∃ (elementSize : ℕ) (origin : SetOrigin elementSize T) (calls : List (SetCall T)),
    run SetCall.step origin.make calls = some s

end SampleableSet

section Text

/-- Writing a separator after every element but the last separates the elements. -/
theorem writeElements_eq (count i : ℕ) (encoded : List (List UInt8))
    (rest : i + encoded.length = count) :
    writeElements count i encoded = List.intercalate [44] encoded := by
  induction encoded generalizing i with
  | nil => rfl
  | cons elt others inductionHypothesis =>
    rw [writeElements, inductionHypothesis (i + 1) (by simp at rest; omega)]
    cases others with
    | nil =>
      have last : i = count - 1 := by
        simp at rest
        omega
      simp [last]
    | cons next later =>
      have earlier : i ≠ count - 1 := by
        simp at rest
        omega
      simp [earlier, List.intercalate]

/-- The loop writes a JSON array of the elements. -/
theorem buildJSON_eq (encoded : List (List UInt8)) : buildJSON encoded = jsonArray encoded := by
  unfold buildJSON jsonArray
  rw [writeElements_eq encoded.length 0 encoded (Nat.zero_add _)]
  rfl

/-- An array is not the text of a null value. -/
theorem jsonArray_ne_null (encoded : List (List UInt8)) : jsonArray encoded ≠ jsonNull := by
  intro same
  have first := (List.cons.inj same).1
  exact absurd first (by decide)

end Text

section Canonical

variable {T Failure : Type} {json : ElementJson T Failure} {encode : T → List UInt8}

/-- The exchanges sort by the order of bytes. -/
theorem exchangeSort_bytes (encoded : List (List UInt8)) :
    exchangeSort (fun first second => decide (bytesCompare first second > 0)) encoded =
      exchangeSortFunction.sort (keyLess id) encoded := by
  have same : (fun first second : List UInt8 => decide (bytesCompare first second > 0)) =
      fun first second => keyLess id second first := by
    funext first second
    rw [keyLess, id_eq, id_eq, bytesCompare_swap first second]
    simp
  rw [same]
  rfl

/-- The text is the array of the encoded elements in the order of their bytes. -/
theorem marshalElements_eq (faithful : json.Faithful encode) (elements : List T) :
    marshalElements json elements =
      .ok (jsonArray (exchangeSortFunction.sort (keyLess id) (elements.map encode))) := by
  have encodes : json.marshal = fun e => pure (encode e) := by
    funext e
    exact faithful.marshals e
  unfold marshalElements
  rw [encodes, List.mapM_pure]
  change Except.ok (buildJSON _) = _
  rw [exchangeSort_bytes, buildJSON_eq]

/-- The order in which the elements are visited does not show in the text. -/
theorem marshalElements_perm (faithful : json.Faithful encode) {first second : List T}
    (rearranged : first.Perm second) :
    marshalElements json first = marshalElements json second := by
  rw [marshalElements_eq faithful, marshalElements_eq faithful,
    sort_eq_of_perm exchangeSortFunction (keyLess_order id)
      (keyLess_distinguishes id (fun _ _ _ _ same => same)) (rearranged.map encode)]

/-- The text is decoded to the elements in some order. -/
theorem marshalElements_decodes (faithful : json.Faithful encode) (elements : List T) :
    ∃ bytes decoded, marshalElements json elements = .ok bytes ∧ bytes ≠ jsonNull ∧
      json.unmarshal bytes = .ok decoded ∧ decoded.Perm elements := by
  have rearranged := exchangeSortFunction.perm (keyLess id) (elements.map encode)
  obtain ⟨decoded, image, elementsOf⟩ :=
    (congrFun (congrFun (List.eq_map_comp_perm encode) _) elements).mpr rearranged
  refine ⟨_, decoded, marshalElements_eq faithful elements, jsonArray_ne_null _, ?_, elementsOf⟩
  rw [image]
  exact faithful.decodes decoded

end Canonical

section Sets

variable {T Failure : Type} [DecidableEq T] {json : ElementJson T Failure}

/-- The text is read as the members, into any set. -/
def ReadsAs (json : ElementJson T Failure) (bytes : List UInt8) (members : Finset T) : Prop :=
  (∀ target : SampleableSet T, ∃ after, target.unmarshalJSON json bytes = some (after, none) ∧
    after.Represents members) ∧
  ∀ target : SetJSON T, ∃ after, target.unmarshalJSON json bytes = (after, none) ∧
    after.keys = members

/-- The loop of `SetJSON.UnmarshalJSON` collects the elements. -/
theorem foldl_insert_eq (elements : List T) (members : Finset T) :
    elements.foldl (fun members elt => insert elt members) members =
      members ∪ elements.toFinset := by
  induction elements generalizing members with
  | nil => simp
  | cons elt rest inductionHypothesis =>
    rw [List.foldl_cons, inductionHypothesis, List.toFinset_cons, Finset.union_insert,
      Finset.insert_union]

/-- What was there before the call is cleared. -/
theorem readsAs_of_unmarshal {bytes : List UInt8} {decoded : List T} (text : bytes ≠ jsonNull)
    (reads : json.unmarshal bytes = .ok decoded) : ReadsAs json bytes decoded.toFinset := by
  constructor
  · intro target
    obtain ⟨resized, made⟩ :=
      SampleableSet.resize_represents (SampleableSet.empty_represents (T := T))
    obtain ⟨after, added, represents⟩ :=
      SampleableSet.foldlM_add_represents decoded resized made
    rw [Finset.empty_union] at represents
    refine ⟨after, ?_, represents⟩
    have filled : target.clear.addElements decoded = some after := added
    simp only [SampleableSet.unmarshalJSON, text, if_false, reads, filled, Option.map_some]
  · intro target
    refine ⟨⟨some decoded.toFinset⟩, ?_, rfl⟩
    simp only [SetJSON.unmarshalJSON, text, if_false, reads, foldl_insert_eq, Finset.empty_union]

/-- A set reached by calls has a map inverse to its slice. -/
theorem SampleableSet.Built.represents {s : SampleableSet T} (built : s.Built) :
    ∃ members, s.Represents members := by
  obtain ⟨elementSize, origin, calls, reached⟩ := built
  rcases SetCall.run_simulates_members origin calls with ⟨_, panicked⟩ | ⟨final, same, represents⟩
  · rw [reached] at panicked
    cases panicked
  · rw [reached, Option.some.injEq] at same
    exact ⟨_, same ▸ represents⟩

/-- `Equals` compares the elements. -/
theorem SetJSON.equals_iff (order : IterationOrder T) (s other : SetJSON T) :
    s.equals order other = true ↔ s.keys = other.keys := by
  unfold equals
  split
  · rename_i different
    refine iff_of_false (by simp) ?_
    intro same
    exact different (by rw [same])
  · rename_i sameSize
    simp only [List.all_eq_true, IterationOrder.mem_arrange, decide_eq_true_eq]
    constructor
    · intro inside
      exact Finset.eq_of_subset_of_card_le inside (by omega)
    · intro same elt member
      rw [← same]
      exact member

/-- Sets with the same elements have the same text, however they were built and in whatever
order their elements are visited, and the text is read as these elements. -/
theorem set_json_canonical (json : ElementJson T Failure) (encode : T → List UInt8)
    (faithful : json.Faithful encode) :
    (∀ first second : SampleableSet T, first.Built → second.Built →
      (∀ e, e ∈ first.list ↔ e ∈ second.list) →
        first.marshalJSON json = second.marshalJSON json) ∧
    (∀ (first second : SetJSON T) (compared visited visitedSecond : IterationOrder T),
      first.equals compared second = true →
        first.marshalJSON json visited = second.marshalJSON json visitedSecond) ∧
    (∀ s : SampleableSet T, s.Built → ∃ bytes, s.marshalJSON json = .ok bytes ∧
      ReadsAs json bytes s.list.toFinset) ∧
    (∀ (s : SetJSON T) (visited : IterationOrder T), ∃ bytes,
      s.marshalJSON json visited = .ok bytes ∧ ReadsAs json bytes s.keys) := by
  have reads : ∀ elements : List T, ∃ bytes, marshalElements json elements = .ok bytes ∧
      ReadsAs json bytes elements.toFinset := by
    intro elements
    obtain ⟨bytes, decoded, written, text, read, rearranged⟩ :=
      marshalElements_decodes faithful elements
    refine ⟨bytes, written, ?_⟩
    rw [← List.toFinset_eq_of_perm _ _ rearranged]
    exact readsAs_of_unmarshal text read
  refine ⟨?_, ?_, ?_, ?_⟩
  · intro first second builtFirst builtSecond same
    obtain ⟨_, representsFirst⟩ := builtFirst.represents
    obtain ⟨_, representsSecond⟩ := builtSecond.represents
    exact marshalElements_perm faithful ((List.perm_ext_iff_of_nodup
      representsFirst.located.nodup representsSecond.located.nodup).mpr same)
  · intro first second compared visited visitedSecond equal
    have same := (SetJSON.equals_iff compared first second).mp equal
    refine marshalElements_perm faithful ((List.perm_ext_iff_of_nodup
      (visited.nodup first.keys) (visitedSecond.nodup second.keys)).mpr ?_)
    intro elt
    rw [IterationOrder.mem_arrange, IterationOrder.mem_arrange, same]
  · intro s _
    exact reads s.list
  · intro s visited
    obtain ⟨bytes, written, read⟩ := reads (visited.arrange s.keys)
    have visitedAll : (visited.arrange s.keys).toFinset = s.keys := by
      ext elt
      simp
    rw [visitedAll] at read
    exact ⟨bytes, written, read⟩

end Sets

section Bools

/-- A boolean value as JSON. -/
def encodeBool : Bool → List UInt8
  | true => [116, 114, 117, 101]
  | false => [102, 97, 108, 115, 101]

/-- Read boolean values up to the end of the array. -/
def readBools : List UInt8 → Option (List Bool)
  | 116 :: 114 :: 117 :: 101 :: 44 :: rest => (readBools rest).map (true :: ·)
  | [116, 114, 117, 101, 93] => some [true]
  | 102 :: 97 :: 108 :: 115 :: 101 :: 44 :: rest => (readBools rest).map (false :: ·)
  | [102, 97, 108, 115, 101, 93] => some [false]
  | _ => none

/-- `encoding/json` for boolean values, on arrays without blanks. -/
def boolJSON : ElementJson Bool Unit where
  marshal value := .ok (encodeBool value)
  unmarshal
    | 91 :: rest => if rest = [93] then .ok [] else (readBools rest).elim (.error ()) .ok
    | _ => .error ()

/-- Reading gives back a non-empty array. -/
theorem readBools_array (value : Bool) (rest : List Bool) :
    readBools (List.intercalate [44] ((value :: rest).map encodeBool) ++ [93]) =
      some (value :: rest) := by
  induction rest generalizing value with
  | nil => cases value <;> rfl
  | cons next others inductionHypothesis =>
    have later := inductionHypothesis next
    cases value <;> simp_all [List.intercalate, encodeBool, readBools]

/-- The assumptions on `encoding/json` hold for boolean values. -/
theorem boolJSON_faithful : boolJSON.Faithful encodeBool where
  marshals _ := rfl
  injective := by decide
  decodes elements := by
    cases elements with
    | nil => rfl
    | cons value rest =>
      have read := readBools_array value rest
      change (if List.intercalate [44] ((value :: rest).map encodeBool) ++ [93] = [93] then
        Except.ok [] else _) = _
      rw [if_neg, read]
      · rfl
      · intro empty
        rw [empty] at read
        cases read

/-- Two sets with both boolean values, in either order, are written as `[false,true]`. -/
theorem bools_written_alike :
    SampleableSet.marshalJSON boolJSON
        ⟨some ((Finmap.insert true 0 ∅).insert false 1), some [true, false]⟩ =
      SampleableSet.marshalJSON boolJSON
        ⟨some ((Finmap.insert false 0 ∅).insert true 1), some [false, true]⟩ ∧
      SampleableSet.marshalJSON boolJSON
        ⟨some ((Finmap.insert false 0 ∅).insert true 1), some [false, true]⟩ =
          .ok [91, 102, 97, 108, 115, 101, 44, 116, 114, 117, 101, 93] := by
  refine ⟨(set_json_canonical boolJSON encodeBool boolJSON_faithful).1 _ _
    ⟨1, .zero, [.add [true, false]], rfl⟩ ⟨1, .zero, [.add [false], .add [true]], rfl⟩ ?_,
    by decide⟩
  intro value
  cases value <;> decide

end Bools

end AvalancheParallel.Utils
