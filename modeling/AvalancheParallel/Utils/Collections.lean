import AvalancheParallel.Foundation.RangeLoop

/-!
# Bi-directional maps, and sets that may be nil

`bimap.BiMap` keeps a map and its inverse. The pair carries the proof that the two are
inverse to each other, so every operation has to re-establish it: deleting a key deletes
the value it is mapped to, and a new pair drives out the entries of its key and of its value.

`set.Set` is an interface in `set.go`, whose nil value has no methods, and a map in
`backup/set.go.bak`, whose nil value is an empty set. Code that leaves sets nil and calls
their methods, or ranges over them, was written for the map. The models of such code take the
reading as a parameter.
-/

namespace AvalancheParallel.Utils

open AvalancheParallel.RangeLoop

/-- How `set.Set` is read. -/
inductive SetReading where
  /-- The interface of `set.go`: calling a method of a nil set panics. -/
  | interface
  /-- The map of `backup/set.go.bak`: a nil set is empty. -/
  | map
  deriving DecidableEq, Repr

/-- The elements that a method of a set works on; there are none when the call panics. -/
def SetReading.elements {T : Type*} (reading : SetReading) : Option (Finset T) → Option (Finset T)
  | some elements => some elements
  | none =>
    match reading with
    | .interface => none
    | .map => some ∅

/-- There are two readings. -/
theorem SetReading.eq_interface_of_ne_map {reading : SetReading} (other : reading ≠ .map) :
    reading = .interface := by
  cases reading with
  | interface => rfl
  | map => exact absurd rfl other

/-! ## Variables of the type of sets -/

/-- A variable of type `set.Set`; its value is `none` as long as it is nil. -/
structure SetVariable (T : Type*) where
  reading : SetReading
  value : Option (Finset T)

namespace SetVariable

section

variable {T : Type*}

/-- A variable that no set was assigned to. -/
def nil (reading : SetReading) : SetVariable T := ⟨reading, none⟩

/-- The methods of the variable can be called. -/
def callable (s : SetVariable T) : Bool := (s.reading.elements s.value).isSome

/-- The elements of the set; nil has none. -/
def elements (s : SetVariable T) : Finset T := s.value.getD ∅

/-- `Len`; the result `none` is a panic. -/
def len (s : SetVariable T) : Option ℕ := if s.callable = true then some s.elements.card else none

variable [DecidableEq T]

/-- `Add`. -/
def add (s : SetVariable T) (element : T) : Option (SetVariable T) :=
  if s.callable = true then some { s with value := some (insert element s.elements) } else none

/-- `Union`. -/
def union (s : SetVariable T) (others : Finset T) : Option (SetVariable T) :=
  if s.callable = true then some { s with value := some (s.elements ∪ others) } else none

/-- `Remove`. A nil map stays nil. -/
def remove (s : SetVariable T) (element : T) : Option (SetVariable T) :=
  if s.callable = true then
    some { s with value := s.value.map (fun elements => elements.erase element) }
  else none

end

variable {T : Type*}

/-- Only a nil interface has no methods. -/
theorem callable_eq_false_iff (s : SetVariable T) :
    s.callable = false ↔ s.reading = .interface ∧ s.value = none := by
  obtain ⟨reading, value⟩ := s
  cases value with
  | some elements => simp [callable, SetReading.elements]
  | none => cases reading <;> simp [callable, SetReading.elements]

/-- A nil map has methods. -/
theorem callable_of_map {s : SetVariable T} (reading : s.reading = .map) : s.callable = true := by
  rw [← Bool.not_eq_false, callable_eq_false_iff, reading]
  rintro ⟨impossible, _⟩
  cases impossible

/-- No set was ever assigned to the variable: it is still nil unless it is a map. -/
def Unassigned (sets : SetReading) (s : SetVariable T) : Prop :=
  s.reading = sets ∧ (sets = .interface → s.value = none)

/-- Its methods can be called exactly if it is a map. -/
theorem Unassigned.callable_iff {sets : SetReading} {s : SetVariable T}
    (unassigned : s.Unassigned sets) : s.callable = true ↔ sets = .map := by
  constructor
  · intro callable
    by_contra other
    have interface := SetReading.eq_interface_of_ne_map other
    rw [← Bool.not_eq_false, callable_eq_false_iff] at callable
    exact callable ⟨unassigned.1.trans interface, unassigned.2 interface⟩
  · intro map
    exact callable_of_map (unassigned.1.trans map)

/-- After a call of a method that returned. -/
theorem Unassigned.after_call {sets : SetReading} {s after : SetVariable T}
    (unassigned : s.Unassigned sets) (callable : s.callable = true)
    (reading : after.reading = s.reading) : after.Unassigned sets := by
  refine ⟨reading.trans unassigned.1, ?_⟩
  rintro rfl
  exact absurd (unassigned.callable_iff.mp callable) (by simp)

/-- `Len` returns only if it can be called. -/
theorem callable_of_len {s : SetVariable T} {count : ℕ} (counted : s.len = some count) :
    s.callable = true := by
  unfold len at counted
  split at counted
  · rename_i callable
    exact callable
  · cases counted

/-- A set whose `Len` returns zero is empty. -/
theorem elements_of_len_eq_zero {s : SetVariable T} (counted : s.len = some 0) :
    s.elements = ∅ := by
  unfold len at counted
  split at counted
  · exact Finset.card_eq_zero.mp (Option.some.inj counted)
  · cases counted

/-- What `Add` returns. -/
theorem add_eq_some [DecidableEq T] {s after : SetVariable T} {element : T}
    (added : s.add element = some after) : s.callable = true ∧ after.reading = s.reading := by
  unfold add at added
  split at added
  · rename_i callable
    cases added
    exact ⟨callable, rfl⟩
  · cases added

/-- What `Union` returns. -/
theorem union_eq_some [DecidableEq T] {s after : SetVariable T} {others : Finset T}
    (joined : s.union others = some after) :
    s.callable = true ∧ after.reading = s.reading ∧ after.elements = s.elements ∪ others := by
  unfold union at joined
  split at joined
  · rename_i callable
    cases joined
    exact ⟨callable, rfl, rfl⟩
  · cases joined

/-- Removing an element leaves the others. -/
theorem elements_map_erase [DecidableEq T] (s : SetVariable T) (element : T) :
    (⟨s.reading, s.value.map (fun elements => elements.erase element)⟩ :
      SetVariable T).elements = s.elements.erase element := by
  obtain ⟨reading, value⟩ := s
  cases value with
  | some elements => rfl
  | none => exact (Finset.erase_empty element).symm

/-- `Remove` returns if the methods can be called. -/
theorem exists_remove [DecidableEq T] {s : SetVariable T} (callable : s.callable = true)
    (element : T) : ∃ after, s.remove element = some after := ⟨_, if_pos callable⟩

/-- What `Remove` leaves. -/
theorem remove_eq_some [DecidableEq T] {s after : SetVariable T} {element : T}
    (removed : s.remove element = some after) :
    s.callable = true ∧ after.reading = s.reading ∧ after.callable = true ∧
      after.elements = s.elements.erase element := by
  unfold remove at removed
  split at removed
  · rename_i callable
    cases removed
    refine ⟨callable, rfl, ?_, elements_map_erase s element⟩
    rw [← Bool.not_eq_false, callable_eq_false_iff] at callable ⊢
    simpa using callable
  · cases removed

end SetVariable

variable {K V : Type*} [DecidableEq K] [DecidableEq V]

/-- `bimap.BiMap`. -/
structure BiMap (K V : Type*) [DecidableEq K] [DecidableEq V] where
  keyToValue : GoMap K V
  valueToKey : GoMap V K
  inverse : ∀ key value, keyToValue.lookup key = some value ↔ valueToKey.lookup value = some key

namespace BiMap

/-- `bimap.New`. -/
def new : BiMap K V := ⟨∅, ∅, by simp⟩

/-- `BiMap.GetKey`. -/
def getKey (m : BiMap K V) (value : V) : Option K := m.valueToKey.lookup value

/-- `BiMap.GetValue`. -/
def getValue (m : BiMap K V) (key : K) : Option V := m.keyToValue.lookup key

/-- `BiMap.HasKey`. -/
def hasKey (m : BiMap K V) (key : K) : Bool := (m.getValue key).isSome

/-- `BiMap.HasValue`. -/
def hasValue (m : BiMap K V) (value : V) : Bool := (m.getKey value).isSome

/-- A pair leaves both maps together. -/
theorem inverse_erase (m : BiMap K V) {key : K} {value : V} (paired : m.getValue key = some value)
    (otherKey : K) (otherValue : V) :
    (m.keyToValue.erase key).lookup otherKey = some otherValue ↔
      (m.valueToKey.erase value).lookup otherValue = some otherKey := by
  have alsoPaired := (m.inverse key value).mp paired
  constructor
  · intro found
    obtain ⟨different, before⟩ := lookup_erase_some found
    have alsoBefore := (m.inverse _ _).mp before
    rw [Finmap.lookup_erase_ne]
    · exact alsoBefore
    · rintro rfl
      rw [alsoPaired, Option.some.injEq] at alsoBefore
      exact different alsoBefore.symm
  · intro found
    obtain ⟨different, before⟩ := lookup_erase_some found
    have alsoBefore := (m.inverse _ _).mpr before
    rw [Finmap.lookup_erase_ne]
    · exact alsoBefore
    · rintro rfl
      change m.keyToValue.lookup otherKey = some value at paired
      rw [paired, Option.some.injEq] at alsoBefore
      exact different alsoBefore.symm

/-- The map without a pair of it. -/
def withoutPair (m : BiMap K V) (key : K) (value : V) (paired : m.getValue key = some value) :
    BiMap K V :=
  ⟨m.keyToValue.erase key, m.valueToKey.erase value, m.inverse_erase paired⟩

/-- `BiMap.DeleteKey`, with the value the key was mapped to. -/
def deleteKey (m : BiMap K V) (key : K) : BiMap K V × Option V :=
  match paired : m.getValue key with
  | none => (m, none)
  | some value => (m.withoutPair key value paired, some value)

/-- `BiMap.DeleteValue`, with the key that was mapped to the value. -/
def deleteValue (m : BiMap K V) (value : V) : BiMap K V × Option K :=
  match paired : m.getKey value with
  | none => (m, none)
  | some key => (m.withoutPair key value ((m.inverse key value).mpr paired), some key)

/-- A lookup after a key is deleted. -/
theorem getValue_deleteKey (m : BiMap K V) (key other : K) :
    (m.deleteKey key).1.getValue other = if other = key then none else m.getValue other := by
  unfold deleteKey
  split
  · rename_i absent
    split
    · rename_i same
      rw [same, absent]
    · rfl
  · split
    · rename_i same
      rw [same]
      exact Finmap.lookup_erase _ _
    · rename_i different
      exact Finmap.lookup_erase_ne different

/-- `DeleteKey` returns the value it removes. -/
@[simp] theorem deleteKey_snd (m : BiMap K V) (key : K) :
    (m.deleteKey key).2 = m.getValue key := by
  unfold deleteKey
  split
  · rename_i absent
    exact absent.symm
  · rename_i value paired
    exact paired.symm

/-- A lookup after a value is deleted. -/
theorem getValue_deleteValue (m : BiMap K V) (value : V) (other : K) :
    (m.deleteValue value).1.getValue other =
      if m.getValue other = some value then none else m.getValue other := by
  unfold deleteValue
  split
  · rename_i absent
    rw [if_neg]
    intro paired
    have found := (m.inverse other value).mp paired
    change m.getKey value = some other at found
    rw [absent] at found
    cases found
  · rename_i key paired
    have alsoPaired := (m.inverse key value).mpr paired
    by_cases same : other = key
    · rw [same]
      change (m.keyToValue.erase key).lookup key = _
      rw [Finmap.lookup_erase]
      exact (if_pos alsoPaired).symm
    · change (m.keyToValue.erase key).lookup other = _
      rw [Finmap.lookup_erase_ne same, if_neg]
      · rfl
      · intro found
        have again := (m.inverse other value).mp found
        change m.getKey value = some other at again
        rw [paired, Option.some.injEq] at again
        exact same again.symm

/-- Values have one key. -/
theorem getValue_injective (m : BiMap K V) {first second : K} {value : V}
    (one : m.getValue first = some value) (other : m.getValue second = some value) :
    first = second := by
  have firstKey := (m.inverse first value).mp one
  rw [(m.inverse second value).mp other, Option.some.injEq] at firstKey
  exact firstKey.symm

/-- `HasValue` is true of the values of the keys. -/
theorem hasValue_iff (m : BiMap K V) (value : V) :
    m.hasValue value = true ↔ ∃ key, m.getValue key = some value := by
  unfold hasValue
  rw [Option.isSome_iff_exists]
  exact exists_congr (fun key => (m.inverse key value).symm)

/-- A new pair joins both maps together. -/
theorem inverse_insert (m : BiMap K V) {key : K} {value : V} (newKey : m.getValue key = none)
    (newValue : m.hasValue value = false) (otherKey : K) (otherValue : V) :
    (m.keyToValue.insert key value).lookup otherKey = some otherValue ↔
      (m.valueToKey.insert value key).lookup otherValue = some otherKey := by
  have noValue : m.valueToKey.lookup value = none := by simpa [hasValue, getKey] using newValue
  change m.keyToValue.lookup key = none at newKey
  by_cases sameKey : otherKey = key
  · by_cases sameValue : otherValue = value
    · rw [sameKey, sameValue, Finmap.lookup_insert, Finmap.lookup_insert]
      simp
    · rw [sameKey, Finmap.lookup_insert, Finmap.lookup_insert_of_ne _ sameValue,
        ← m.inverse, newKey]
      simp [Ne.symm sameValue]
  · by_cases sameValue : otherValue = value
    · rw [sameValue, Finmap.lookup_insert, Finmap.lookup_insert_of_ne _ sameKey, m.inverse,
        noValue]
      simp [Ne.symm sameKey]
    · rw [Finmap.lookup_insert_of_ne _ sameKey, Finmap.lookup_insert_of_ne _ sameValue]
      exact m.inverse otherKey otherValue

/-- What is left of a map when the entries of a key and of a value are driven out. -/
def cleared (m : BiMap K V) (key : K) (value : V) : BiMap K V :=
  ((m.deleteKey key).1.deleteValue value).1

/-- A lookup after the key and the value were taken out of their pairs. -/
theorem getValue_cleared (m : BiMap K V) (key : K) (value : V) (other : K) :
    (m.cleared key value).getValue other =
      if other = key ∨ m.getValue other = some value then none else m.getValue other := by
  unfold cleared
  rw [getValue_deleteValue, getValue_deleteKey]
  by_cases same : other = key
  · simp [same]
  · simp [same]

/-- The key has no value any more. -/
theorem getValue_cleared_key (m : BiMap K V) (key : K) (value : V) :
    (m.cleared key value).getValue key = none := by
  rw [getValue_cleared, if_pos (Or.inl rfl)]

/-- The value has no key any more. -/
theorem hasValue_cleared (m : BiMap K V) (key : K) (value : V) :
    (m.cleared key value).hasValue value = false := by
  rw [Bool.eq_false_iff, ne_eq, hasValue_iff]
  rintro ⟨other, found⟩
  rw [getValue_cleared] at found
  split at found
  · cases found
  · rename_i different
    exact different (Or.inr found)

/-- `BiMap.Put`. -/
def put (m : BiMap K V) (key : K) (value : V) : BiMap K V :=
  ⟨(m.cleared key value).keyToValue.insert key value,
    (m.cleared key value).valueToKey.insert value key,
    (m.cleared key value).inverse_insert (m.getValue_cleared_key key value)
      (m.hasValue_cleared key value)⟩

/-- A new pair replaces the entries of its key and of its value. -/
theorem getValue_put (m : BiMap K V) (key : K) (value : V) (other : K) :
    (m.put key value).getValue other =
      if other = key then some value
      else if m.getValue other = some value then none else m.getValue other := by
  change ((m.cleared key value).keyToValue.insert key value).lookup other = _
  by_cases same : other = key
  · rw [same, Finmap.lookup_insert, if_pos rfl]
  · rw [Finmap.lookup_insert_of_ne _ same, if_neg same]
    change (m.cleared key value).getValue other = _
    rw [getValue_cleared]
    simp [same]

/-- The new map has no pairs. -/
@[simp] theorem getValue_new (key : K) : (new : BiMap K V).getValue key = none := by
  simp [new, getValue]

end BiMap

end AvalancheParallel.Utils
