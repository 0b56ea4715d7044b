import AvalancheParallel.Foundation.IndexedList
import AvalancheParallel.Foundation.Runs

/-!
# Sets that can be sampled

`SampleableSet` of `utils/set/sampleable_set_fixed.go` keeps its elements in a slice, to
draw from, and a map from each element to its position in the slice. Both are nil
in the zero value. Reading a nil map finds nothing and writing to it panics, so `Add` and
`Union` make the map when the slice is still nil. An operation without a result below
is one that panics. A constructor panics when `make` cannot give its slice the capacity; other
than that the capacities of maps and slices are left out. A set given as an argument does not
share storage with the receiver.

Every sequence of operations from every constructor that returns runs without a panic, keeps the
map inverse to the slice, and computes the set that the same operations compute on
finite sets.
-/

namespace AvalancheParallel.Utils

open AvalancheParallel.RangeLoop AvalancheParallel.IndexedList AvalancheParallel.Runs

variable {T : Type} [DecidableEq T]

/-- `SampleableSet`. -/
structure SampleableSet (T : Type) where
  indices : Option (GoMap T ℕ)
  elements : Option (List T)

namespace SampleableSet

/-- The zero value of the type. -/
def zero : SampleableSet T := ⟨none, none⟩

/-- The largest number of bytes that `make` allocates for a slice. -/
def maxAlloc : ℕ := 2 ^ 48

/-- `NewSampleableSet`, for elements of so many bytes. A slice whose capacity is out of range makes
`make` panic; a large hint for the map does not. -/
def newSampleableSet (elementSize : ℕ) (size : ℤ) : Option (SampleableSet T) :=
  if size < 0 then some zero
  else if (maxAlloc : ℤ) < size * elementSize then none
  else some ⟨some ∅, some []⟩

/-- `List`. -/
def list (s : SampleableSet T) : List T := s.elements.getD []

/-- The entry of the map for an element. -/
def index (s : SampleableSet T) (e : T) : Option ℕ := (s.indices.getD ∅).lookup e

/-- `Contains`. -/
def contains (s : SampleableSet T) (e : T) : Bool := (s.index e).isSome

/-- `resize`. -/
def resize (s : SampleableSet T) : SampleableSet T :=
  if s.elements.isNone then { s with indices := some ∅ } else s

/-- `add`. -/
def add (s : SampleableSet T) (e : T) : Option (SampleableSet T) :=
  if (s.index e).isSome then some s
  else
    match s.indices with
    -- the assignment to the nil map
    | none => none
    | some indices => some ⟨some (indices.insert e s.list.length), some (s.list ++ [e])⟩

/-- `remove`. The zero that the source writes to the last position is cut off at once. -/
def remove (s : SampleableSet T) (e : T) : Option (SampleableSet T) :=
  match s.index e with
  | none => some s
  | some indexToRemove =>
    match s.list.getLast? with
    -- position -1 of the empty slice
    | none => none
    | some lastElement =>
      if indexToRemove = s.list.length - 1 then
        some ⟨s.indices.map (fun indices => indices.erase e), some s.list.dropLast⟩
      else if indexToRemove < s.list.length then
        some ⟨s.indices.map (fun indices => (indices.insert lastElement indexToRemove).erase e),
          some (s.list.set indexToRemove lastElement).dropLast⟩
      else none

/-- `Add`. -/
def addElements (s : SampleableSet T) (elements : List T) : Option (SampleableSet T) :=
  elements.foldlM add s.resize

/-- `Remove`. -/
def removeElements (s : SampleableSet T) (elements : List T) : Option (SampleableSet T) :=
  elements.foldlM remove s

/-- `Union`. -/
def union (s set : SampleableSet T) : Option (SampleableSet T) := set.list.foldlM add s.resize

/-- `Difference`. -/
def difference (s set : SampleableSet T) : Option (SampleableSet T) := set.list.foldlM remove s

/-- `Clear`. -/
def clear (_ : SampleableSet T) : SampleableSet T := ⟨some ∅, some []⟩

/-- `OfSampleable`. -/
def ofSampleable (elementSize : ℕ) (elts : List T) : Option (SampleableSet T) :=
  (newSampleableSet elementSize elts.length).bind (fun s => s.addElements elts)

/-- The map is inverse to the slice, the slice has the given elements, and the map is nil
only together with the slice. -/
structure Represents (s : SampleableSet T) (members : Finset T) : Prop where
  allocated : s.indices = none → s.elements = none
  located : Located (s.indices.getD ∅) s.list
  members : ∀ e, e ∈ s.list ↔ e ∈ members

variable {s : SampleableSet T} {members : Finset T}

/-- The map has the elements as its keys. -/
theorem Represents.contains_iff (represents : s.Represents members) (e : T) :
    s.contains e = true ↔ e ∈ members := by
  rw [← represents.members, represents.located.mem_iff]
  rfl

/-- A set with an empty map and an empty slice represents the empty set. -/
theorem empty_represents : Represents (⟨some ∅, some []⟩ : SampleableSet T) ∅ where
  allocated impossible := nomatch impossible
  located := located_empty
  members e := by simp [list]

/-- The zero value represents the empty set. -/
theorem zero_represents : (zero : SampleableSet T).Represents ∅ where
  allocated _ := rfl
  located := located_empty
  members e := by simp [list, zero]

/-- `NewSampleableSet` panics or makes an empty set. -/
theorem new_represents (elementSize : ℕ) (size : ℤ) :
    (newSampleableSet elementSize size : Option (SampleableSet T)) = none ∧ 0 ≤ size ∧
        (maxAlloc : ℤ) < size * elementSize ∨
      ∃ s : SampleableSet T, newSampleableSet elementSize size = some s ∧ s.Represents ∅ := by
  rw [newSampleableSet]
  split
  · exact Or.inr ⟨_, rfl, zero_represents⟩
  · rename_i nonnegative
    split
    · rename_i outOfRange
      exact Or.inl ⟨rfl, Int.not_lt.mp nonnegative, outOfRange⟩
    · exact Or.inr ⟨_, rfl, empty_represents⟩

/-- Making the map of a set without a slice loses nothing. -/
theorem resize_represents (represents : s.Represents members) :
    s.resize.Represents members ∧ s.resize.indices.isSome := by
  unfold resize
  split
  · rename_i missing
    have none := Option.isNone_iff_eq_none.mp missing
    have empty : s.list = [] := by rw [list, none, Option.getD_none]
    refine ⟨⟨fun _ => none, ?_, represents.members⟩, rfl⟩
    change Located ∅ s.list
    rw [empty]
    exact located_empty
  · rename_i stored
    refine ⟨represents, ?_⟩
    by_contra missing
    have none := represents.allocated (by simpa using missing)
    exact stored (Option.isNone_iff_eq_none.mpr none)

/-- Adding an element to a set that has its map. -/
theorem add_represents (represents : s.Represents members) (made : s.indices.isSome) (e : T) :
    ∃ after, s.add e = some after ∧ after.Represents (insert e members) ∧
      after.indices.isSome := by
  obtain ⟨indices, found⟩ := Option.isSome_iff_exists.mp made
  unfold add
  split
  · rename_i present
    have inside : e ∈ members := (represents.contains_iff e).mp present
    rw [Finset.insert_eq_of_mem inside]
    exact ⟨s, rfl, represents, made⟩
  · rename_i absent
    rw [found]
    have located := represents.located
    rw [found, Option.getD_some] at located
    have missing : indices.lookup e = none := by
      rw [index, found, Option.getD_some] at absent
      simpa using absent
    refine ⟨_, rfl, ⟨?_, located.push missing, ?_⟩, rfl⟩
    · intro impossible
      cases impossible
    · intro other
      change other ∈ s.list ++ [e] ↔ _
      rw [List.mem_append, represents.members, List.mem_singleton, Finset.mem_insert]
      exact Or.comm

/-- Adding elements one by one. -/
theorem foldlM_add_represents (elements : List T) (represents : s.Represents members)
    (made : s.indices.isSome) :
    ∃ after, elements.foldlM add s = some after ∧
      after.Represents (members ∪ elements.toFinset) := by
  induction elements generalizing s members with
  | nil => exact ⟨s, rfl, by simpa using represents⟩
  | cons e rest inductionHypothesis =>
    obtain ⟨next, added, kept, stillMade⟩ := add_represents represents made e
    obtain ⟨after, reached, final⟩ := inductionHypothesis kept stillMade
    refine ⟨after, ?_, ?_⟩
    · rw [List.foldlM_cons, added]
      exact reached
    · rw [List.toFinset_cons, Finset.union_insert, ← Finset.insert_union]
      exact final

/-- The last element is cut off. -/
theorem remove_last {front : List T} {e : T} (split : s.list = front ++ [e])
    (here : s.index e = some front.length) :
    s.remove e = some ⟨s.indices.map (fun indices => indices.erase e), some front⟩ := by
  simp [remove, here, split]

/-- Another element is replaced by the last one. -/
theorem remove_inner {front : List T} {last e : T} {i : ℕ} (split : s.list = front ++ [last])
    (here : s.index e = some i) (within : i < front.length) :
    s.remove e = some ⟨s.indices.map (fun indices => (indices.insert last i).erase e),
      some (front.set i last)⟩ := by
  have different : i ≠ front.length := by omega
  have inside : i < front.length + 1 := by omega
  simp [remove, here, split, different, inside, List.set_append_left _ _ within]

/-- Removing an element keeps the map inverse to the slice. -/
theorem remove_represents (represents : s.Represents members) (e : T) :
    ∃ after, s.remove e = some after ∧ after.Represents (members.erase e) := by
  cases position : s.index e with
  | none =>
    have outside : e ∉ members := by
      rw [← represents.contains_iff, contains, position]
      simp
    rw [Finset.erase_eq_of_notMem outside]
    exact ⟨s, by simp only [remove, position], represents⟩
  | some i =>
    obtain ⟨indices, found⟩ : ∃ indices, s.indices = some indices := by
      cases made : s.indices with
      | none => simp [index, made] at position
      | some indices => exact ⟨indices, rfl⟩
    have located := represents.located
    rw [found, Option.getD_some] at located
    have here : s.list[i]? = some e := by
      rw [← located e i, ← position, index, found, Option.getD_some]
    obtain ⟨front, last, split⟩ : ∃ front last, s.list = front ++ [last] := by
      cases reversed : s.list using List.reverseRecOn with
      | nil => simp [reversed] at here
      | append_singleton front last _ => exact ⟨front, last, rfl⟩
    rw [split] at located here
    have elements := represents.members
    rw [split] at elements
    rcases (getElem?_concat_iff front last e i).mp here with inner | ⟨rfl, rfl⟩
    · obtain ⟨within, _⟩ := List.getElem?_eq_some_iff.mp inner
      have moved := located.moveLast inner
      refine ⟨_, remove_inner split position within, ⟨by simp [found], ?_, ?_⟩⟩
      · rw [found]
        exact moved
      · intro other
        change other ∈ front.set i last ↔ _
        rw [moved.mem_iff, Finset.mem_erase, ← elements, located.mem_iff]
        by_cases removed : other = e
        · subst removed
          simp [Finmap.lookup_erase]
        · rw [Finmap.lookup_erase_ne removed]
          by_cases isLast : other = last
          · subst isLast
            have kept := (located.mem_iff other).mp (by simp)
            simp [Finmap.lookup_insert, kept, removed]
          · simp [Finmap.lookup_insert_of_ne _ isLast, removed]
    · have cut := located.pop
      refine ⟨_, remove_last split position, ⟨by simp [found], ?_, ?_⟩⟩
      · rw [found]
        exact cut
      · intro other
        change other ∈ front ↔ _
        rw [cut.mem_iff, Finset.mem_erase, ← elements, located.mem_iff]
        by_cases removed : other = last
        · subst removed
          simp [Finmap.lookup_erase]
        · simp [Finmap.lookup_erase_ne removed, removed]

/-- Removing elements one by one. -/
theorem foldlM_remove_represents (elements : List T) (represents : s.Represents members) :
    ∃ after, elements.foldlM remove s = some after ∧
      after.Represents (members \ elements.toFinset) := by
  induction elements generalizing s members with
  | nil => exact ⟨s, rfl, by simpa using represents⟩
  | cons e rest inductionHypothesis =>
    obtain ⟨next, removed, kept⟩ := remove_represents represents e
    obtain ⟨after, reached, final⟩ := inductionHypothesis kept
    refine ⟨after, ?_, ?_⟩
    · rw [List.foldlM_cons, removed]
      exact reached
    · rw [List.toFinset_cons, Finset.sdiff_insert, ← Finset.erase_sdiff_comm]
      exact final

end SampleableSet

/-- The constructors, for elements of so many bytes. The slice given to `OfSampleable` was
allocated, so that its length is in range. -/
inductive SetOrigin (elementSize : ℕ) (T : Type) where
  | zero
  | newSampleableSet (size : ℤ)
  | ofSampleable (elts : List T)
      (allocated : elts.length * elementSize ≤ SampleableSet.maxAlloc)

/-- The operations that change a set. -/
inductive SetCall (T : Type) where
  | add (elements : List T)
  | union (set : SampleableSet T)
  | difference (set : SampleableSet T)
  | remove (elements : List T)
  | clear

namespace SetOrigin

variable {elementSize : ℕ}

/-- The set that a constructor makes. -/
def make : SetOrigin elementSize T → Option (SampleableSet T)
  | zero => some SampleableSet.zero
  | newSampleableSet size => SampleableSet.newSampleableSet elementSize size
  | ofSampleable elts _ => SampleableSet.ofSampleable elementSize elts

/-- The finite set that a constructor stands for. -/
def members : SetOrigin elementSize T → Finset T
  | zero => ∅
  | newSampleableSet _ => ∅
  | ofSampleable elts _ => elts.toFinset

/-- The capacity is out of the range of `make`. -/
def OutOfRange (origin : SetOrigin elementSize T) : Prop :=
  ∃ size, origin = newSampleableSet size ∧ 0 ≤ size ∧
    (SampleableSet.maxAlloc : ℤ) < size * elementSize

end SetOrigin

namespace SetCall

/-- A call on the set, which is gone after a panic. -/
def step (s : Option (SampleableSet T)) (call : SetCall T) : Option (SampleableSet T) :=
  s.bind (fun s =>
    match call with
    | add elements => s.addElements elements
    | union set => s.union set
    | difference set => s.difference set
    | remove elements => s.removeElements elements
    | clear => some s.clear)

/-- The same operation on finite sets. -/
def apply (members : Finset T) : SetCall T → Finset T
  | add elements => members ∪ elements.toFinset
  | union set => members ∪ set.list.toFinset
  | difference set => members \ set.list.toFinset
  | remove elements => members \ elements.toFinset
  | clear => ∅

/-- The set did not panic and represents the members. -/
def Simulates (s : Option (SampleableSet T)) (members : Finset T) : Prop :=
  ∃ reached, s = some reached ∧ reached.Represents members

/-- One call. -/
theorem step_simulates (s : Option (SampleableSet T)) (members : Finset T) (call : SetCall T)
    (simulates : Simulates s members) : Simulates (step s call) (apply members call) := by
  obtain ⟨s, rfl, represents⟩ := simulates
  obtain ⟨resized, made⟩ := SampleableSet.resize_represents represents
  cases call with
  | add elements => exact SampleableSet.foldlM_add_represents elements resized made
  | union set => exact SampleableSet.foldlM_add_represents set.list resized made
  | difference set => exact SampleableSet.foldlM_remove_represents set.list represents
  | remove elements => exact SampleableSet.foldlM_remove_represents elements represents
  | clear => exact ⟨_, rfl, SampleableSet.empty_represents⟩

variable {elementSize : ℕ}

/-- Every constructor panics for its capacity or makes a set. -/
theorem make_simulates (origin : SetOrigin elementSize T) :
    origin.OutOfRange ∧ origin.make = none ∨ Simulates origin.make origin.members := by
  cases origin with
  | zero => exact Or.inr ⟨_, rfl, SampleableSet.zero_represents⟩
  | newSampleableSet size =>
    rcases SampleableSet.new_represents (T := T) elementSize size with
      ⟨panicked, nonnegative, outOfRange⟩ | made
    · exact Or.inl ⟨⟨size, rfl, nonnegative, outOfRange⟩, panicked⟩
    · exact Or.inr made
  | ofSampleable elts allocated =>
    right
    rcases SampleableSet.new_represents (T := T) elementSize elts.length with
      ⟨_, _, outOfRange⟩ | ⟨empty, new, represents⟩
    · exact absurd outOfRange (Int.not_lt.mpr (by exact_mod_cast allocated))
    · obtain ⟨resized, made⟩ := SampleableSet.resize_represents represents
      obtain ⟨after, reached, represents⟩ :=
        SampleableSet.foldlM_add_represents elts resized made
      rw [Finset.empty_union] at represents
      refine ⟨after, ?_, represents⟩
      rw [SetOrigin.make, SampleableSet.ofSampleable, new]
      exact reached

/-- No call returns after a panic. -/
theorem run_none (calls : List (SetCall T)) : run step none calls = none := by
  induction calls with
  | nil => rfl
  | cons call rest inductionHypothesis => exact inductionHypothesis

/-- Every sequence of calls computes the set that it computes on finite sets, unless the
constructor panicked for its capacity. -/
theorem run_simulates_members (origin : SetOrigin elementSize T) (calls : List (SetCall T)) :
    origin.OutOfRange ∧ run step origin.make calls = none ∨
      Simulates (run step origin.make calls) (run apply origin.members calls) := by
  rcases make_simulates origin with ⟨outOfRange, panicked⟩ | simulates
  · rw [panicked]
    exact Or.inl ⟨outOfRange, run_none calls⟩
  · exact Or.inr (run_simulates step apply Simulates step_simulates origin.make origin.members
      calls simulates)

/-- After every sequence of calls the map and the slice are mutually inverse, the slice has no
duplicates, and its elements are those that the calls compute on finite sets. There is no set only
when `NewSampleableSet` was given a capacity that `make` refuses. -/
theorem run_mutually_inverse (origin : SetOrigin elementSize T) (calls : List (SetCall T)) :
    origin.OutOfRange ∧ run step origin.make calls = none ∨
    ∃ s, run step origin.make calls = some s ∧
      (∀ i e, s.list[i]? = some e → s.index e = some i) ∧
      (∀ e i, s.index e = some i → s.list[i]? = some e) ∧
      s.list.Nodup ∧
      s.list.toFinset = run apply origin.members calls := by
  rcases run_simulates_members origin calls with panicked | ⟨s, reached, represents⟩
  · exact Or.inl panicked
  · right
    refine ⟨s, reached, ?_, ?_, represents.located.nodup, ?_⟩
    · exact fun i e => (represents.located e i).mpr
    · exact fun e i => (represents.located e i).mp
    · ext e
      rw [List.mem_toFinset, represents.members]

end SetCall

end AvalancheParallel.Utils
