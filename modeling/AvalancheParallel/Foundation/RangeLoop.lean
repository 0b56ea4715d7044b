import Mathlib.Data.Finmap
import Mathlib.Data.List.Sort

/-!
# Range loops with early return, and the order of map iteration

A `for range` loop visits a finite list of elements in order and leaves early
when its body fails. The body receives the position of the element, so that an
outcome chosen by the environment can depend on the visit.

Iterating over a map or a set visits each key once in an order the program does
not control. An `IterationOrder` is one such choice; it carries the proof that
it lists exactly the keys, so a loop over `arrange keys` is a loop over the map.
The rules below turn a fact about one body execution into a fact about a loop.

Maps are finite maps; looking up a key after a write or a deletion is inverted by
one lemma each.
-/

namespace AvalancheParallel.RangeLoop

universe u v w
variable {σ : Type u} {α : Type v} {ε : Type w}

/-- Finite maps with extensional equality. -/
abbrev GoMap (K V : Type*) := Finmap (fun _ : K => V)

/-- An entry found after a write is the one written or an earlier one under another key. -/
theorem lookup_insert_cases {K V : Type*} [DecidableEq K] {entries : GoMap K V} {key other : K}
    {written value : V} (found : (entries.insert key written).lookup other = some value) :
    other = key ∧ written = value ∨ other ≠ key ∧ entries.lookup other = some value := by
  by_cases same : other = key
  · subst same
    rw [Finmap.lookup_insert] at found
    exact Or.inl ⟨rfl, Option.some.inj found⟩
  · rw [Finmap.lookup_insert_of_ne entries same] at found
    exact Or.inr ⟨same, found⟩

/-- An entry found after a deletion is an earlier one under another key. -/
theorem lookup_erase_some {K V : Type*} [DecidableEq K] {entries : GoMap K V} {key other : K}
    {value : V} (found : (entries.erase key).lookup other = some value) :
    other ≠ key ∧ entries.lookup other = some value := by
  have different : other ≠ key := by
    rintro rfl
    rw [Finmap.lookup_erase] at found
    cases found
  rw [Finmap.lookup_erase_ne different] at found
  exact ⟨different, found⟩

/-- The keys after a write. -/
theorem keys_insert {K V : Type*} [DecidableEq K] (entries : GoMap K V) (key : K) (written : V) :
    (entries.insert key written).keys = insert key entries.keys := by
  ext other
  rw [Finmap.mem_keys, Finmap.mem_insert, Finset.mem_insert, Finmap.mem_keys]

/-- A loop that writes an entry for each element leaves the entry of an element that no other
element contradicts. -/
theorem lookup_foldl_insert {K V α : Type*} [DecidableEq K] (keyOf : α → K) (valueOf : α → V)
    (elements : List α) (entries : GoMap K V) {element : α} (member : element ∈ elements)
    (consistent : ∀ other ∈ elements, keyOf other = keyOf element →
      valueOf other = valueOf element) :
    (elements.foldl (fun entries other => entries.insert (keyOf other) (valueOf other))
      entries).lookup (keyOf element) = some (valueOf element) := by
  induction elements using List.reverseRecOn with
  | nil => exact absurd member List.not_mem_nil
  | append_singleton front last inductionHypothesis =>
    rw [List.foldl_append, List.foldl_cons, List.foldl_nil]
    by_cases same : keyOf last = keyOf element
    · rw [← same, Finmap.lookup_insert, consistent last (by simp) same]
    · rw [Finmap.lookup_insert_of_ne _ (Ne.symm same)]
      have earlier : element ∈ front := by
        rcases List.mem_append.mp member with earlier | new
        · exact earlier
        · rw [List.mem_singleton.mp new] at same
          exact absurd rfl same
      exact inductionHypothesis earlier
        (fun other inside => consistent other (List.mem_append_left _ inside))

/-- One choice of the order in which the keys of a map or set are visited. -/
structure IterationOrder (K : Type*) where
  arrange : Finset K → List K
  nodup : ∀ keys, (arrange keys).Nodup
  mem_arrange : ∀ keys key, key ∈ arrange keys ↔ key ∈ keys

attribute [simp] IterationOrder.mem_arrange

/-- Visiting keys in the increasing order of a numbering is an iteration order. -/
def IterationOrder.sortedBy {K : Type*} (rank : K → ℕ) (injective : Function.Injective rank) :
    IterationOrder K where
  arrange keys := Quot.liftOn keys.1 (List.insertionSort (fun a b => rank a ≤ rank b)) (by
    intro first second same
    have total : Std.Total (fun a b : K => rank a ≤ rank b) := ⟨fun a b => Nat.le_total _ _⟩
    have transitive : IsTrans K (fun a b => rank a ≤ rank b) := ⟨fun a b c => Nat.le_trans⟩
    have permuted := (List.perm_insertionSort (fun a b => rank a ≤ rank b) first).trans
      (same.trans (List.perm_insertionSort (fun a b => rank a ≤ rank b) second).symm)
    exact permuted.eq_of_pairwise
      (fun a b _ _ below above => injective (Nat.le_antisymm below above))
      (List.pairwise_insertionSort _ _) (List.pairwise_insertionSort _ _))
  nodup keys := by
    obtain ⟨⟨list⟩, distinct⟩ := keys
    exact (List.perm_insertionSort _ _).nodup_iff.mpr distinct
  mem_arrange keys key := by
    obtain ⟨⟨list⟩, distinct⟩ := keys
    exact (List.perm_insertionSort _ _).mem_iff

/-- Every key is visited once. -/
theorem IterationOrder.length_arrange {K : Type*} [DecidableEq K] (order : IterationOrder K)
    (keys : Finset K) : (order.arrange keys).length = keys.card := by
  have same : (order.arrange keys).toFinset = keys := by
    ext key
    simp
  rw [← List.toFinset_card_of_nodup (order.nodup keys), same]

/-- The values of a map in the order in which their keys are visited. -/
def IterationOrder.values {K V : Type*} [DecidableEq K] (order : IterationOrder K)
    (entries : GoMap K V) : List V :=
  (order.arrange entries.keys).filterMap entries.lookup

/-- The values visited are those found under some key. -/
theorem IterationOrder.mem_values {K V : Type*} [DecidableEq K] (order : IterationOrder K)
    (entries : GoMap K V) (value : V) :
    value ∈ order.values entries ↔ ∃ key, entries.lookup key = some value := by
  simp only [IterationOrder.values, List.mem_filterMap, mem_arrange, Finmap.mem_keys]
  constructor
  · rintro ⟨key, _, found⟩
    exact ⟨key, found⟩
  · rintro ⟨key, found⟩
    exact ⟨key, Finmap.mem_of_lookup_eq_some found, found⟩

/-- Every entry is visited once. -/
theorem IterationOrder.length_values {K V : Type*} [DecidableEq K] (order : IterationOrder K)
    (entries : GoMap K V) : (order.values entries).length = entries.keys.card := by
  rw [← order.length_arrange entries.keys, IterationOrder.values, List.length_filterMap_eq_countP,
    List.countP_eq_length]
  intro key member
  have stored : key ∈ entries := Finmap.mem_keys.mp ((order.mem_arrange entries.keys key).mp member)
  obtain ⟨value, found⟩ := Finmap.mem_iff.mp stored
  simp [found]

/-- When every value knows its key, the keys of the values visited are the keys visited. -/
theorem IterationOrder.map_values {K V : Type*} [DecidableEq K] (order : IterationOrder K)
    (entries : GoMap K V) (keyOf : V → K)
    (keyed : ∀ key value, entries.lookup key = some value → keyOf value = key) :
    (order.values entries).map keyOf = order.arrange entries.keys := by
  have found : ∀ key ∈ order.arrange entries.keys, (entries.lookup key).map keyOf = some key := by
    intro key member
    have stored : key ∈ entries :=
      Finmap.mem_keys.mp ((order.mem_arrange entries.keys key).mp member)
    obtain ⟨value, lookup⟩ := Finmap.mem_iff.mp stored
    rw [lookup, Option.map_some, keyed key value lookup]
  rw [IterationOrder.values, List.map_filterMap, List.filterMap_congr found]
  exact List.filterMap_some

/-- Two orders visit the same values. -/
theorem IterationOrder.values_perm {K V : Type*} [DecidableEq K] (order other : IterationOrder K)
    (entries : GoMap K V) : (order.values entries).Perm (other.values entries) := by
  have keys : (order.arrange entries.keys).Perm (other.arrange entries.keys) := by
    rw [List.perm_ext_iff_of_nodup (order.nodup _) (other.nodup _)]
    intro key
    rw [order.mem_arrange, other.mem_arrange]
  exact keys.filterMap entries.lookup

/-- Visit the given keys first, in the given order, and then the others. -/
def IterationOrder.startingWith {K : Type*} [DecidableEq K] (order : IterationOrder K)
    (front : List K) (distinct : front.Nodup) : IterationOrder K where
  arrange keys := front.filter (fun key => decide (key ∈ keys)) ++
    (order.arrange keys).filter (fun key => decide (key ∉ front))
  nodup keys := by
    rw [List.nodup_append']
    refine ⟨distinct.filter _, (order.nodup keys).filter _, ?_⟩
    intro key first later
    have outside := (List.mem_filter.mp later).2
    exact of_decide_eq_true outside (List.mem_filter.mp first).1
  mem_arrange keys key := by
    simp only [List.mem_append, List.mem_filter, decide_eq_true_eq, mem_arrange]
    tauto

/-- When all of them are keys, they are a front of the arrangement. -/
theorem IterationOrder.startingWith_arrange {K : Type*} [DecidableEq K] (order : IterationOrder K)
    (front : List K) (distinct : front.Nodup) {keys : Finset K}
    (inside : ∀ key ∈ front, key ∈ keys) :
    ∃ rest, (order.startingWith front distinct).arrange keys = front ++ rest := by
  refine ⟨(order.arrange keys).filter (fun key => decide (key ∉ front)), ?_⟩
  have all : front.filter (fun key => decide (key ∈ keys)) = front :=
    List.filter_eq_self.mpr (fun key member => decide_eq_true (inside key member))
  simp only [IterationOrder.startingWith, all]

/-- Natural numbers in increasing order. -/
def IterationOrder.increasing : IterationOrder ℕ := .sortedBy id Function.injective_id

/-- Run the body on each element, counting positions from `index`; the first
failing body ends the loop with the state it leaves. -/
def forRangeFrom (body : ℕ → α → σ → σ × Option ε) : ℕ → List α → σ → σ × Option ε
  | _, [], state => (state, none)
  | index, element :: rest, state =>
    match body index element state with
    | (next, some failure) => (next, some failure)
    | (next, none) => forRangeFrom body (index + 1) rest next

/-- The loop over a whole list, with positions counted from zero. -/
def forRange (body : ℕ → α → σ → σ × Option ε) (elements : List α) (state : σ) : σ × Option ε :=
  forRangeFrom body 0 elements state

variable {body : ℕ → α → σ → σ × Option ε}

/-- The loop executes its body on the element that follows `done`, in the state `before`. -/
def Visits (body : ℕ → α → σ → σ × Option ε) (elements : List α) (state : σ) (done : List α)
    (element : α) (before : σ) : Prop :=
  (∃ rest, elements = done ++ element :: rest) ∧ forRange body done state = (before, none)

/-- What each body execution preserves, the loop preserves, also when it leaves early. -/
theorem forRangeFrom_preserves (invariant : σ → Prop) {elements : List α}
    (preserved : ∀ index, ∀ element ∈ elements, ∀ state, invariant state →
      invariant (body index element state).1)
    (index : ℕ) {state : σ} (initial : invariant state) :
    invariant (forRangeFrom body index elements state).1 := by
  induction elements generalizing index state with
  | nil => exact initial
  | cons element rest inductionHypothesis =>
    have next := preserved index element List.mem_cons_self state initial
    cases outcome : body index element state with
    | mk after failed =>
      rw [outcome] at next
      cases failed with
      | some failure => simpa only [forRangeFrom, outcome] using next
      | none =>
        simp only [forRangeFrom, outcome]
        exact inductionHypothesis
          (fun position other member => preserved position other (List.mem_cons_of_mem _ member))
          (index + 1) next

/-- The invariant rule for a whole loop. -/
theorem forRange_preserves (invariant : σ → Prop) {elements : List α}
    (preserved : ∀ index, ∀ element ∈ elements, ∀ state, invariant state →
      invariant (body index element state).1)
    {state : σ} (initial : invariant state) : invariant (forRange body elements state).1 :=
  forRangeFrom_preserves invariant preserved 0 initial

/-- A loop completes when its body completes in every state the loop can be in. -/
theorem forRangeFrom_completes (invariant : σ → Prop) {elements : List α}
    (completes : ∀ index, ∀ element ∈ elements, ∀ state, invariant state →
      invariant (body index element state).1 ∧ (body index element state).2 = none)
    (index : ℕ) {state : σ} (initial : invariant state) :
    (forRangeFrom body index elements state).2 = none := by
  induction elements generalizing index state with
  | nil => rfl
  | cons element rest inductionHypothesis =>
    obtain ⟨next, done⟩ := completes index element List.mem_cons_self state initial
    cases outcome : body index element state with
    | mk after failed =>
      rw [outcome] at next done
      subst done
      simp only [forRangeFrom, outcome]
      exact inductionHypothesis
        (fun position other member => completes position other (List.mem_cons_of_mem _ member))
        (index + 1) next

/-- The completion rule for a whole loop. -/
theorem forRange_completes (invariant : σ → Prop) {elements : List α}
    (completes : ∀ index, ∀ element ∈ elements, ∀ state, invariant state →
      invariant (body index element state).1 ∧ (body index element state).2 = none)
    {state : σ} (initial : invariant state) : (forRange body elements state).2 = none :=
  forRangeFrom_completes invariant completes 0 initial

/-- In a loop that completes, each element's postcondition is established by its
own iteration and kept by the later ones, so it holds of the final state. -/
theorem forRangeFrom_establishes (invariant : σ → Prop) (post : α → σ → Prop) {elements : List α}
    (preserved : ∀ index, ∀ element ∈ elements, ∀ state, invariant state →
      invariant (body index element state).1)
    (established : ∀ index, ∀ element ∈ elements, ∀ state, invariant state →
      (body index element state).2 = none → post element (body index element state).1)
    (kept : ∀ index, ∀ element ∈ elements, ∀ other ∈ elements, ∀ state, invariant state →
      post other state → post other (body index element state).1)
    (index : ℕ) {state : σ} (initial : invariant state)
    (completed : (forRangeFrom body index elements state).2 = none) :
    ∀ element ∈ elements, post element (forRangeFrom body index elements state).1 := by
  induction elements generalizing index state with
  | nil => simp
  | cons element rest inductionHypothesis =>
    have next := preserved index element List.mem_cons_self state initial
    have done := established index element List.mem_cons_self state initial
    have restPreserved : ∀ position, ∀ other ∈ rest, ∀ state, invariant state →
        invariant (body position other state).1 := fun position other member =>
      preserved position other (List.mem_cons_of_mem _ member)
    cases outcome : body index element state with
    | mk after failed =>
      rw [outcome] at next done
      cases failed with
      | some failure => simp [forRangeFrom, outcome] at completed
      | none =>
        simp only [forRangeFrom, outcome] at completed ⊢
        intro other member
        rcases List.mem_cons.mp member with rfl | member
        · have both : invariant (forRangeFrom body (index + 1) rest after).1 ∧
              post other (forRangeFrom body (index + 1) rest after).1 := by
            refine forRangeFrom_preserves (fun state => invariant state ∧ post other state) ?_
              (index + 1) ⟨next, done rfl⟩
            rintro position later inside state ⟨holds, already⟩
            exact ⟨restPreserved position later inside state holds,
              kept position later (List.mem_cons_of_mem _ inside) other List.mem_cons_self
                state holds already⟩
          exact both.2
        · exact inductionHypothesis restPreserved
            (fun position later inside => established position later
              (List.mem_cons_of_mem _ inside))
            (fun position first inside second also => kept position first
              (List.mem_cons_of_mem _ inside) second (List.mem_cons_of_mem _ also))
            (index + 1) next completed other member

/-- The postcondition rule for a whole loop that completes. -/
theorem forRange_establishes (invariant : σ → Prop) (post : α → σ → Prop) {elements : List α}
    (preserved : ∀ index, ∀ element ∈ elements, ∀ state, invariant state →
      invariant (body index element state).1)
    (established : ∀ index, ∀ element ∈ elements, ∀ state, invariant state →
      (body index element state).2 = none → post element (body index element state).1)
    (kept : ∀ index, ∀ element ∈ elements, ∀ other ∈ elements, ∀ state, invariant state →
      post other state → post other (body index element state).1)
    {state : σ} (initial : invariant state) (completed : (forRange body elements state).2 = none) :
    ∀ element ∈ elements, post element (forRange body elements state).1 :=
  forRangeFrom_establishes invariant post preserved established kept 0 initial completed

end AvalancheParallel.RangeLoop
