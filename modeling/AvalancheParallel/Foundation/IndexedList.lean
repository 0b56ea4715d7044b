import AvalancheParallel.Foundation.RangeLoop

/-!
# Lists with the positions of their elements

A list without duplicates together with a map from each element to its position. A new
element goes to the end. An element is taken out by moving the last element into its
place, so that only two positions change.
-/

namespace AvalancheParallel.IndexedList

open AvalancheParallel.RangeLoop

universe u
variable {α : Type u} [DecidableEq α]

/-- The map and the list are mutually inverse. -/
def Located (positions : GoMap α ℕ) (elements : List α) : Prop :=
  ∀ element i, positions.lookup element = some i ↔ elements[i]? = some element

/-- The empty list has no positions. -/
theorem located_empty : Located (∅ : GoMap α ℕ) [] := by
  intro element i
  simp

variable {positions : GoMap α ℕ} {elements : List α}

/-- An element is at one position. -/
theorem Located.unique (located : Located positions elements) {element : α} {i j : ℕ}
    (first : elements[i]? = some element) (second : elements[j]? = some element) : i = j := by
  have one := (located element i).mpr first
  have other := (located element j).mpr second
  rw [one, Option.some.injEq] at other
  exact other

/-- Elements with one position each are not repeated. -/
theorem Located.nodup (located : Located positions elements) : elements.Nodup := by
  rw [List.nodup_iff_getElem?_ne_getElem?]
  intro i j below within same
  have found : elements[j]? = some elements[j] := List.getElem?_eq_getElem within
  have order := located.unique (same.trans found) found
  omega

/-- The keys are the elements. -/
theorem Located.mem_iff (located : Located positions elements) (element : α) :
    element ∈ elements ↔ (positions.lookup element).isSome := by
  rw [List.mem_iff_getElem?, Option.isSome_iff_exists]
  exact exists_congr (fun i => (located element i).symm)

omit [DecidableEq α] in
/-- Where the last element is, and where the others are. -/
theorem getElem?_concat_iff (front : List α) (last other : α) (i : ℕ) :
    (front ++ [last])[i]? = some other ↔
      front[i]? = some other ∨ i = front.length ∧ last = other := by
  rcases Nat.lt_trichotomy i front.length with within | rfl | beyond
  · rw [List.getElem?_append_left within]
    constructor
    · exact Or.inl
    · rintro (found | ⟨atEnd, _⟩)
      · exact found
      · omega
  · simp
  · have missing : front[i]? = none := List.getElem?_eq_none (by omega)
    have longer : (front ++ [last])[i]? = none := by
      refine List.getElem?_eq_none ?_
      rw [List.length_append, List.length_singleton]
      omega
    rw [longer, missing]
    simp
    omega

/-- A new element goes to the end. -/
theorem Located.push (located : Located positions elements) {element : α}
    (absent : positions.lookup element = none) :
    Located (positions.insert element elements.length) (elements ++ [element]) := by
  have outside : ∀ i : ℕ, ¬ elements[i]? = some element := by
    intro i found
    rw [← located element i, absent] at found
    cases found
  intro other i
  rw [getElem?_concat_iff]
  by_cases same : other = element
  · subst same
    rw [Finmap.lookup_insert]
    simp [outside i, eq_comm]
  · rw [Finmap.lookup_insert_of_ne _ same, located other i]
    simp [Ne.symm same]

/-- Taking out the last element. -/
theorem Located.pop {front : List α} {last : α} (located : Located positions (front ++ [last])) :
    Located (positions.erase last) front := by
  intro other i
  by_cases same : other = last
  · subst same
    rw [Finmap.lookup_erase]
    refine iff_of_false (by simp) ?_
    intro found
    have order := located.unique ((getElem?_concat_iff front other other i).mpr (.inl found))
      ((getElem?_concat_iff front other other front.length).mpr (.inr ⟨rfl, rfl⟩))
    have within := (List.getElem?_eq_some_iff.mp found).1
    omega
  · rw [Finmap.lookup_erase_ne same, located other i, getElem?_concat_iff]
    simp [Ne.symm same]

/-- Taking out another element moves the last one into its place. -/
theorem Located.moveLast {front : List α} {last element : α} {i : ℕ}
    (located : Located positions (front ++ [last])) (here : front[i]? = some element) :
    Located ((positions.insert last i).erase element) (front.set i last) := by
  obtain ⟨within, _⟩ := List.getElem?_eq_some_iff.mp here
  have remaining := located.pop
  have different : last ≠ element := by
    rintro rfl
    rw [← remaining last i, Finmap.lookup_erase] at here
    cases here
  -- what is at each position of the list after the move
  have moved (j : ℕ) : (front.set i last)[j]? = if i = j then some last else front[j]? := by
    rw [List.getElem?_set, if_pos within]
  intro other j
  rw [moved j]
  by_cases removed : other = element
  · subst removed
    rw [Finmap.lookup_erase]
    refine iff_of_false (by simp) ?_
    split
    · simpa using different
    · rename_i elsewhere
      intro found
      exact elsewhere (remaining.unique here found)
  · rw [Finmap.lookup_erase_ne removed]
    by_cases isLast : other = last
    · subst isLast
      rw [Finmap.lookup_insert, Option.some.injEq]
      split
      · rename_i same
        exact iff_of_true same rfl
      · rename_i elsewhere
        refine iff_of_false elsewhere ?_
        rw [← remaining other j, Finmap.lookup_erase]
        simp
    · rw [Finmap.lookup_insert_of_ne _ isLast, ← Finmap.lookup_erase_ne isLast, remaining other j]
      split
      · rename_i same
        subst same
        rw [here, Option.some.injEq, Option.some.injEq]
        exact iff_of_false (Ne.symm removed) (Ne.symm isLast)
      · exact Iff.rfl

end AvalancheParallel.IndexedList
