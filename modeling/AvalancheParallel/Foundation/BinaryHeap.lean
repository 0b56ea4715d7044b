import Mathlib.Order.Lattice
import Mathlib.Data.List.Basic

/-!
# Percolation in a binary heap

The array of a binary heap in which the children of position `i` are `2 * i + 1` and
`2 * i + 2`. An element moves down as long as one of its children has a smaller key,
or up as long as its parent has a larger one. Elements that are exchanged are told
their new positions. The heap can be shorter than the array; a position outside of the
array ends the operation without a result.
-/

namespace AvalancheParallel.BinaryHeap

universe u v
variable {α : Type u} {P : Type v} [LinearOrder P] (key : α → P) (place : ℕ → α → α)

/-- The child of a position with the smaller key, given the left one. -/
def minChild (size left : ℕ) (heap : List α) : Option ℕ :=
  if left + 1 < size then
    match heap[left + 1]?, heap[left]? with
    | some right, some element => some (if key right < key element then left + 1 else left)
    | _, _ => none
  else some left

/-- The smaller child is not before the left one. -/
theorem minChild_ge {size left child : ℕ} {heap : List α}
    (chosen : minChild key size left heap = some child) : left ≤ child := by
  rw [minChild] at chosen
  split at chosen
  · split at chosen
    · obtain rfl := Option.some.inj chosen
      split
      · exact Nat.le_succ left
      · exact Nat.le_refl left
    · cases chosen
  · obtain rfl := Option.some.inj chosen
    exact Nat.le_refl left

/-- Move the element at a position down. -/
def percolateDown (size index : ℕ) (heap : List α) : Option (List α) :=
  if size ≤ 2 * index + 1 then some heap
  else
    match _chosen : minChild key size (2 * index + 1) heap with
    | none => none
    | some child =>
      match heap[index]?, heap[child]? with
      | some element, some lower =>
        if key element ≤ key lower then some heap
        else
          percolateDown size child
            ((heap.set index (place index lower)).set child (place child element))
      | _, _ => none
termination_by size - index
decreasing_by
  have below := minChild_ge key _chosen
  omega

/-- Move the element at a position up; the result begins with the position where it ends. -/
def percolateUp (index : ℕ) (heap : List α) : Option (ℕ × List α) :=
  if index = 0 then some (index, heap)
  else
    match heap[index]?, heap[(index - 1) / 2]? with
    | some element, some parent =>
      if key parent ≤ key element then some (index, heap)
      else
        percolateUp ((index - 1) / 2)
          ((heap.set index (place index parent)).set ((index - 1) / 2)
            (place ((index - 1) / 2) element))
    | _, _ => none
termination_by index
decreasing_by omega

/-- Make a heap of an array, from the given position down to the first. -/
def build (size : ℕ) : ℕ → List α → Option (List α)
  | 0, heap => percolateDown key place size 0 heap
  | index + 1, heap =>
    match percolateDown key place size (index + 1) heap with
    | none => none
    | some next => build size index next

/-- An element does not move down in an array whose keys are all equal. -/
theorem percolateDown_of_equal {size index : ℕ} {heap : List α} {level : P}
    (inside : index < heap.length) (within : size ≤ heap.length)
    (equal : ∀ element ∈ heap, key element = level) :
    percolateDown key place size index heap = some heap := by
  rw [percolateDown]
  by_cases bottom : size ≤ 2 * index + 1
  · rw [if_pos bottom]
  · rw [if_neg bottom]
    have left : 2 * index + 1 < heap.length := by omega
    have child : minChild key size (2 * index + 1) heap = some (2 * index + 1) := by
      rw [minChild]
      by_cases both : 2 * index + 1 + 1 < size
      · have right : 2 * index + 1 + 1 < heap.length := by omega
        rw [if_pos both, List.getElem?_eq_getElem right, List.getElem?_eq_getElem left]
        simp [equal _ (List.getElem_mem right), equal _ (List.getElem_mem left)]
      · rw [if_neg both]
    split
    · rename_i nothing
      rw [child] at nothing
      cases nothing
    · rename_i other chosen
      obtain rfl := Option.some.inj (child.symm.trans chosen)
      rw [List.getElem?_eq_getElem inside, List.getElem?_eq_getElem left]
      simp [equal _ (List.getElem_mem inside), equal _ (List.getElem_mem left)]

/-- A heap of equal keys is left as it is. -/
theorem build_of_equal {size index : ℕ} {heap : List α} {level : P} (inside : index < heap.length)
    (within : size ≤ heap.length) (equal : ∀ element ∈ heap, key element = level) :
    build key place size index heap = some heap := by
  induction index with
  | zero => exact percolateDown_of_equal key place inside within equal
  | succ index inductionHypothesis =>
    rw [build, percolateDown_of_equal key place inside within equal]
    exact inductionHypothesis (Nat.lt_of_succ_lt inside)

end AvalancheParallel.BinaryHeap
