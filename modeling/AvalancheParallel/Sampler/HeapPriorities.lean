import AvalancheParallel.Foundation.HeapOrder
import AvalancheParallel.Sampler.WeightedHeap

/-!
# Priorities in the heap of weights

The loops of `reset`, `rebalance` and `update` keep the heap of `weightedHeap` ordered by
priority. They write to the elements that they exchange only, and there only the positions.
-/

namespace AvalancheParallel.Sampler

open AvalancheParallel.BinaryHeap

variable {P : Type} [LinearOrder P]

/-- An element apart from its position. -/
def WeightedElement.content (element : WeightedElement P) : WeightedElement P :=
  { element with drawIndex := 0 }

omit [LinearOrder P] in
/-- Writing the position of an element changes nothing else. -/
theorem place_placing :
    Placing (WeightedElement.priority (P := P)) WeightedElement.place WeightedElement.content where
  keepsKey _ _ := rfl
  keepsCore _ _ := rfl

/-- No element of the heap has a smaller priority than its parent, and the heap is the whole
array. -/
structure WeightedHeap.IsMinHeap (s : WeightedHeap P) : Prop where
  whole : s.heap.length = s.numWeights
  ordered : ∀ i, 0 < i → ∀ parent child, s.heap[(i - 1) / 2]? = some parent →
    s.heap[i]? = some child → parent.priority ≤ child.priority

/-- The order in terms of the keys at the positions. -/
theorem WeightedHeap.isMinHeap_iff (fallback : WeightedElement P)
    (heap : List (WeightedElement P)) :
    (⟨heap, heap.length⟩ : WeightedHeap P).IsMinHeap ↔
      OrderedFrom (keysOf WeightedElement.priority fallback heap) heap.length 0 := by
  constructor
  · intro minHeap i positive inside _
    have foundChild : heap[i]? = some heap[i] := List.getElem?_eq_getElem inside
    have higher := parent_lt positive
    have foundParent : heap[parent i]? = some heap[parent i] :=
      List.getElem?_eq_getElem (by omega)
    rw [keysOf_some foundChild, keysOf_some foundParent]
    exact minHeap.ordered i positive _ _ foundParent foundChild
  · intro ordered
    refine ⟨rfl, ?_⟩
    intro i positive upper lower foundParent foundChild
    have inside := (List.getElem?_eq_some_iff.mp foundChild).1
    have related := ordered i positive inside (Nat.zero_le _)
    have above : keysOf WeightedElement.priority fallback heap (parent i) = _ :=
      keysOf_some foundParent
    rw [keysOf_some foundChild, above] at related
    exact related

/-- The loop of `reset` that builds the heap. -/
theorem build_isMinHeap (heap : List (WeightedElement P)) :
    ∃ built, build WeightedElement.priority WeightedElement.place heap.length
        ((heap.length - 1) / 2) heap = some built ∧
      (⟨built, heap.length⟩ : WeightedHeap P).IsMinHeap ∧
      (built.map WeightedElement.content).Perm (heap.map WeightedElement.content) := by
  by_cases nonempty : heap = []
  · subst nonempty
    refine ⟨[], ?_, ⟨rfl, fun _ _ _ _ found => nomatch found⟩, List.Perm.refl _⟩
    rw [List.length_nil, build, percolateDown, if_pos (Nat.zero_le _)]
  have positive := List.length_pos_iff.mpr nonempty
  -- positions after the first in the loop have no children
  have bottom : OrderedFrom (keysOf WeightedElement.priority (heap.head nonempty) heap)
      heap.length ((heap.length - 1) / 2 + 1) := by
    intro i _ inside high
    unfold parent at high
    omega
  obtain ⟨built, reached, rearranges, ordered⟩ :=
    build_ordered place_placing ((heap.length - 1) / 2) heap (by omega) (Nat.le_refl _) bottom
  refine ⟨built, reached, ?_, rearranges.perm⟩
  rw [← rearranges.length] at ordered ⊢
  exact (WeightedHeap.isMinHeap_iff _ built).mpr ordered

/-- `rebalance` after a change of the priority at a position. -/
theorem WeightedHeap.IsMinHeap.rebalance {s : WeightedHeap P} (minHeap : s.IsMinHeap) {index : ℕ}
    {element : WeightedElement P} (found : s.heap[index]? = some element) (priority : P) :
    let changed := s.heap.set index { element with priority := priority }
    ∃ after, WeightedHeap.rebalance index ⟨changed, s.numWeights⟩ = some after ∧
      after.IsMinHeap ∧
      (after.heap.map WeightedElement.content).Perm (changed.map WeightedElement.content) := by
  intro changed
  obtain ⟨heap, numWeights⟩ := s
  obtain rfl : heap.length = numWeights := minHeap.whole
  have inside : index < heap.length := (List.getElem?_eq_some_iff.mp found).1
  have length : changed.length = heap.length := List.length_set
  have disturbed : Disturbed (keysOf WeightedElement.priority element changed) heap.length 0
      index := by
    refine ((WeightedHeap.isMinHeap_iff element heap).mp minHeap).disturbed inside
      (Nat.le_refl _) ?_
    intro i _ different
    rw [keysOf, keysOf, List.getD_eq_getElem?_getD, List.getD_eq_getElem?_getD,
      List.getElem?_set_ne (Ne.symm different)]
  obtain ⟨top, middle, risen, topInside, first, sinking⟩ :=
    percolateUp_sinking place_placing index changed inside length.ge disturbed
  obtain ⟨after, sunk, second, ordered⟩ := percolateDown_ordered place_placing top middle
    topInside (by rw [first.length, length]) (Nat.zero_le _) sinking
  have rearranges := first.trans second
  have size : after.length = heap.length := rearranges.length.trans length
  refine ⟨⟨after, heap.length⟩, ?_, ?_, rearranges.perm⟩
  · rw [WeightedHeap.rebalance, risen]
    dsimp only
    rw [sunk]
  · rw [← size] at ordered ⊢
    exact (WeightedHeap.isMinHeap_iff element after).mpr ordered

/-- `update` of a heap with at least two elements takes out the first. -/
theorem WeightedHeap.IsMinHeap.update {s : WeightedHeap P} (minHeap : s.IsMinHeap)
    (several : 2 ≤ s.numWeights) :
    ∃ after, s.update = some after ∧ after.numWeights = s.numWeights - 1 ∧ after.IsMinHeap ∧
      (after.heap.map WeightedElement.content).Perm
        (s.heap.tail.map WeightedElement.content) := by
  obtain ⟨heap, numWeights⟩ := s
  obtain rfl : heap.length = numWeights := minHeap.whole
  obtain ⟨first, middle, last, rfl⟩ : ∃ first middle last, heap = first :: (middle ++ [last]) := by
    cases heap with
    | nil => simp at several
    | cons first rest =>
      cases rest using List.reverseRecOn with
      | nil => simp at several
      | append_singleton middle last _ => exact ⟨first, middle, last, rfl⟩
  have ordered := (WeightedHeap.isMinHeap_iff last _).mp minHeap
  -- the last element takes the place of the first
  have disturbed : Disturbed (keysOf WeightedElement.priority last (last :: middle))
      (middle.length + 1) 0 0 := by
    refine ordered.disturbed (by simp) (by simp) ?_
    intro i inside different
    obtain ⟨j, rfl⟩ := Nat.exists_eq_succ_of_ne_zero different
    have within : j < middle.length := by omega
    simp [keysOf, List.getD_eq_getElem?_getD, List.getElem?_append_left within]
  obtain ⟨after, reached, rearranges, sorted⟩ := percolateDown_ordered place_placing 0
    (last :: middle) (by omega) (by simp) (Nat.zero_le _)
    ⟨disturbed, fun impossible => absurd impossible (Nat.lt_irrefl 0)⟩
  have size : after.length = middle.length + 1 := rearranges.length
  refine ⟨⟨after, middle.length + 1⟩, ?_, by simp, ?_, ?_⟩
  · simp [WeightedHeap.update, reached]
  · rw [← size] at sorted ⊢
    exact (WeightedHeap.isMinHeap_iff last after).mpr sorted
  · refine rearranges.perm.trans ?_
    rw [List.tail_cons, List.map_cons, List.map_append]
    exact (List.perm_append_singleton _ _).symm

/-- The order of the heap: the loop of `reset` establishes it for the elements it is given,
`rebalance` restores it after the priority at one position changed, and `update` keeps it for
the elements other than the first. -/
theorem weightedHeap_ordered :
    (∀ heap : List (WeightedElement P),
      ∃ built, build WeightedElement.priority WeightedElement.place heap.length
          ((heap.length - 1) / 2) heap = some built ∧
        (⟨built, heap.length⟩ : WeightedHeap P).IsMinHeap ∧
        (built.map WeightedElement.content).Perm (heap.map WeightedElement.content)) ∧
    (∀ (s : WeightedHeap P) (index : ℕ) (element : WeightedElement P) (priority : P),
      s.IsMinHeap → s.heap[index]? = some element →
      let changed := s.heap.set index { element with priority := priority }
      ∃ after, WeightedHeap.rebalance index ⟨changed, s.numWeights⟩ = some after ∧
        after.IsMinHeap ∧
        (after.heap.map WeightedElement.content).Perm (changed.map WeightedElement.content)) ∧
    ∀ s : WeightedHeap P, s.IsMinHeap → 2 ≤ s.numWeights →
      ∃ after, s.update = some after ∧ after.numWeights = s.numWeights - 1 ∧ after.IsMinHeap ∧
        (after.heap.map WeightedElement.content).Perm
          (s.heap.tail.map WeightedElement.content) :=
  ⟨build_isMinHeap, fun _ _ _ priority minHeap found => minHeap.rebalance found priority,
    fun _ minHeap several => minHeap.update several⟩

/-- Three elements in the wrong order are built into a heap. The priority of the second is raised,
and then the first is taken out. -/
theorem weightedHeap_ordered_three :
    ∃ (built : List (WeightedElement ℕ)) (raised updated : WeightedHeap ℕ),
      build WeightedElement.priority WeightedElement.place 3 1
        [⟨0, 5, 0, 0, 7⟩, ⟨1, 5, 5, 1, 4⟩, ⟨2, 5, 10, 2, 3⟩] = some built ∧
      (⟨built, 3⟩ : WeightedHeap ℕ).IsMinHeap ∧
      (∃ second, built[1]? = some second ∧
        WeightedHeap.rebalance 1 ⟨built.set 1 { second with priority := 9 }, 3⟩ = some raised) ∧
      raised.IsMinHeap ∧
      WeightedHeap.update ⟨built, 3⟩ = some updated ∧ updated.IsMinHeap := by
  obtain ⟨built, reached, minHeap, _⟩ := weightedHeap_ordered.1
    [⟨0, 5, 0, 0, 7⟩, ⟨1, 5, 5, 1, 4⟩, ⟨2, 5, 10, 2, (3 : ℕ)⟩]
  have length : built.length = 3 := minHeap.whole
  have second : built[1]? = some built[1] := List.getElem?_eq_getElem (by omega)
  obtain ⟨raised, rebalanced, stillMinHeap, _⟩ :=
    weightedHeap_ordered.2.1 ⟨built, 3⟩ 1 built[1] 9 minHeap second
  obtain ⟨updated, taken, _, smallerHeap, _⟩ :=
    weightedHeap_ordered.2.2 ⟨built, 3⟩ minHeap (by simp)
  exact ⟨built, raised, updated, reached, minHeap, ⟨_, second, rebalanced⟩, stillMinHeap, taken,
    smallerHeap⟩

end AvalancheParallel.Sampler
