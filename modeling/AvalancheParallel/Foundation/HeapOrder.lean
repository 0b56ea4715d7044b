import AvalancheParallel.Foundation.BinaryHeap
import Mathlib.Logic.Equiv.Basic

/-!
# The order of a binary heap

A heap is ordered when no element has a smaller key than its parent. An element whose key
changed disturbs the order between itself and its neighbours only, and its children are still
not below its parent. Moving it up keeps this until it is not below its parent, and moving it
down, to the place of its smaller child, keeps that until it is not above its children. Both
exchange two elements at a time, so the elements stay the same up to what they are told of their
positions.

The argument is about the keys at the positions, as a function; the array supplies that function.
-/

namespace AvalancheParallel.BinaryHeap

universe u v w

section Keys

variable {P : Type v} [LinearOrder P]

/-- The position of the parent. -/
def parent (i : ℕ) : ℕ := (i - 1) / 2

/-- A parent is before its children. -/
theorem parent_lt {i : ℕ} (positive : 0 < i) : parent i < i := by
  unfold parent
  omega

/-- The two children of a position. -/
theorem parent_eq_iff {i index : ℕ} (positive : 0 < i) :
    parent i = index ↔ i = 2 * index + 1 ∨ i = 2 * index + 1 + 1 := by
  unfold parent
  omega

/-- Parents from a position on are not above their children. -/
def OrderedFrom (keys : ℕ → P) (size low : ℕ) : Prop :=
  ∀ i, 0 < i → i < size → low ≤ parent i → keys (parent i) ≤ keys i

/-- The order is disturbed at one position at most. -/
structure Disturbed (keys : ℕ → P) (size low index : ℕ) : Prop where
  apart : ∀ i, 0 < i → i < size → low ≤ parent i → i ≠ index → parent i ≠ index →
    keys (parent i) ≤ keys i
  across : ∀ i, 0 < i → i < size → parent i = index → 0 < index → low ≤ parent index →
    keys (parent index) ≤ keys i

/-- The order is disturbed at one position, whose element is not below its parent. -/
structure Sinking (keys : ℕ → P) (size low index : ℕ) : Prop
    extends Disturbed keys size low index where
  above : 0 < index → low ≤ parent index → keys (parent index) ≤ keys index

variable {keys : ℕ → P} {size low index child : ℕ}

/-- An element that is not above its children has its place. -/
theorem Sinking.finish (sinking : Sinking keys size low index)
    (settled : ∀ i, 0 < i → i < size → parent i = index → keys index ≤ keys i) :
    OrderedFrom keys size low := by
  intro i positive inside high
  by_cases own : i = index
  · subst own
    exact sinking.above positive high
  · by_cases below : parent i = index
    · rw [below]
      exact settled i positive inside below
    · exact sinking.apart i positive inside high own below

/-- The parent of the next position to order may be above its children only. -/
theorem OrderedFrom.sinking (ordered : OrderedFrom keys size (index + 1)) :
    Sinking keys size index index := by
  refine ⟨⟨?_, ?_⟩, ?_⟩
  · intro i positive inside high _ elsewhere
    exact ordered i positive inside (by omega)
  · intro i _ _ _ positive high
    exact absurd (parent_lt positive) (by omega)
  · intro positive high
    exact absurd (parent_lt positive) (by omega)

/-- A key that changes disturbs the order at its position. -/
theorem OrderedFrom.disturbed (ordered : OrderedFrom keys size 0) (inside : index < size)
    {changed : ℕ → P} {smaller : ℕ} (fits : smaller ≤ size)
    (same : ∀ i < smaller, i ≠ index → changed i = keys i) : Disturbed changed smaller 0 index := by
  refine ⟨?_, ?_⟩
  · intro i positive iInside _ notIndex parentNotIndex
    have higher := parent_lt positive
    rw [same i iInside notIndex, same _ (by omega) parentNotIndex]
    exact ordered i positive (by omega) (Nat.zero_le _)
  · intro i positive iInside childOf indexPositive _
    have higher := parent_lt positive
    have evenHigher := parent_lt indexPositive
    have upper := ordered index indexPositive inside (Nat.zero_le _)
    have lower := ordered i positive (by omega) (Nat.zero_le _)
    rw [childOf] at lower
    rw [same i iInside (by omega), same _ (by omega) (by omega)]
    exact le_trans upper lower

/-- An element exchanged with its smaller child. -/
theorem Sinking.exchange (sinking : Sinking keys size low index) (high : low ≤ index)
    (positive : 0 < child) (inside : child < size) (below : parent child = index)
    (least : ∀ i, 0 < i → i < size → parent i = index → keys child ≤ keys i)
    (smaller : keys child ≤ keys index) :
    Sinking (keys ∘ Equiv.swap index child) size low child := by
  have lower : index < child := below ▸ parent_lt positive
  have here : (keys ∘ Equiv.swap index child) index = keys child := by simp
  have there : (keys ∘ Equiv.swap index child) child = keys index := by simp
  have elsewhere : ∀ i, i ≠ index → i ≠ child → (keys ∘ Equiv.swap index child) i = keys i := by
    intro i notIndex notChild
    rw [Function.comp_apply, Equiv.swap_apply_of_ne_of_ne notIndex notChild]
  refine ⟨⟨?_, ?_⟩, ?_⟩
  · intro i iPositive iInside iHigh notChild parentNotChild
    by_cases own : i = index
    · subst own
      rw [here, elsewhere _ (Nat.ne_of_lt (parent_lt iPositive)) parentNotChild]
      exact sinking.across child positive inside below iPositive iHigh
    · rw [elsewhere i own notChild]
      by_cases sibling : parent i = index
      · rw [sibling, here]
        exact least i iPositive iInside sibling
      · rw [elsewhere _ sibling parentNotChild]
        exact sinking.apart i iPositive iInside iHigh own sibling
  · intro i iPositive iInside grandchild _ _
    have iLower : child < i := grandchild ▸ parent_lt iPositive
    rw [below, here, elsewhere i (by omega) (by omega), ← grandchild]
    exact sinking.apart i iPositive iInside (by omega) (by omega) (by omega)
  · intro _ _
    rw [below, here, there]
    exact smaller

/-- An element exchanged with its larger parent. -/
theorem Disturbed.exchange (disturbed : Disturbed keys size 0 index) (positive : 0 < index)
    (inside : index < size) :
    Disturbed (keys ∘ Equiv.swap index (parent index)) size 0 (parent index) := by
  have higher := parent_lt positive
  have here : (keys ∘ Equiv.swap index (parent index)) index = keys (parent index) := by simp
  have elsewhere : ∀ i, i ≠ index → i ≠ parent index →
      (keys ∘ Equiv.swap index (parent index)) i = keys i := by
    intro i notIndex notParent
    rw [Function.comp_apply, Equiv.swap_apply_of_ne_of_ne notIndex notParent]
  refine ⟨?_, ?_⟩
  · intro i iPositive iInside _ notParent parentNotParent
    have own : i ≠ index := by
      rintro rfl
      exact parentNotParent rfl
    rw [elsewhere i own notParent]
    by_cases childOf : parent i = index
    · rw [childOf, here]
      exact disturbed.across i iPositive iInside childOf positive (Nat.zero_le _)
    · rw [elsewhere _ childOf parentNotParent]
      exact disturbed.apart i iPositive iInside (Nat.zero_le _) own childOf
  · intro i iPositive iInside sibling parentPositive _
    have grand := parent_lt parentPositive
    rw [elsewhere (parent (parent index)) (by omega) (by omega)]
    have upper := disturbed.apart (parent index) parentPositive (by omega) (Nat.zero_le _)
      (by omega) (by omega)
    by_cases own : i = index
    · subst own
      rw [here]
      exact upper
    · have lower := parent_lt iPositive
      rw [elsewhere i own (by omega)]
      have side := disturbed.apart i iPositive iInside (Nat.zero_le _) own (by omega)
      rw [sibling] at side
      exact le_trans upper side

end Keys

section Arrays

variable {α : Type u} {P : Type v} [LinearOrder P] (key : α → P) (place : ℕ → α → α)

/-- The keys of an array, with a value for the positions outside. -/
def keysOf (fallback : α) (heap : List α) (i : ℕ) : P := key (heap.getD i fallback)

variable {key place} {fallback : α}

omit [LinearOrder P] in
/-- The key at a position inside the heap. -/
theorem keysOf_some {heap : List α} {i : ℕ} {element : α} (found : heap[i]? = some element) :
    keysOf key fallback heap i = key element := by
  rw [keysOf, List.getD_eq_getElem?_getD, found, Option.getD_some]

omit [LinearOrder P] in
/-- The keys after the exchange of two elements. -/
theorem keysOf_exchange (keyPlace : ∀ i element, key (place i element) = key element)
    {heap : List α} {i j : ℕ} {first second : α} (foundFirst : heap[i]? = some first)
    (foundSecond : heap[j]? = some second) :
    keysOf key fallback ((heap.set i (place i second)).set j (place j first)) =
      keysOf key fallback heap ∘ Equiv.swap i j := by
  have insideFirst := (List.getElem?_eq_some_iff.mp foundFirst).1
  have insideSecond := (List.getElem?_eq_some_iff.mp foundSecond).1
  funext n
  rw [Function.comp_apply]
  by_cases atSecond : n = j
  · subst atSecond
    rw [Equiv.swap_apply_right, keysOf_some foundFirst, keysOf_some
      (List.getElem?_set_self (by simpa using insideSecond)), keyPlace]
  · by_cases atFirst : n = i
    · subst atFirst
      have written : ((heap.set n (place n second)).set j (place j first))[n]? =
          some (place n second) := by
        rw [List.getElem?_set_ne (Ne.symm atSecond), List.getElem?_set_self insideFirst]
      rw [Equiv.swap_apply_left, keysOf_some foundSecond, keysOf_some written, keyPlace]
    · have kept : ((heap.set i (place i second)).set j (place j first))[n]? = heap[n]? := by
        rw [List.getElem?_set_ne (Ne.symm atSecond), List.getElem?_set_ne (Ne.symm atFirst)]
      rw [Equiv.swap_apply_of_ne_of_ne atFirst atSecond, keysOf, keysOf,
        List.getD_eq_getElem?_getD, List.getD_eq_getElem?_getD, kept]

variable {β : Type w} {core : α → β}

/-- The same elements, but for their places. -/
structure Rearranges (core : α → β) (heap after : List α) : Prop where
  length : after.length = heap.length
  perm : (after.map core).Perm (heap.map core)

/-- A heap rearranges itself. -/
theorem Rearranges.refl (heap : List α) : Rearranges core heap heap := ⟨rfl, List.Perm.refl _⟩

/-- Two rearrangements, one after the other. -/
theorem Rearranges.trans {heap middle after : List α} (first : Rearranges core heap middle)
    (second : Rearranges core middle after) : Rearranges core heap after :=
  ⟨second.length.trans first.length, second.perm.trans first.perm⟩

/-- An exchange of two elements is a rearrangement. -/
theorem exchange_rearranges (corePlace : ∀ i element, core (place i element) = core element)
    {heap : List α} {i j : ℕ} {first second : α} (foundFirst : heap[i]? = some first)
    (foundSecond : heap[j]? = some second) :
    Rearranges core heap ((heap.set i (place i second)).set j (place j first)) := by
  obtain ⟨insideFirst, rfl⟩ := List.getElem?_eq_some_iff.mp foundFirst
  obtain ⟨insideSecond, rfl⟩ := List.getElem?_eq_some_iff.mp foundSecond
  refine ⟨by simp, ?_⟩
  rw [List.map_set, List.map_set, corePlace, corePlace]
  have exchanged := @List.set_set_perm β (heap.map core) i j (by simpa using insideFirst)
    (by simpa using insideSecond)
  simpa using exchanged

/-- The child that `minChild` chooses. -/
theorem minChild_least (key : α → P) (fallback : α) {size left : ℕ} {heap : List α}
    (inside : left < size) (within : size ≤ heap.length) :
    ∃ child, minChild key size left heap = some child ∧ (child = left ∨ child = left + 1) ∧
      child < size ∧ keysOf key fallback heap child ≤ keysOf key fallback heap left ∧
      (left + 1 < size →
        keysOf key fallback heap child ≤ keysOf key fallback heap (left + 1)) := by
  have foundLeft : heap[left]? = some heap[left] := List.getElem?_eq_getElem (by omega)
  unfold minChild
  by_cases both : left + 1 < size
  · have foundRight : heap[left + 1]? = some heap[left + 1] := List.getElem?_eq_getElem (by omega)
    rw [if_pos both, foundRight, foundLeft]
    by_cases smaller : key heap[left + 1] < key heap[left]
    · refine ⟨left + 1, by simp [smaller], Or.inr rfl, both, ?_, fun _ => le_refl _⟩
      rw [keysOf_some foundRight, keysOf_some foundLeft]
      exact le_of_lt smaller
    · refine ⟨left, by simp [smaller], Or.inl rfl, inside, le_refl _, ?_⟩
      intro _
      rw [keysOf_some foundRight, keysOf_some foundLeft]
      exact not_lt.mp smaller
  · rw [if_neg both]
    exact ⟨left, rfl, Or.inl rfl, inside, le_refl _, fun right => absurd right both⟩

/-- One iteration of moving an element down. -/
theorem percolateDown_step {size index child : ℕ} {heap : List α} {element lower : α}
    (inner : 2 * index + 1 < size)
    (chosen : minChild key size (2 * index + 1) heap = some child)
    (found : heap[index]? = some element) (foundLower : heap[child]? = some lower) :
    percolateDown key place size index heap =
      if key element ≤ key lower then some heap
      else percolateDown key place size child
        ((heap.set index (place index lower)).set child (place child element)) := by
  rw [percolateDown, if_neg (Nat.not_le.mpr inner)]
  split
  · rename_i nothing
    rw [chosen] at nothing
    cases nothing
  · rename_i other alsoChosen
    obtain rfl := Option.some.inj (chosen.symm.trans alsoChosen)
    rw [found, foundLower]

section Laws

/-- Telling an element its position changes neither its key nor its core. -/
structure Placing (key : α → P) (place : ℕ → α → α) (core : α → β) : Prop where
  keepsKey : ∀ i element, key (place i element) = key element
  keepsCore : ∀ i element, core (place i element) = core element

variable (placing : Placing key place core)

include placing

/-- Moving an element down restores the order. -/
theorem percolateDown_ordered {size low : ℕ} (index : ℕ) (heap : List α) (inside : index < size)
    (within : size ≤ heap.length) (high : low ≤ index)
    (sinking : Sinking (keysOf key fallback heap) size low index) :
    ∃ after, percolateDown key place size index heap = some after ∧
      Rearranges core heap after ∧ OrderedFrom (keysOf key fallback after) size low := by
  induction remaining : size - index using Nat.strongRecOn generalizing index heap with
  | _ remaining inductionHypothesis =>
    by_cases inner : 2 * index + 1 < size
    · obtain ⟨child, chosen, side, childInside, leastLeft, leastRight⟩ :=
        minChild_least key fallback inner within
      have below : parent child = index := (parent_eq_iff (by omega)).mpr side
      have least : ∀ i, 0 < i → i < size → parent i = index →
          keysOf key fallback heap child ≤ keysOf key fallback heap i := by
        intro i positive iInside childOf
        rcases (parent_eq_iff positive).mp childOf with rfl | rfl
        · exact leastLeft
        · exact leastRight iInside
      have found : heap[index]? = some heap[index] := List.getElem?_eq_getElem (by omega)
      have foundLower : heap[child]? = some heap[child] := List.getElem?_eq_getElem (by omega)
      rw [percolateDown_step inner chosen found foundLower]
      split
      · rename_i settled
        refine ⟨heap, rfl, Rearranges.refl heap, sinking.finish ?_⟩
        intro i positive iInside childOf
        have smaller := least i positive iInside childOf
        rw [keysOf_some foundLower] at smaller
        rw [keysOf_some found]
        exact le_trans settled smaller
      · rename_i larger
        have moved := exchange_rearranges placing.keepsCore found foundLower
        have exchanged : Sinking (keysOf key fallback
            ((heap.set index (place index heap[child])).set child (place child heap[index])))
            size low child := by
          rw [keysOf_exchange placing.keepsKey found foundLower]
          refine sinking.exchange high (by omega) childInside below least ?_
          rw [keysOf_some found, keysOf_some foundLower]
          exact le_of_lt (not_le.mp larger)
        obtain ⟨after, reached, rearranges, ordered⟩ :=
          inductionHypothesis (size - child) (by omega) child _ childInside
            (by rw [moved.length]; exact within) (by omega) exchanged rfl
        exact ⟨after, reached, moved.trans rearranges, ordered⟩
    · refine ⟨heap, ?_, Rearranges.refl heap, sinking.finish ?_⟩
      · rw [percolateDown, if_pos (Nat.not_lt.mp inner)]
      · intro i positive iInside childOf
        rcases (parent_eq_iff positive).mp childOf with rfl | rfl <;> omega

/-- Moving an element up leaves it at a place from which it can only move down. -/
theorem percolateUp_sinking {size : ℕ} (index : ℕ) (heap : List α) (inside : index < size)
    (within : size ≤ heap.length)
    (disturbed : Disturbed (keysOf key fallback heap) size 0 index) :
    ∃ top after, percolateUp key place index heap = some (top, after) ∧ top < size ∧
      Rearranges core heap after ∧ Sinking (keysOf key fallback after) size 0 top := by
  induction index using Nat.strongRecOn generalizing heap with
  | _ index inductionHypothesis =>
    rw [percolateUp]
    by_cases root : index = 0
    · rw [if_pos root]
      refine ⟨index, heap, rfl, inside, Rearranges.refl heap, disturbed, ?_⟩
      intro positive
      omega
    · have higher : parent index < index := parent_lt (by omega)
      have found : heap[index]? = some heap[index] := List.getElem?_eq_getElem (by omega)
      have foundParent : heap[parent index]? = some heap[parent index] :=
        List.getElem?_eq_getElem (by omega)
      have foundHigher : heap[(index - 1) / 2]? = some heap[parent index] := foundParent
      rw [if_neg root, found, foundHigher]
      dsimp only
      split
      · rename_i settled
        refine ⟨index, heap, rfl, inside, Rearranges.refl heap, disturbed, ?_⟩
        intro _ _
        rw [keysOf_some found, keysOf_some foundParent]
        exact settled
      · have moved := exchange_rearranges placing.keepsCore found foundParent
        have exchanged : Disturbed (keysOf key fallback ((heap.set index
            (place index heap[parent index])).set (parent index)
              (place (parent index) heap[index]))) size 0 (parent index) := by
          rw [keysOf_exchange placing.keepsKey found foundParent]
          exact disturbed.exchange (by omega) inside
        obtain ⟨top, after, reached, topInside, rearranges, sinking⟩ :=
          inductionHypothesis (parent index) higher _ (by omega)
            (by rw [moved.length]; exact within) exchanged
        exact ⟨top, after, reached, topInside, moved.trans rearranges, sinking⟩

/-- Building from a position down restores the order of the whole heap. -/
theorem build_ordered {size : ℕ} (index : ℕ) (heap : List α) (inside : index < size)
    (within : size ≤ heap.length)
    (ordered : OrderedFrom (keysOf key fallback heap) size (index + 1)) :
    ∃ after, build key place size index heap = some after ∧
      Rearranges core heap after ∧ OrderedFrom (keysOf key fallback after) size 0 := by
  induction index generalizing heap with
  | zero =>
    exact percolateDown_ordered placing 0 heap inside within (Nat.le_refl _)
      ordered.sinking
  | succ index inductionHypothesis =>
    obtain ⟨middle, reached, rearranges, middleOrdered⟩ :=
      percolateDown_ordered placing (index + 1) heap inside within (Nat.le_refl _)
        ordered.sinking
    obtain ⟨after, built, later, done⟩ := inductionHypothesis middle (by omega)
      (by rw [rearranges.length]; exact within) middleOrdered
    refine ⟨after, ?_, rearranges.trans later, done⟩
    rw [build, reached]
    exact built

end Laws

end Arrays

end AvalancheParallel.BinaryHeap
