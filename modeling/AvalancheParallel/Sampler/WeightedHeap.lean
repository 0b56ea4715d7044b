import AvalancheParallel.Foundation.BinaryHeap
import AvalancheParallel.Sampler.Weighted
import Mathlib.Algebra.Order.BigOperators.Group.List
import Mathlib.Data.Fintype.Order
import Mathlib.Order.BoundedOrder.Basic

/-!
# The heap of weights

`weightedHeap` of `pkg/utils/sampler/weighted_heap_fixed.go`. `Initialize` scales the weights
to the range of `uint64` and stores them with their running totals; `Sample` draws the
elements in the order of their priorities. Floating-point numbers occur in the scaling and in
the priorities only. Priorities are taken from a linear order whose largest element is the
infinity, and what the floating-point operations give is a parameter.

The scaled weights of proper weights add up to `2^64`, and the check for an overflow
refuses them.
-/

namespace AvalancheParallel.Sampler

open AvalancheParallel.BinaryHeap

/-- What the floating-point operations give: the scaled weights of a list, the priority for a
running total and a weight, and zero. -/
structure Floats (P : Type) where
  scaled : List UInt64 → List UInt64
  length_scaled : ∀ weights, (scaled weights).length = weights.length
  power : UInt64 → UInt64 → P
  zero : P

/-- `weightedElement`. -/
structure WeightedElement (P : Type) where
  initialIndex : ℕ
  weight : UInt64
  cumulativeSum : UInt64
  drawIndex : ℤ
  priority : P

/-- `weightedHeap`. -/
structure WeightedHeap (P : Type) where
  heap : List (WeightedElement P)
  numWeights : ℕ

variable {P : Type} (f : Floats P)

/-- The element learns its position. -/
def WeightedElement.place (index : ℕ) (element : WeightedElement P) : WeightedElement P :=
  { element with drawIndex := index }

namespace WeightedHeap

/-- The loop in `Initialize` over the scaled weights. The elements after one that overflows are
zero values. -/
def fill : ℕ → UInt64 → List UInt64 → List (WeightedElement P) × Option SamplerError
  | _, _, [] => ([], none)
  | i, cumSum, scaledWeight :: rest =>
    let element := ⟨i, scaledWeight, cumSum, -1, f.zero⟩
    let newSum := cumSum + scaledWeight
    if newSum < cumSum then
      (element :: List.replicate rest.length ⟨0, 0, 0, 0, f.zero⟩, some .weightOverflow)
    else
      let later := fill (i + 1) newSum rest
      (element :: later.1, later.2)

variable [LinearOrder P] [OrderTop P]

/-- The new priority of an element in `reset`. -/
def resetElement (i : ℕ) (element : WeightedElement P) : WeightedElement P :=
  if element.drawIndex < 0 then { element with priority := ⊤ }
  else
    { element with
      priority := if 0 < element.weight then f.power element.cumulativeSum element.weight else ⊤
      drawIndex := i }

/-- `reset`; `none` is a panic. -/
def reset (s : WeightedHeap P) : Option (WeightedHeap P) :=
  let numWeights := s.heap.length
  if numWeights = 0 then some ⟨s.heap, numWeights⟩
  else
    match build WeightedElement.priority WeightedElement.place numWeights ((numWeights - 1) / 2)
      (s.heap.mapIdx (resetElement f)) with
    | none => none
    | some heap => some ⟨heap, numWeights⟩

/-- `Initialize` with its error; `none` is a panic. -/
def initializeWith (weights : List UInt64) (s : WeightedHeap P) :
    Option (WeightedHeap P × Option SamplerError) :=
  let numWeights := weights.length
  if numWeights = 0 then some (⟨s.heap, numWeights⟩, some .noEligibleSamples)
  else
    match fill f 0 0 (f.scaled weights) with
    | (heap, some error) => some (⟨heap, numWeights⟩, some error)
    | (heap, none) =>
      match reset f ⟨heap, numWeights⟩ with
      | none => none
      | some after => some (after, none)

/-- `rebalance`; `none` is a panic. -/
def rebalance (index : ℕ) (s : WeightedHeap P) : Option (WeightedHeap P) :=
  match percolateUp WeightedElement.priority WeightedElement.place index s.heap with
  | none => none
  | some (top, heap) =>
    match percolateDown WeightedElement.priority WeightedElement.place s.numWeights top heap with
    | none => none
    | some heap => some ⟨heap, s.numWeights⟩

/-- `Update` with the old weight and its error; `none` is a panic. -/
def updateIndex (index : ℤ) (weight : UInt64) (s : WeightedHeap P) :
    Option (WeightedHeap P × UInt64 × Option SamplerError) :=
  if index < 0 ∨ s.numWeights ≤ index then some (s, 0, some .indexOutOfRange)
  else
    match s.heap[index.toNat]? with
    | none => none
    | some elt =>
      if elt.drawIndex < 0 then some (s, elt.weight, some .elementRemoved)
      else
        match s.heap[elt.drawIndex.toNat]? with
        | none => none
        | some drawn =>
          match rebalance elt.drawIndex.toNat
            ⟨s.heap.set elt.drawIndex.toNat { drawn with weight := weight }, s.numWeights⟩ with
          | none => none
          | some after => some (after, elt.weight, none)

/-- `Remove` with its error; `none` is a panic. -/
def remove (index : ℤ) (s : WeightedHeap P) : Option (WeightedHeap P × Option SamplerError) :=
  if index < 0 ∨ s.numWeights ≤ index then some (s, some .indexOutOfRange)
  else
    match s.heap[index.toNat]? with
    | none => none
    | some elt =>
      if elt.drawIndex < 0 then some (s, some .elementRemoved)
      else
        match s.heap[elt.drawIndex.toNat]? with
        | none => none
        | some drawn =>
          some (⟨s.heap.set elt.drawIndex.toNat { drawn with drawIndex := -1 }, s.numWeights⟩, none)

/-- `update`; `none` is a panic. The first and the last element are exchanged, and the heap gets
one position shorter unless it has only one. -/
def update (s : WeightedHeap P) : Option (WeightedHeap P) :=
  match s.heap[0]? with
  | none => none
  | some first =>
    let element := { first with drawIndex := -1 }
    let max := s.heap.length - 1
    match (s.heap.set 0 element)[max]? with
    | none => none
    | some last =>
      let heap := (s.heap.set 0 last).set max element
      let numWeights := s.numWeights - 1
      if numWeights = 0 then some ⟨heap, numWeights⟩
      else
        match percolateDown WeightedElement.priority WeightedElement.place numWeights 0
          (heap.take numWeights) with
        | none => none
        | some heap => some ⟨heap, numWeights⟩

/-- One iteration of the loop in `Sample`. The error of `Remove` is ignored. -/
def draw (s : WeightedHeap P) : Option (ℕ × WeightedHeap P) :=
  match s.update with
  | none => none
  | some updated =>
    match updated.heap[0]? with
    | none => none
    | some element =>
      match updated.remove element.initialIndex with
      | none => none
      | some (after, _) => some (element.initialIndex, after)

/-- The loop in `Sample`. -/
def draws : ℕ → WeightedHeap P → Option (List ℕ × WeightedHeap P)
  | 0, s => some ([], s)
  | numSamples + 1, s =>
    match s.draw with
    | none => none
    | some (index, after) =>
      match draws numSamples after with
      | none => none
      | some (indices, last) => some (index :: indices, last)

/-- `Sample`; `none` is a panic. -/
def sample (numSamples : ℤ) (s : WeightedHeap P) :
    Option (Except SamplerError (List ℕ) × WeightedHeap P) :=
  if numSamples ≤ 0 then some (.ok [], s)
  else if s.numWeights < numSamples then
    some (.error (.tooManyElements s.numWeights numSamples), s)
  else
    match s.draws numSamples.toNat with
    | none => none
    | some (indices, after) =>
      match reset f after with
      | none => none
      | some last => some (.ok indices, last)

/-- The error of `Initialize` on the new heap that `weightedHeapSampler` makes. -/
def heapError (weights : List UInt64) : Option SamplerError :=
  (initializeWith f weights ⟨[], 0⟩).bind Prod.snd

omit [LinearOrder P] [OrderTop P] in
/-- Scaled weights that add up to `2^64` are refused when the last of them is added: the running
total wraps to zero. -/
theorem fill_overflows (i : ℕ) {cumSum : UInt64} {scaled : List UInt64}
    (positive : ∀ weight ∈ scaled, 0 < weight.toNat)
    (started : 0 < cumSum.toNat ∨ 2 ≤ scaled.length) (nonempty : scaled ≠ [])
    (full : cumSum.toNat + weightSum scaled = 2 ^ 64) :
    (fill f i cumSum scaled).2 = some .weightOverflow := by
  induction scaled generalizing i cumSum with
  | nil => exact absurd rfl nonempty
  | cons weight rest inductionHypothesis =>
    have sum : weightSum (weight :: rest) = weight.toNat + weightSum rest := by simp [weightSum]
    have here := positive weight List.mem_cons_self
    have added : (cumSum + weight).toNat = (cumSum.toNat + weight.toNat) % 2 ^ 64 :=
      UInt64.toNat_add cumSum weight
    rw [fill]
    cases rest with
    | nil =>
      have alone : 0 < cumSum.toNat := by
        rcases started with before | several
        · exact before
        · simp at several
      have wraps : cumSum + weight < cumSum := by
        have whole : cumSum.toNat + weight.toNat = 2 ^ 64 := by
          simpa [weightSum] using full
        rw [UInt64.lt_iff_toNat_lt, added, whole, Nat.mod_self]
        exact alone
      rw [if_pos wraps]
    | cons second others =>
      have later : 0 < weightSum (second :: others) := by
        have next := positive second (List.mem_cons_of_mem _ List.mem_cons_self)
        simp only [weightSum, List.map_cons, List.sum_cons]
        omega
      have exactly : (cumSum + weight).toNat = cumSum.toNat + weight.toNat := by
        rw [added, Nat.mod_eq_of_lt (by omega)]
      have fits : ¬ cumSum + weight < cumSum := by
        rw [UInt64.lt_iff_toNat_lt, exactly]
        omega
      rw [if_neg fits]
      apply inductionHypothesis (i + 1)
      · intro other member
        exact positive other (List.mem_cons_of_mem _ member)
      · exact Or.inl (by omega)
      · exact List.cons_ne_nil second others
      · rw [exactly]
        omega

/-- An overflow while the elements are made is returned. -/
theorem initializeWith_of_overflow {weights : List UInt64} (nonempty : weights ≠ [])
    (overflows : (fill f 0 0 (f.scaled weights)).2 = some .weightOverflow) (s : WeightedHeap P) :
    ∃ after, initializeWith f weights s = some (after, some .weightOverflow) := by
  have counted : ¬ weights.length = 0 := by simpa using nonempty
  cases filled : fill f 0 0 (f.scaled weights) with
  | mk heap error =>
    rw [filled] at overflows
    obtain rfl : error = some .weightOverflow := overflows
    refine ⟨⟨heap, weights.length⟩, ?_⟩
    simp only [initializeWith, counted, if_false, filled]

end WeightedHeap

/-- The scaled weights when every floating-point operation is exact. -/
def exactScaled (weights : List UInt64) : List UInt64 :=
  weights.map (fun weight => UInt64.ofNat (weight.toNat * 2 ^ 64 / weightSum weights))

/-- The operations of floating-point numbers with an exact scaling. -/
def exactFloats (power : UInt64 → UInt64 → P) (zero : P) : Floats P where
  scaled := exactScaled
  length_scaled weights := by simp [exactScaled]
  power := power
  zero := zero

/-- No weight exceeds the sum. -/
theorem toNat_le_weightSum {weights : List UInt64} {weight : UInt64} (member : weight ∈ weights) :
    weight.toNat ≤ weightSum weights :=
  List.le_sum_of_mem (List.mem_map_of_mem member)

/-- One of several positive weights is smaller than their sum. -/
theorem toNat_lt_weightSum {weights : List UInt64} (several : 2 ≤ weights.length)
    (positive : ∀ weight ∈ weights, 0 < weight.toNat) {weight : UInt64}
    (member : weight ∈ weights) : weight.toNat < weightSum weights := by
  match weights, several with
  | first :: second :: rest, _ =>
    have one := positive first List.mem_cons_self
    have two := positive second (List.mem_cons_of_mem _ List.mem_cons_self)
    rcases List.mem_cons.mp member with rfl | later
    · simp only [weightSum, List.map_cons, List.sum_cons]
      omega
    · have below := toNat_le_weightSum later
      simp only [weightSum, List.map_cons, List.sum_cons] at below ⊢
      omega

/-- The exact scaling of several positive weights with a power of two as their sum. -/
theorem toNat_exactScaled {weights : List UInt64} (several : 2 ≤ weights.length)
    (positive : ∀ weight ∈ weights, 0 < weight.toNat) {exponent : ℕ} (small : exponent ≤ 52)
    (sum : weightSum weights = 2 ^ exponent) :
    (exactScaled weights).map UInt64.toNat =
      weights.map (fun weight => weight.toNat * 2 ^ (64 - exponent)) := by
  have split : 2 ^ 64 = 2 ^ (64 - exponent) * 2 ^ exponent := by
    rw [← Nat.pow_add]
    congr 1
    omega
  rw [exactScaled, List.map_map]
  apply List.map_congr_left
  intro weight member
  have below := toNat_lt_weightSum several positive member
  rw [sum] at below
  have scaled : weight.toNat * 2 ^ 64 / weightSum weights = weight.toNat * 2 ^ (64 - exponent) := by
    rw [sum, split, ← Nat.mul_assoc, Nat.mul_div_cancel _ (Nat.two_pow_pos exponent)]
  have fits : weight.toNat * 2 ^ (64 - exponent) < 2 ^ 64 := by
    rw [split, Nat.mul_comm (2 ^ (64 - exponent))]
    exact Nat.mul_lt_mul_of_pos_right below (Nat.two_pow_pos _)
  rw [Function.comp_apply, scaled]
  exact UInt64.toNat_ofNat_of_lt' fits

variable [LinearOrder P] [OrderTop P]

/-- Several positive weights whose sum is a power of two up to `2^52` are refused, whatever they
are: scaled exactly they add up to `2^64`. -/
theorem proper_weights_refused (power : UInt64 → UInt64 → P) (zero : P) (s : WeightedHeap P)
    (sampler : WeightedHeapSampler) (weights : List UInt64) (several : 2 ≤ weights.length)
    (positive : ∀ weight ∈ weights, 0 < weight) (exponent : ℕ) (small : exponent ≤ 52)
    (sum : weightSum weights = 2 ^ exponent) :
    (∃ after, s.initializeWith (exactFloats power zero) weights =
      some (after, some .weightOverflow)) ∧
      (sampler.initializeWith (WeightedHeap.heapError (exactFloats power zero)) weights).2 =
        some .weightOverflow := by
  have nonempty : weights ≠ [] := by
    rintro rfl
    simp at several
  have heavy : ∀ weight ∈ weights, 0 < weight.toNat :=
    fun weight member => UInt64.lt_iff_toNat_lt.mp (positive weight member)
  have values := toNat_exactScaled several heavy small sum
  have overflows : (WeightedHeap.fill (exactFloats power zero) 0 0
      ((exactFloats power zero).scaled weights)).2 = some .weightOverflow := by
    apply WeightedHeap.fill_overflows
    · intro scaled member
      have listed : scaled.toNat ∈ (exactScaled weights).map UInt64.toNat :=
        List.mem_map_of_mem member
      rw [values] at listed
      obtain ⟨weight, inside, same⟩ := List.mem_map.mp listed
      rw [← same]
      exact Nat.mul_pos (heavy weight inside) (Nat.two_pow_pos _)
    · exact Or.inr (by rw [(exactFloats power zero).length_scaled]; exact several)
    · intro none
      have count := (exactFloats power zero).length_scaled weights
      rw [none, List.length_nil] at count
      omega
    · change (0 : UInt64).toNat + ((exactScaled weights).map UInt64.toNat).sum = 2 ^ 64
      have total : (weights.map (fun weight => weight.toNat * 2 ^ (64 - exponent))).sum =
          weightSum weights * 2 ^ (64 - exponent) := by
        rw [List.sum_map_mul_right]
        rfl
      rw [values, total, sum, ← Nat.pow_add, UInt64.toNat_zero, Nat.zero_add]
      congr 1
      omega
  refine ⟨WeightedHeap.initializeWith_of_overflow _ nonempty overflows s, ?_⟩
  obtain ⟨after, refused⟩ := WeightedHeap.initializeWith_of_overflow _ nonempty overflows ⟨[], 0⟩
  rw [WeightedHeapSampler.initializeWith, if_neg (by simpa using nonempty)]
  rw [WeightedHeap.heapError, refused]
  rfl

/-- The weights one, one, two, four and eight. -/
theorem powers_of_two_refused :
    ∃ after : WeightedHeap Bool, WeightedHeap.initializeWith (exactFloats (fun _ _ => true) false)
      [1, 1, 2, 4, 8] ⟨[], 0⟩ = some (after, some .weightOverflow) :=
  (proper_weights_refused (fun _ _ => true) false ⟨[], 0⟩ (.table []) [1, 1, 2, 4, 8] (by decide)
    (by simp) 4 (by decide) (by decide)).1

/-- Two equal weights are not accepted. -/
theorem equal_weights_not_accepted :
    ¬ ∃ after : WeightedHeap Bool,
      WeightedHeap.initializeWith (exactFloats (fun _ _ => true) false) [1, 1] ⟨[], 0⟩ =
        some (after, none) := by
  rintro ⟨after, accepted⟩
  cases accepted

end AvalancheParallel.Sampler
