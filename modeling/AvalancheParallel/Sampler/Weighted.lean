import AvalancheParallel.Foundation.EarlyExits
import AvalancheParallel.Sampler.Uniform

/-!
# The weighted sampler

`weightedHeapSampler` of `pkg/utils/sampler/weighted.go`, which `NewWeightedBest` returns.
`Initialize` tabulates the running totals of the weights, and `Sample` finds by binary
search the index whose share of the total contains the sampled value. The heap that
`Initialize` also fills is used by no other method; what its initialization with
floating-point numbers returns is a parameter.

`Picks` says which index a value belongs to. As long as the weights do not overflow
`uint64`, `Sample` returns this index for every value below the total.
-/

namespace AvalancheParallel.Sampler

open AvalancheParallel.EarlyExits

/-- `weightedHeapSampler`, without the fields that its methods only write. -/
structure WeightedHeapSampler where
  numWeights : ℕ
  totalWeight : UInt64
  weights : List UInt64
  cumulativeSum : List UInt64
deriving DecidableEq

/-- The running totals of a list of weights, from a total on. -/
def accumulate : UInt64 → List UInt64 → List UInt64
  | _, [] => []
  | totalWeight, weight :: rest => (totalWeight + weight) :: accumulate (totalWeight + weight) rest

/-- The total of a list of weights. -/
def totalWeight (weights : List UInt64) : UInt64 := weights.foldl (· + ·) 0

namespace WeightedHeapSampler

/-- What `Initialize` stores for a list of weights. -/
def table (weights : List UInt64) : WeightedHeapSampler where
  numWeights := weights.length
  totalWeight := Sampler.totalWeight weights
  weights := weights
  cumulativeSum := accumulate 0 weights

/-- `Initialize`, with the error of `weightedHeap.Initialize`. -/
def initializeWith (heap : List UInt64 → Option SamplerError) (weights : List UInt64)
    (s : WeightedHeapSampler) : WeightedHeapSampler × Option SamplerError :=
  if weights.length = 0 then ({ s with numWeights := 0 }, some .noEligibleSamples)
  else (table weights, heap weights)

/-- `Sample`: the inner `none` is a value outside of the total, the outer one a panic. -/
def sample (sampleValue : UInt64) (s : WeightedHeapSampler) : Option (Option ℕ) :=
  if s.totalWeight = 0 ∨ s.totalWeight ≤ sampleValue then some none
  else
    match search (fun mid => (s.cumulativeSum[mid]?).map (fun sum => decide (sum ≤ sampleValue)))
      (s.numWeights + 1) 0 s.numWeights with
    | none => none
    | some low => some (some low)

end WeightedHeapSampler

/-- The sum of the weights before an index. -/
def weightBefore (weights : List UInt64) (index : ℕ) : ℕ :=
  ((weights.take index).map UInt64.toNat).sum

/-- The sum of all weights, which may be too large for `uint64`. -/
def weightSum (weights : List UInt64) : ℕ := (weights.map UInt64.toNat).sum

/-- The value belongs to the share of the index. -/
def Picks (weights : List UInt64) (value index : ℕ) : Prop :=
  weightBefore weights index ≤ value ∧ value < weightBefore weights (index + 1)

/-- The first weight comes before all later positions. -/
theorem weightBefore_cons_succ (weight : UInt64) (rest : List UInt64) (index : ℕ) :
    weightBefore (weight :: rest) (index + 1) = weight.toNat + weightBefore rest index := by
  simp [weightBefore]

/-- Before the end comes the whole sum. -/
theorem weightBefore_length (weights : List UInt64) :
    weightBefore weights weights.length = weightSum weights := by
  simp [weightBefore, weightSum]

/-- Each position adds its weight. -/
theorem weightBefore_succ {weights : List UInt64} {index : ℕ} {weight : UInt64}
    (here : weights[index]? = some weight) :
    weightBefore weights (index + 1) = weightBefore weights index + weight.toNat := by
  simp [weightBefore, List.take_add_one, here]

/-- No less weight comes before a later position. -/
theorem weightBefore_mono (weights : List UInt64) {first second : ℕ} (ordered : first ≤ second) :
    weightBefore weights first ≤ weightBefore weights second := by
  unfold weightBefore
  rw [← List.take_append_drop first (weights.take second), List.take_take, min_eq_left ordered]
  simp

/-- Every value below the sum belongs to an index. -/
theorem exists_picks {weights : List UInt64} {value : ℕ} (below : value < weightSum weights) :
    ∃ index < weights.length, Picks weights value index := by
  induction weights generalizing value with
  | nil => simp [weightSum] at below
  | cons weight rest inductionHypothesis =>
    by_cases first : value < weight.toNat
    · exact ⟨0, by simp, by simp [Picks, weightBefore, first]⟩
    · have remains : value - weight.toNat < weightSum rest := by
        simp only [weightSum, List.map_cons, List.sum_cons] at below ⊢
        omega
      obtain ⟨index, inside, picks⟩ := inductionHypothesis remains
      refine ⟨index + 1, by simpa using inside, ?_⟩
      simp only [Picks, weightBefore_cons_succ] at picks ⊢
      omega

/-- An index to which a value belongs has a positive weight. -/
theorem Picks.weight {weights : List UInt64} {value index : ℕ} (picks : Picks weights value index) :
    ∃ weight, weights[index]? = some weight ∧ 0 < weight.toNat := by
  cases here : weights[index]? with
  | none =>
    have past : weights.length ≤ index := List.getElem?_eq_none_iff.mp here
    have same : weightBefore weights (index + 1) = weightBefore weights index := by
      simp [weightBefore, List.take_of_length_le past,
        List.take_of_length_le (Nat.le_succ_of_le past)]
    have bounds := picks
    simp only [Picks, same] at bounds
    omega
  | some weight =>
    refine ⟨weight, rfl, ?_⟩
    have bounds := picks
    simp only [Picks, weightBefore_succ here] at bounds
    omega

/-- A value belongs to one index only. -/
theorem Picks.unique {weights : List UInt64} {value first second : ℕ}
    (one : Picks weights value first) (other : Picks weights value second) : first = second := by
  by_contra different
  rcases Nat.lt_or_gt_of_ne different with less | greater
  · exact absurd (one.2.trans_le (weightBefore_mono weights less)) (Nat.not_lt.mpr other.1)
  · exact absurd (other.2.trans_le (weightBefore_mono weights greater)) (Nat.not_lt.mpr one.1)

/-- The loop over the weights adds them up, without overflow. -/
theorem toNat_foldl_add (start : UInt64) {weights : List UInt64}
    (bounded : start.toNat + weightSum weights < 2 ^ 64) :
    (weights.foldl (· + ·) start).toNat = start.toNat + weightSum weights := by
  induction weights generalizing start with
  | nil => simp [weightSum]
  | cons weight rest inductionHypothesis =>
    simp only [weightSum, List.map_cons, List.sum_cons] at bounded inductionHypothesis ⊢
    have added : (start + weight).toNat = start.toNat + weight.toNat := by
      rw [UInt64.toNat_add]
      exact Nat.mod_eq_of_lt (by omega)
    rw [List.foldl_cons, inductionHypothesis (start + weight) (by omega), added]
    omega

/-- The total weight is the sum, without overflow. -/
theorem toNat_totalWeight {weights : List UInt64} (bounded : weightSum weights < 2 ^ 64) :
    (totalWeight weights).toNat = weightSum weights := by
  have summed := toNat_foldl_add 0 (by simpa using bounded)
  simpa [totalWeight] using summed

/-- The running total at an index is the weight up to and with this index. -/
theorem accumulate_getElem? (start : UInt64) {weights : List UInt64}
    (bounded : start.toNat + weightSum weights < 2 ^ 64) {index : ℕ}
    (inside : index < weights.length) :
    ∃ sum, (accumulate start weights)[index]? = some sum ∧
      sum.toNat = start.toNat + weightBefore weights (index + 1) := by
  induction weights generalizing start index with
  | nil => simp at inside
  | cons weight rest inductionHypothesis =>
    simp only [weightSum, List.map_cons, List.sum_cons] at bounded inductionHypothesis
    have added : (start + weight).toNat = start.toNat + weight.toNat := by
      rw [UInt64.toNat_add]
      exact Nat.mod_eq_of_lt (by omega)
    cases index with
    | zero => exact ⟨start + weight, rfl, by simp [added, weightBefore]⟩
    | succ index =>
      obtain ⟨sum, here, value⟩ :=
        inductionHypothesis (start + weight) (by omega) (by simpa using inside)
      refine ⟨sum, here, ?_⟩
      rw [value, added, weightBefore_cons_succ]
      omega

namespace WeightedHeapSampler

/-- Every value below the sum gets the index it belongs to. -/
theorem sample_table {weights : List UInt64} (bounded : weightSum weights < 2 ^ 64)
    {sampleValue : UInt64} {index : ℕ} (picks : Picks weights sampleValue.toNat index) :
    (table weights).sample sampleValue = some (some index) := by
  obtain ⟨weight, here, _⟩ := picks.weight
  have inside : index < weights.length := (List.getElem?_eq_some_iff.mp here).1
  have total := toNat_totalWeight bounded
  have below : sampleValue.toNat < weightSum weights := by
    rw [← weightBefore_length]
    exact Nat.lt_of_lt_of_le picks.2 (weightBefore_mono weights inside)
  have within :
      ¬ ((table weights).totalWeight = 0 ∨ (table weights).totalWeight ≤ sampleValue) := by
    rw [UInt64.le_iff_toNat_le, ← UInt64.toNat_inj]
    simp only [table, total, UInt64.toNat_zero]
    omega
  have probe : ∀ position < weights.length,
      ((table weights).cumulativeSum[position]?).map (fun sum => decide (sum ≤ sampleValue)) =
        some (decide (weightBefore weights (position + 1) ≤ sampleValue.toNat)) := by
    intro position short
    obtain ⟨sum, found, value⟩ := accumulate_getElem? 0 (by simpa using bounded) short
    simp only [UInt64.toNat_zero, Nat.zero_add] at value
    simp only [table, found, Option.map_some, UInt64.le_iff_toNat_le, value]
  have right : ∀ position, 0 ≤ position → position < index →
      ((table weights).cumulativeSum[position]?).map (fun sum => decide (sum ≤ sampleValue)) =
        some true := by
    intro position _ short
    rw [probe position (by omega), decide_eq_true]
    exact (weightBefore_mono weights short).trans picks.1
  have left : ∀ position, index ≤ position → position < weights.length →
      ((table weights).cumulativeSum[position]?).map (fun sum => decide (sum ≤ sampleValue)) =
        some false := by
    intro position past short
    rw [probe position short, decide_eq_false]
    exact Nat.not_le.mpr (Nat.lt_of_lt_of_le picks.2
      (weightBefore_mono weights (Nat.succ_le_succ past)))
  have searched := search_eq _ 0 (Nat.lt_succ_self weights.length) (Nat.zero_le index) inside.le
    right left
  rw [sample, if_neg within]
  simp only [table] at searched ⊢
  rw [searched]

/-- All values are refused when the total is zero. -/
theorem sample_of_zero {s : WeightedHeapSampler} (zero : s.totalWeight = 0) (sampleValue : UInt64) :
    s.sample sampleValue = some none := by
  rw [sample, if_pos (Or.inl zero)]

/-- Values from the sum on are refused. -/
theorem sample_table_of_le {weights : List UInt64} (bounded : weightSum weights < 2 ^ 64)
    {sampleValue : UInt64} (outside : weightSum weights ≤ sampleValue.toNat) :
    (table weights).sample sampleValue = some none := by
  have total : (table weights).totalWeight ≤ sampleValue := by
    rw [UInt64.le_iff_toNat_le]
    exact (toNat_totalWeight bounded).trans_le outside
  rw [sample, if_pos (Or.inr total)]

/-- The index that is returned is the one the value belongs to. -/
theorem sample_table_iff {weights : List UInt64} (bounded : weightSum weights < 2 ^ 64)
    (sampleValue : UInt64) (index : ℕ) :
    (table weights).sample sampleValue = some (some index) ↔
      Picks weights sampleValue.toNat index := by
  constructor
  · intro returned
    by_cases below : sampleValue.toNat < weightSum weights
    · obtain ⟨other, _, picks⟩ := exists_picks below
      rw [sample_table bounded picks] at returned
      obtain rfl := Option.some.inj (Option.some.inj returned)
      exact picks
    · rw [sample_table_of_le bounded (Nat.not_lt.mp below)] at returned
      cases Option.some.inj returned
  · exact sample_table bounded

/-- The number of values for which an index is returned. -/
def valuesFor (s : WeightedHeapSampler) (index : ℕ) : ℕ :=
  ((Finset.range (2 ^ 64)).filter
    (fun value => s.sample (UInt64.ofNat value) = some (some index))).card

/-- There are as many of them as the index has weight. -/
theorem valuesFor_table {weights : List UInt64} (bounded : weightSum weights < 2 ^ 64) {index : ℕ}
    {weight : UInt64} (here : weights[index]? = some weight) :
    (table weights).valuesFor index = weight.toNat := by
  have inside : index < weights.length := (List.getElem?_eq_some_iff.mp here).1
  have upper : weightBefore weights (index + 1) ≤ weightSum weights := by
    rw [← weightBefore_length]
    exact weightBefore_mono weights inside
  have share : (Finset.range (2 ^ 64)).filter
      (fun value => (table weights).sample (UInt64.ofNat value) = some (some index)) =
        Finset.Ico (weightBefore weights index) (weightBefore weights (index + 1)) := by
    ext value
    rw [Finset.mem_filter, Finset.mem_range, Finset.mem_Ico, sample_table_iff bounded]
    constructor
    · rintro ⟨small, picks⟩
      rwa [UInt64.toNat_ofNat_of_lt' small] at picks
    · intro picks
      have small : value < 2 ^ 64 := by omega
      rw [UInt64.toNat_ofNat_of_lt' small]
      exact ⟨small, picks⟩
  rw [valuesFor, share, Nat.card_Ico, weightBefore_succ here, Nat.add_sub_cancel_left]

/-- After `Initialize`, `Sample` returns for every value below the sum the only index to which it
belongs and refuses all other values, so that each index is returned as often as its weight
says. -/
theorem lookup_matches_weights (heap : List UInt64 → Option SamplerError)
    (before : WeightedHeapSampler) (weights : List UInt64) (nonempty : weights ≠ [])
    (bounded : weightSum weights < 2 ^ 64) (quiet : heap weights = none) :
    let s := (before.initializeWith heap weights).1
    (before.initializeWith heap weights).2 = none ∧
      (∀ value : UInt64, value.toNat < weightSum weights →
        ∃ index, s.sample value = some (some index) ∧ Picks weights value.toNat index ∧
          ∀ other, Picks weights value.toNat other → other = index) ∧
      (∀ value : UInt64, weightSum weights ≤ value.toNat → s.sample value = some none) ∧
      ∀ index weight, weights[index]? = some weight → s.valuesFor index = weight.toNat ∧
        (weight = 0 → ∀ value, s.sample value ≠ some (some index)) := by
  have initialized : before.initializeWith heap weights = (table weights, none) := by
    rw [initializeWith, if_neg (by simpa using nonempty), quiet]
  rw [initialized]
  refine ⟨rfl, ?_, fun value => sample_table_of_le bounded, ?_⟩
  · intro value below
    obtain ⟨index, _, picks⟩ := exists_picks below
    exact ⟨index, sample_table bounded picks, picks, fun other also => also.unique picks⟩
  · intro index weight here
    refine ⟨valuesFor_table bounded here, ?_⟩
    rintro rfl value returned
    obtain ⟨positive, there, heavy⟩ := ((sample_table_iff bounded value index).mp returned).weight
    obtain rfl := Option.some.inj (here.symm.trans there)
    exact Nat.lt_irrefl 0 heavy

/-- Weights with a zero among them: the value 1 belongs to the last index. -/
theorem lookup_skips_zero_weight :
    ((table []).initializeWith (fun _ => none) [1, 0, 5]).1.sample 1 = some (some 2) ∧
      ((table []).initializeWith (fun _ => none) [1, 0, 5]).1.valuesFor 1 = 0 := by
  have laws := lookup_matches_weights (fun _ => none) (table []) [1, 0, 5] (by simp)
    (by decide) rfl
  obtain ⟨index, returned, picks, _⟩ := laws.2.1 1 (by decide)
  have last : Picks [1, 0, 5] (1 : UInt64).toNat 2 := by
    constructor <;> decide
  obtain rfl := picks.unique last
  exact ⟨returned, (laws.2.2.2 1 0 rfl).1⟩

end WeightedHeapSampler

end AvalancheParallel.Sampler
