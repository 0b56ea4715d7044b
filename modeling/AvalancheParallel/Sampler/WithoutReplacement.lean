import AvalancheParallel.Foundation.ListUpdate
import AvalancheParallel.Foundation.Runs
import AvalancheParallel.Sampler.Weighted

/-!
# Weighted sampling without replacement

`weightedWithoutReplacementGeneric` of `pkg/utils/sampler/weighted_without_replacement.go`.
`Sample` draws an index, initializes the weighted sampler with the weights that were
left before the draw, and only then removes the drawn one. The table of the next draw
therefore still contains the index just drawn. What the draws take from the sampling
weight, from the table and from the range of the uniform sampler is never given back:
the next call of `Sample` begins with it.
-/

namespace AvalancheParallel.Sampler

open AvalancheParallel.ListUpdate

/-- `weightedWithoutReplacementGeneric`. The last field records whether `samplingWeight` has ever
been lowered by more than it was. -/
structure WeightedWithoutReplacement where
  u : UniformSampler
  w : WeightedHeapSampler
  samplingWeight : UInt64
  weights : List UInt64
  wrapped : Bool

/-- `NewWeightedWithoutReplacement`, with the values that `rng` will give. -/
def newWeightedWithoutReplacement (rng : ℕ → Int63) : WeightedWithoutReplacement :=
  ⟨⟨0, rng⟩, .table [], 0, [], false⟩

/-- Why a call does not return indices: it never returns, an index is out of range, or it returns
an error. -/
inductive Fault where
  | diverges
  | panics
  | fails (error : SamplerError)
deriving DecidableEq

namespace WeightedWithoutReplacement

variable (heap : List UInt64 → Option SamplerError)

/-- `Initialize`, with its error. -/
def initializeWith (weights : List UInt64) (s : WeightedWithoutReplacement) :
    WeightedWithoutReplacement × Option SamplerError :=
  match s.w.initializeWith heap weights with
  | (w, some error) => ({ s with weights := weights, w := w }, some error)
  | (w, none) =>
    ({ s with
      weights := weights
      w := w
      samplingWeight := totalWeight weights
      u := if 0 < totalWeight weights then s.u.initializeWith (totalWeight weights) else s.u },
      none)

/-- Remove an index that was drawn: lower the sampling weight by the weight left there and use the
rest as the range. -/
def remove (removed : UInt64) (s : WeightedWithoutReplacement) : WeightedWithoutReplacement :=
  let samplingWeight := s.samplingWeight - removed
  { s with
    samplingWeight := samplingWeight
    u := if 0 < samplingWeight then s.u.initializeWith samplingWeight else s.u
    wrapped := s.wrapped || decide (s.samplingWeight < removed) }

/-- One iteration of the loop in `Sample`, on the weights that are left. -/
def draw (tempWeights : List UInt64) (s : WeightedWithoutReplacement) :
    WeightedWithoutReplacement × Except Fault (ℕ × List UInt64) :=
  match s.u.next with
  | none => (s, .error .diverges)
  | some (.error error, u) => ({ s with u := u }, .error (.fails error))
  | some (.ok weight, u) =>
    match s.w.sample weight with
    | none => ({ s with u := u }, .error .panics)
    | some none => ({ s with u := u }, .error (.fails .noValidUniformSamplers))
    | some (some index) =>
      match s.w.initializeWith heap tempWeights with
      | (w, some error) => ({ s with u := u, w := w }, .error (.fails error))
      | (w, none) =>
        match tempWeights[index]? with
        | none => ({ s with u := u, w := w }, .error .panics)
        | some removed =>
          (remove removed { s with u := u, w := w }, .ok (index, tempWeights.set index 0))

/-- The loop in `Sample`. -/
def drawAll : ℕ → List UInt64 → WeightedWithoutReplacement →
    WeightedWithoutReplacement × Except Fault (List ℕ)
  | 0, _, s => (s, .ok [])
  | count + 1, tempWeights, s =>
    match s.draw heap tempWeights with
    | (after, .error fault) => (after, .error fault)
    | (after, .ok (index, left)) =>
      match drawAll count left after with
      | (last, .error fault) => (last, .error fault)
      | (last, .ok indices) => (last, .ok (index :: indices))

/-- `Sample`. -/
def sample (count : ℤ) (s : WeightedWithoutReplacement) :
    WeightedWithoutReplacement × Except Fault (List ℕ) :=
  if s.samplingWeight = 0 ∨ count ≤ 0 then (s, .ok [])
  else if s.weights.length < count then
    (s, .error (.fails (.tooManySamples count s.weights.length)))
  else s.drawAll heap count.toNat s.weights

end WeightedWithoutReplacement

/-- Removing a weight lowers the sum by it. -/
theorem weightSum_set {weights : List UInt64} {index : ℕ} {weight : UInt64}
    (here : weights[index]? = some weight) :
    weightSum (weights.set index 0) + weight.toNat = weightSum weights := by
  simpa [weightSum] using sum_map_set UInt64.toNat here 0

namespace WeightedWithoutReplacement

variable {heap} {s after : WeightedWithoutReplacement} {tempWeights : List UInt64}

/-- Removing a weight lowers the sampling weight by it. -/
@[simp] theorem remove_samplingWeight (removed : UInt64) (s : WeightedWithoutReplacement) :
    (s.remove removed).samplingWeight = s.samplingWeight - removed := rfl

/-- A table whose sum the range does not exceed answers every draw, and the weight of the index
that it picks is removed. -/
theorem draw_eq (quiet : ∀ weights, weights ≠ [] → heap weights = none) {tabulated : List UInt64}
    (table : s.w = .table tabulated) (bounded : weightSum tabulated < 2 ^ 63)
    (positive : 0 < s.u.sampleRange.toNat) (fits : s.u.sampleRange.toNat ≤ weightSum tabulated)
    (same : tempWeights.length = tabulated.length) :
    ∃ index removed, Picks tabulated (s.u.rng 0 % s.u.sampleRange.toNat) index ∧
      tempWeights[index]? = some removed ∧
      s.draw heap tempWeights =
        (remove removed { s with
          u := { s.u with rng := fun position => s.u.rng (position + 1) }
          w := .table tempWeights }, .ok (index, tempWeights.set index 0)) := by
  have nonzero : s.u.sampleRange ≠ 0 := (toNat_pos_iff s.u.sampleRange).mp positive
  have reduced := next_of_le nonzero (by omega) (s.u.rng 0)
  have value : ((s.u.rng 0).toInt64.toUInt64 % s.u.sampleRange).toNat =
      s.u.rng 0 % s.u.sampleRange.toNat := by
    rw [UInt64.toNat_mod, Int63.toNat_toUInt64]
  have below := Nat.mod_lt (s.u.rng 0 : ℕ) positive
  obtain ⟨index, inside, picks⟩ := exists_picks (Nat.lt_of_lt_of_le below fits)
  have nonempty : tempWeights ≠ [] := by
    rintro rfl
    rw [← same] at inside
    simp at inside
  have sampled := WeightedHeapSampler.sample_table (by omega) (value ▸ picks)
  refine ⟨index, tempWeights[index], picks, List.getElem?_eq_getElem (same ▸ inside), ?_⟩
  simp only [draw, UniformSampler.next, reduced, table, sampled, WeightedHeapSampler.initializeWith,
    List.length_eq_zero_iff, nonempty, if_false, quiet tempWeights nonempty,
    List.getElem?_eq_getElem (same ▸ inside)]

/-- As long as the sampling weight is the sum of the weights that are left, a draw does not wrap
it, and it stays the sum of what is left. -/
theorem draw_samplingWeight (heap : List UInt64 → Option SamplerError)
    (summed : s.samplingWeight.toNat = weightSum tempWeights) :
    (s.draw heap tempWeights).1.weights = s.weights ∧
      match (s.draw heap tempWeights).2 with
      | .error _ => (s.draw heap tempWeights).1.samplingWeight = s.samplingWeight
      | .ok (_, left) =>
        (s.draw heap tempWeights).1.samplingWeight.toNat = weightSum left ∧
          weightSum left ≤ weightSum tempWeights := by
  unfold draw
  split
  · exact ⟨rfl, rfl⟩
  · exact ⟨rfl, rfl⟩
  · split
    · exact ⟨rfl, rfl⟩
    · exact ⟨rfl, rfl⟩
    · split
      · exact ⟨rfl, rfl⟩
      · split
        · exact ⟨rfl, rfl⟩
        · rename_i removed here
          have lowered := weightSum_set here
          have enough : removed ≤ s.samplingWeight := by
            rw [UInt64.le_iff_toNat_le]
            omega
          refine ⟨rfl, ?_, by omega⟩
          simp only [remove_samplingWeight]
          rw [UInt64.toNat_sub_of_le _ _ enough]
          omega

/-- The loop ends with at most the sampling weight with which it begins. -/
theorem drawAll_samplingWeight (heap : List UInt64 → Option SamplerError) (count : ℕ)
    (summed : s.samplingWeight.toNat = weightSum tempWeights) :
    (s.drawAll heap count tempWeights).1.weights = s.weights ∧
      (s.drawAll heap count tempWeights).1.samplingWeight.toNat ≤ weightSum tempWeights := by
  induction count generalizing s tempWeights with
  | zero => exact ⟨rfl, summed.le⟩
  | succ count inductionHypothesis =>
    have first := draw_samplingWeight heap summed
    rw [drawAll]
    split
    · rename_i after fault outcome
      rw [outcome] at first
      refine ⟨first.1, ?_⟩
      have kept : after.samplingWeight = s.samplingWeight := first.2
      rw [kept, summed]
    · rename_i after index left outcome
      rw [outcome] at first
      obtain ⟨weights, sum, fewer⟩ := first
      have rest := inductionHypothesis sum
      split
      · rename_i last fault others
        rw [others] at rest
        exact ⟨rest.1.trans weights, rest.2.trans fewer⟩
      · rename_i last indices others
        rw [others] at rest
        exact ⟨rest.1.trans weights, rest.2.trans fewer⟩

/-- After a draw the loop goes on with what is left. -/
theorem drawAll_state {count index : ℕ} {left : List UInt64}
    (drawn : s.draw heap tempWeights = (after, .ok (index, left))) :
    (s.drawAll heap (count + 1) tempWeights).1 = (after.drawAll heap count left).1 := by
  simp only [drawAll, drawn]
  split <;> rename_i others <;> rw [others]

/-- The indices of a loop that returns begin with the one drawn first. -/
theorem drawAll_succ {count index : ℕ} {left : List UInt64} {indices : List ℕ}
    (drawn : s.draw heap tempWeights = (after, .ok (index, left)))
    (result : (s.drawAll heap (count + 1) tempWeights).2 = .ok indices) :
    ∃ rest, indices = index :: rest ∧ (after.drawAll heap count left).2 = .ok rest := by
  simp only [drawAll, drawn] at result
  split at result
  · cases result
  · rename_i last rest others
    obtain rfl := Except.ok.inj result
    exact ⟨rest, rfl, by rw [others]⟩

/-- What `Initialize` with a list of weights that is not empty does. -/
theorem initializeWith_eq (quiet : ∀ weights, weights ≠ [] → heap weights = none)
    {weights : List UInt64} (nonempty : weights ≠ []) (s : WeightedWithoutReplacement) :
    s.initializeWith heap weights =
      ({ s with
        weights := weights
        w := .table weights
        samplingWeight := totalWeight weights
        u := if 0 < totalWeight weights then s.u.initializeWith (totalWeight weights) else s.u },
        none) := by
  simp [initializeWith, WeightedHeapSampler.initializeWith, nonempty, quiet weights nonempty]

/-- Without weights there are no samples. -/
theorem initializeWith_nil (s : WeightedWithoutReplacement) :
    s.initializeWith heap [] =
      ({ s with weights := [], w := { s.w with numWeights := 0 } }, some .noEligibleSamples) := rfl

/-- Both samplers return an error for weights whose sum is too large for `uint64`, and store the
sum when they return none. -/
structure ReportsOverflow (heap : List UInt64 → Option SamplerError) (weights : List UInt64) :
    Prop where
  reported : 2 ^ 64 ≤ weightSum weights →
    (∀ w : WeightedHeapSampler, (w.initializeWith heap weights).2 ≠ none) ∧
      ∀ s : WeightedWithoutReplacement, (s.initializeWith heap weights).2 ≠ none
  total : ∀ w : WeightedHeapSampler, (w.initializeWith heap weights).2 = none →
    (w.initializeWith heap weights).1.totalWeight.toNat = weightSum weights
  sampling : ∀ s : WeightedWithoutReplacement, (s.initializeWith heap weights).2 = none →
    (s.initializeWith heap weights).1.samplingWeight.toNat = weightSum weights

/-- `Initialize` of the sampler without replacement returns the error of the weighted sampler. -/
theorem initializeWith_error (weights : List UInt64) (s : WeightedWithoutReplacement) :
    (s.initializeWith heap weights).2 = (s.w.initializeWith heap weights).2 := by
  rw [initializeWith]
  split
  · rename_i outcome
    rw [outcome]
  · rename_i outcome
    rw [outcome]

/-- The sampling weight is the total weight. -/
theorem initializeWith_samplingWeight {weights : List UInt64} {s : WeightedWithoutReplacement}
    (accepted : (s.initializeWith heap weights).2 = none) :
    (s.initializeWith heap weights).1.samplingWeight = totalWeight weights := by
  rw [initializeWith] at accepted ⊢
  split at accepted
  · cases accepted
  · rfl

/-- The integer sums are not checked: an overflow is reported only by an error of the heap. -/
theorem overflow_reported_iff (heap : List UInt64 → Option SamplerError) (weights : List UInt64) :
    ReportsOverflow heap weights ↔ weightSum weights < 2 ^ 64 ∨ heap weights ≠ none := by
  constructor
  · intro reports
    by_contra neither
    push Not at neither
    obtain ⟨large, quiet⟩ := neither
    have nonempty : ¬ weights.length = 0 := by
      intro empty
      rw [List.length_eq_zero_iff.mp empty] at large
      simp [weightSum] at large
    apply (reports.reported large).1 (.table [])
    rw [WeightedHeapSampler.initializeWith, if_neg nonempty]
    exact quiet
  · intro condition
    have refused : ∀ w : WeightedHeapSampler, heap weights ≠ none →
        (w.initializeWith heap weights).2 ≠ none := by
      intro w loud
      rw [WeightedHeapSampler.initializeWith]
      split
      · exact Option.some_ne_none _
      · exact loud
    have fits : ∀ w : WeightedHeapSampler, (w.initializeWith heap weights).2 = none →
        (totalWeight weights).toNat = weightSum weights := by
      intro w accepted
      rcases condition with small | loud
      · exact toNat_totalWeight small
      · exact absurd accepted (refused w loud)
    constructor
    · intro large
      rcases condition with small | loud
      · omega
      · refine ⟨fun w => refused w loud, ?_⟩
        intro s
        rw [initializeWith_error]
        exact refused s.w loud
    · intro w accepted
      have same : (w.initializeWith heap weights).1.totalWeight = totalWeight weights := by
        rw [WeightedHeapSampler.initializeWith] at accepted ⊢
        split at accepted
        · cases accepted
        · rename_i nonempty
          rw [if_neg nonempty]
          rfl
      rw [same, fits w accepted]
    · intro s accepted
      rw [initializeWith_samplingWeight accepted]
      rw [initializeWith_error] at accepted
      exact fits s.w accepted

/-- Three times the largest weight: the heap accepts the list, and the totals wrap. -/
theorem wrapped_totals_accepted :
    ¬ ReportsOverflow (fun _ => none)
        [18446744073709551615, 18446744073709551615, 18446744073709551615] ∧
      (WeightedHeapSampler.initializeWith (fun _ => none)
        [18446744073709551615, 18446744073709551615, 18446744073709551615]
        (.table [])).2 = none ∧
      (WeightedHeapSampler.initializeWith (fun _ => none)
        [18446744073709551615, 18446744073709551615, 18446744073709551615]
        (.table [])).1.totalWeight = 18446744073709551613 := by
  refine ⟨?_, rfl, by decide +kernel⟩
  intro reports
  exact (reports.reported (by decide +kernel)).1 (.table []) rfl

/-- The sampler with other random values. -/
def reseed (rng : ℕ → Int63) (s : WeightedWithoutReplacement) : WeightedWithoutReplacement :=
  { s with u := { s.u with rng := rng } }

/-- `Sample` returns the given number of different indices, each with a positive weight. -/
def ReturnsDistinct (weights : List UInt64) (count : ℕ) (result : Except Fault (List ℕ)) : Prop :=
  ∃ indices, result = .ok indices ∧ indices.length = count ∧ indices.Nodup ∧
    ∀ index ∈ indices, ∃ weight, weights[index]? = some weight ∧ 0 < weight

/-- The table, the sampling weight and the range are those of the stored weights. -/
structure Ready (s : WeightedWithoutReplacement) : Prop where
  table : s.w = .table s.weights
  summed : s.samplingWeight.toNat = weightSum s.weights
  range : s.u.sampleRange.toNat = weightSum s.weights

/-- Weights with a positive sum below `2^63` make the sampler ready. -/
theorem initializeWith_ready (quiet : ∀ weights, weights ≠ [] → heap weights = none)
    {weights : List UInt64} (bounded : weightSum weights < 2 ^ 63)
    (positive : 0 < weightSum weights) (s : WeightedWithoutReplacement) :
    (s.initializeWith heap weights).1.Ready ∧
      (s.initializeWith heap weights).1.weights = weights ∧
      (s.initializeWith heap weights).1.u.rng = s.u.rng := by
  have nonempty : weights ≠ [] := by
    rintro rfl
    simp [weightSum] at positive
  have total := toNat_totalWeight (by omega : weightSum weights < 2 ^ 64)
  have draws : 0 < totalWeight weights := by
    rw [UInt64.lt_iff_toNat_lt, total]
    exact positive
  rw [initializeWith_eq quiet nonempty, if_pos draws]
  exact ⟨⟨rfl, total, total⟩, rfl, rfl⟩

/-- Weights that sum to zero are all zero. -/
theorem countP_of_weightSum_zero {weights : List UInt64} (zero : weightSum weights = 0) :
    weights.countP (fun weight => 0 < weight) = 0 := by
  induction weights with
  | nil => rfl
  | cons first rest inductionHypothesis =>
    simp only [weightSum, List.map_cons, List.sum_cons] at zero inductionHypothesis
    have idle : ¬ (0 : UInt64) < first := by
      rw [UInt64.lt_iff_toNat_lt, UInt64.toNat_zero]
      omega
    rw [List.countP_cons, inductionHypothesis (by omega)]
    simp [idle]

/-- If one weight is the whole sum, no other weight is positive. -/
theorem countP_le_one {weights : List UInt64} {index : ℕ} {weight : UInt64}
    (here : weights[index]? = some weight) (whole : weightSum weights ≤ weight.toNat) :
    weights.countP (fun weight => 0 < weight) ≤ 1 := by
  induction weights generalizing index with
  | nil => simp at here
  | cons first rest inductionHypothesis =>
    have sum : weightSum (first :: rest) = first.toNat + weightSum rest := by simp [weightSum]
    rw [List.countP_cons]
    cases index with
    | zero =>
      obtain rfl : first = weight := by simpa using here
      rw [countP_of_weightSum_zero (by omega)]
      split <;> omega
    | succ index =>
      have there : rest[index]? = some weight := by simpa using here
      have part := weightSum_set there
      have idle : ¬ (0 : UInt64) < first := by
        rw [UInt64.lt_iff_toNat_lt, UInt64.toNat_zero]
        omega
      have others := inductionHypothesis there (by omega)
      simpa [idle] using others

/-- One draw returns an index with a positive weight. -/
theorem Ready.drawAll_one (quiet : ∀ weights, weights ≠ [] → heap weights = none) (ready : s.Ready)
    (bounded : weightSum s.weights < 2 ^ 63) (positive : 0 < weightSum s.weights) :
    ReturnsDistinct s.weights 1 (s.drawAll heap 1 s.weights).2 := by
  obtain ⟨index, removed, picks, here, drawn⟩ :=
    draw_eq quiet ready.table bounded (ready.range ▸ positive) ready.range.le rfl
  obtain ⟨weight, there, heavy⟩ := picks.weight
  refine ⟨[index], ?_, rfl, List.nodup_singleton index, ?_⟩
  · simp only [drawAll, drawn]
  · intro other member
    rw [List.mem_singleton.mp member]
    exact ⟨weight, there, UInt64.lt_iff_toNat_lt.mpr heavy⟩

/-- When `rng` gives only zeros, the second draw repeats the first: the table of the second draw
still has the index that was removed. -/
theorem Ready.drawAll_repeats (quiet : ∀ weights, weights ≠ [] → heap weights = none)
    (ready : s.Ready) (bounded : weightSum s.weights < 2 ^ 63) (zeros : s.u.rng = fun _ => 0)
    {count : ℕ} (several : 2 ≤ count)
    (enough : count ≤ s.weights.countP (fun weight => 0 < weight)) :
    ¬ ReturnsDistinct s.weights count (s.drawAll heap count s.weights).2 := by
  obtain ⟨table, summed, range⟩ := ready
  have heavy : 0 < weightSum s.weights := by
    apply Nat.pos_of_ne_zero
    intro zero
    rw [countP_of_weightSum_zero zero] at enough
    omega
  obtain ⟨index, removed, picks, here, drawn⟩ :=
    draw_eq quiet table bounded (range ▸ heavy) range.le rfl
  have smaller : removed.toNat < weightSum s.weights := by
    by_contra whole
    have alone := countP_le_one here (Nat.le_of_not_lt whole)
    omega
  have remaining : (s.samplingWeight - removed).toNat = weightSum s.weights - removed.toNat := by
    rw [UInt64.toNat_sub_of_le _ _ (UInt64.le_iff_toNat_le.mpr (by omega)), summed]
  have positive : 0 < s.samplingWeight - removed := by
    rw [UInt64.lt_iff_toNat_lt, remaining, UInt64.toNat_zero]
    omega
  generalize next : remove removed { s with
    u := { s.u with rng := fun position => s.u.rng (position + 1) }
    w := .table s.weights } = after at drawn
  have uniform : after.u = ⟨s.samplingWeight - removed, fun _ => 0⟩ := by
    rw [← next]
    simp [remove, positive, UniformSampler.initializeWith, zeros]
  have tabulated : after.w = .table s.weights := by
    rw [← next]
    rfl
  have bounds : 0 < after.u.sampleRange.toNat ∧
      after.u.sampleRange.toNat ≤ weightSum s.weights := by
    rw [uniform, remaining]
    omega
  obtain ⟨again, left, alsoPicks, _, repeated⟩ := draw_eq quiet tabulated bounded bounds.1 bounds.2
    (List.length_set : (s.weights.set index 0).length = s.weights.length)
  rw [zeros] at picks
  rw [uniform] at alsoPicks
  have same : index = again := by
    apply picks.unique
    simpa using alsoPicks
  obtain ⟨rest, rfl⟩ := Nat.exists_eq_add_of_le' several
  rintro ⟨indices, result, _, distinct, _⟩
  obtain ⟨others, rfl, remains⟩ := drawAll_succ drawn result
  obtain ⟨more, rfl, _⟩ := drawAll_succ repeated remains
  simp [same] at distinct

/-- A call that may be served draws as often as asked. -/
theorem sample_eq_drawAll (positive : 0 < s.samplingWeight.toNat) {count : ℕ} (some : 0 < count)
    (enough : count ≤ s.weights.length) :
    s.sample heap count = s.drawAll heap count s.weights := by
  have drawing : ¬ (s.samplingWeight = 0 ∨ (count : ℤ) ≤ 0) := by
    rintro (zero | none)
    · exact (toNat_pos_iff s.samplingWeight).mp positive zero
    · omega
  rw [sample, if_neg drawing, if_neg (by omega), Int.toNat_natCast]

/-- The first `Sample` after `Initialize` returns different indices, whatever the random values
are, exactly when it draws at most one. -/
theorem first_sample_distinct_iff (quiet : ∀ weights, weights ≠ [] → heap weights = none)
    (before : WeightedWithoutReplacement) (weights : List UInt64)
    (bounded : weightSum weights < 2 ^ 63) (count : ℕ)
    (enough : count ≤ weights.countP (fun weight => 0 < weight)) :
    (∀ rng, ReturnsDistinct weights count
      (((before.reseed rng).initializeWith heap weights).1.sample heap count).2) ↔ count ≤ 1 := by
  rcases Nat.eq_zero_or_pos count with rfl | some
  · refine iff_of_true ?_ (Nat.zero_le 1)
    intro rng
    exact ⟨[], by simp [sample], rfl, List.nodup_nil, by simp⟩
  · have positive : 0 < weightSum weights := by
      apply Nat.pos_of_ne_zero
      intro zero
      rw [countP_of_weightSum_zero zero] at enough
      omega
    have length : count ≤ weights.length := enough.trans List.countP_le_length
    constructor
    · intro distinct
      by_contra several
      obtain ⟨ready, stored, rng⟩ :=
        initializeWith_ready quiet bounded positive (before.reseed (fun _ => 0))
      have zeros := distinct (fun _ => 0)
      generalize ((before.reseed (fun _ => 0)).initializeWith heap weights).1 = s
        at ready stored rng zeros
      subst stored
      rw [sample_eq_drawAll (ready.summed ▸ positive) some length] at zeros
      exact ready.drawAll_repeats quiet bounded rng (by omega) enough zeros
    · intro single rng
      obtain rfl : count = 1 := by omega
      obtain ⟨ready, stored, _⟩ := initializeWith_ready quiet bounded positive (before.reseed rng)
      generalize ((before.reseed rng).initializeWith heap weights).1 = s at ready stored ⊢
      subst stored
      rw [sample_eq_drawAll (ready.summed ▸ positive) some length]
      exact ready.drawAll_one quiet bounded positive

/-- A single draw from `[1, 1, 5]`. -/
theorem single_draw_distinct :
    (∀ rng, ReturnsDistinct [1, 1, 5] 1
      ((((newWeightedWithoutReplacement (fun _ => 0)).reseed rng).initializeWith (fun _ => none)
        [1, 1, 5]).1.sample (fun _ => none) (1 : ℕ)).2) ↔ 1 ≤ 1 :=
  first_sample_distinct_iff (fun _ _ => rfl) (newWeightedWithoutReplacement (fun _ => 0)) [1, 1, 5]
    (by decide) 1 (by decide)

/-- Two draws with the random value zero return the same index. -/
theorem two_draws_repeat :
    (((newWeightedWithoutReplacement (fun _ => 0)).initializeWith (fun _ => none)
        [1, 1, 5]).1.sample (fun _ => none) 2).2 = .ok [0, 0] ∧
      ¬ ReturnsDistinct [1, 1, 5] 2
        (((newWeightedWithoutReplacement (fun _ => 0)).initializeWith (fun _ => none)
          [1, 1, 5]).1.sample (fun _ => none) 2).2 := by
  have drawn : (((newWeightedWithoutReplacement (fun _ => 0)).initializeWith (fun _ => none)
      [1, 1, 5]).1.sample (fun _ => none) 2).2 = .ok [0, 0] := by decide +kernel
  refine ⟨drawn, ?_⟩
  rintro ⟨indices, result, _, distinct, _⟩
  rw [drawn] at result
  obtain rfl := Except.ok.inj result
  revert distinct
  decide

end WeightedWithoutReplacement

end AvalancheParallel.Sampler
