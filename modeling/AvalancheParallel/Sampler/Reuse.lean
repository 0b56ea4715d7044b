import AvalancheParallel.Sampler.WithoutReplacement

/-!
# Using a weighted sampler again

The validator sets of the repository call `Sample` of one
`weightedWithoutReplacementGeneric` again and again. A call that draws leaves the
sampling weight and the range lowered by what it drew, so that they are no longer those
of the stored weights, and a later call can lower the sampling weight below zero. The
sampler is as `Initialize` left it only as long as nothing is drawn. `Initialize` itself
leaves the range of earlier weights in place when the new ones sum to zero. Whether this
happens can be read off the calls.
-/

namespace AvalancheParallel.Sampler

/-- A call on a sampler. -/
inductive WeightedCall where
  | initializeWith (weights : List UInt64)
  | sample (count : ℤ)

/-- The weights that the call sets. -/
def WeightedCall.weights? : WeightedCall → Option (List UInt64)
  | .initializeWith weights => some weights
  | .sample _ => none

/-- The weights that the last `Initialize` has set. -/
def lastWeights (calls : List WeightedCall) : List UInt64 :=
  (calls.filterMap WeightedCall.weights?).getLastD []

/-- After the given calls, `Sample` has nothing to draw, or is asked for too little or too much. -/
def DrawsNothing (earlier : List WeightedCall) (count : ℤ) : Prop :=
  weightSum (lastWeights earlier) = 0 ∨ count ≤ 0 ∨ (lastWeights earlier).length < count

/-- No weights that sum to zero came after others. -/
def KeepsRange (earlier : List WeightedCall) : Prop :=
  0 < weightSum (lastWeights earlier) ∨
    ∀ weights, .initializeWith weights ∈ earlier → weightSum weights = 0

namespace WeightedWithoutReplacement

/-- The sampler after a call. -/
def call (heap : List UInt64 → Option SamplerError) (s : WeightedWithoutReplacement) :
    WeightedCall → WeightedWithoutReplacement
  | .initializeWith weights => (s.initializeWith heap weights).1
  | .sample count => (s.sample heap count).1

/-- The sampling weight and the range are the sum of the stored weights, the weighted sampler
answers as one for these weights, and no subtraction has wrapped. -/
structure InStep (s : WeightedWithoutReplacement) : Prop where
  summed : s.samplingWeight.toNat = weightSum s.weights
  inner : ∀ sampleValue, s.w.sample sampleValue =
    (WeightedHeapSampler.table s.weights).sample sampleValue
  range : s.u.sampleRange.toNat = weightSum s.weights
  unwrapped : s.wrapped = false

/-- `Sample` returns before its loop. -/
def Idle (count : ℤ) (s : WeightedWithoutReplacement) : Prop :=
  s.samplingWeight = 0 ∨ count ≤ 0 ∨ s.weights.length < count

/-- What holds as long as nothing has been drawn. Without weights, `Initialize` leaves the sampling
weight alone, and without a positive weight it leaves the range alone. -/
structure Untouched (s : WeightedWithoutReplacement) : Prop where
  bounded : weightSum s.weights < 2 ^ 63
  unwrapped : s.wrapped = false
  stored : s.weights ≠ [] → s.w = .table s.weights ∧ s.samplingWeight.toNat = weightSum s.weights
  range : 0 < weightSum s.weights → s.u.sampleRange.toNat = weightSum s.weights
  fresh : s.u.sampleRange = 0 → s.samplingWeight = 0 ∧ s.w.totalWeight = 0

variable {heap : List UInt64 → Option SamplerError} {s : WeightedWithoutReplacement}

/-- The new sampler is untouched. -/
theorem newWeightedWithoutReplacement_untouched (rng : ℕ → Int63) :
    (newWeightedWithoutReplacement rng).Untouched := by
  constructor <;> simp [newWeightedWithoutReplacement, weightSum, WeightedHeapSampler.table,
    totalWeight]

/-- Before anything is drawn, the range tells whether the sampler is in step. -/
theorem Untouched.inStep_iff (untouched : s.Untouched) :
    s.InStep ↔ s.u.sampleRange.toNat = weightSum s.weights := by
  constructor
  · exact InStep.range
  · intro range
    by_cases nonempty : s.weights ≠ []
    · obtain ⟨table, summed⟩ := untouched.stored nonempty
      exact ⟨summed, fun _ => by rw [table], range, untouched.unwrapped⟩
    · have none : s.weights = [] := not_not.mp nonempty
      have zero : s.u.sampleRange = 0 := by
        apply UInt64.toNat_inj.mp
        rw [range, none]
        rfl
      obtain ⟨idle, total⟩ := untouched.fresh zero
      refine ⟨by rw [idle, none]; rfl, ?_, range, untouched.unwrapped⟩
      intro sampleValue
      rw [none, WeightedHeapSampler.sample_of_zero total, WeightedHeapSampler.sample_of_zero rfl]

/-- Setting the weights leaves the sampler untouched. -/
theorem initializeWith_untouched (quiet : ∀ weights, weights ≠ [] → heap weights = none)
    {weights : List UInt64} (bounded : weightSum weights < 2 ^ 63) (untouched : s.Untouched) :
    (s.initializeWith heap weights).1.Untouched := by
  cases weights with
  | nil =>
    rw [initializeWith_nil]
    exact ⟨bounded, untouched.unwrapped, fun nonempty => absurd rfl nonempty,
      fun positive => absurd positive (Nat.lt_irrefl 0), untouched.fresh⟩
  | cons weight rest =>
    have total := toNat_totalWeight (by omega : weightSum (weight :: rest) < 2 ^ 64)
    rw [initializeWith_eq quiet (List.cons_ne_nil weight rest)]
    refine ⟨bounded, untouched.unwrapped, fun _ => ⟨rfl, total⟩, ?_, ?_⟩
    · intro positive
      have draws : 0 < totalWeight (weight :: rest) := by
        rw [UInt64.lt_iff_toNat_lt, total]
        exact positive
      rw [if_pos draws]
      exact total
    · by_cases draws : 0 < totalWeight (weight :: rest)
      · rw [if_pos draws]
        intro zero
        exact absurd draws (zero ▸ UInt64.lt_irrefl 0)
      · have idle : totalWeight (weight :: rest) = 0 := by
          apply UInt64.toNat_inj.mp
          rw [UInt64.lt_iff_toNat_lt, UInt64.toNat_zero] at draws
          rw [UInt64.toNat_zero]
          omega
        exact fun _ => ⟨idle, idle⟩

/-- An idle call of `Sample` changes nothing. -/
theorem sample_idle {count : ℤ} (idle : s.Idle count) : (s.sample heap count).1 = s := by
  unfold sample
  split
  · rfl
  · rename_i drawing
    split
    · rfl
    · rename_i enough
      rcases idle with zero | none | many
      · exact absurd (Or.inl zero) drawing
      · exact absurd (Or.inr none) drawing
      · exact absurd many enough

/-- The first draw already takes something from the sampling weight. -/
theorem Ready.drawAll_lowers (quiet : ∀ weights, weights ≠ [] → heap weights = none)
    (ready : s.Ready) (bounded : weightSum s.weights < 2 ^ 63) (positive : 0 < weightSum s.weights)
    (count : ℕ) :
    (s.drawAll heap (count + 1) s.weights).1.weights = s.weights ∧
      (s.drawAll heap (count + 1) s.weights).1.samplingWeight.toNat < weightSum s.weights := by
  obtain ⟨index, removed, picks, here, drawn⟩ :=
    draw_eq quiet ready.table bounded (ready.range ▸ positive) ready.range.le rfl
  obtain ⟨weight, there, heavy⟩ := picks.weight
  obtain rfl : removed = weight := Option.some.inj (here.symm.trans there)
  have lowered := weightSum_set here
  have first := draw_samplingWeight heap ready.summed
  rw [drawn] at first
  obtain ⟨weights, sum, _⟩ := first
  have rest := drawAll_samplingWeight heap count sum
  rw [drawAll_state drawn]
  exact ⟨rest.1.trans weights, rest.2.trans_lt (by omega)⟩

/-- A call that draws leaves the sampler out of step, whatever the random values are. -/
theorem Untouched.sample_draws (quiet : ∀ weights, weights ≠ [] → heap weights = none)
    (untouched : s.Untouched) {count : ℤ} (drawing : ¬ s.Idle count) :
    ¬ (s.sample heap count).1.InStep := by
  simp only [Idle, not_or, not_le, not_lt] at drawing
  obtain ⟨nonzero, some, enough⟩ := drawing
  obtain ⟨count, rfl⟩ := Int.eq_ofNat_of_zero_le some.le
  obtain ⟨fewer, rfl⟩ := Nat.exists_eq_succ_of_ne_zero (by omega : count ≠ 0)
  have nonempty : s.weights ≠ [] := by
    intro none
    rw [none] at enough
    simp at enough
    omega
  obtain ⟨table, summed⟩ := untouched.stored nonempty
  have positive : 0 < s.samplingWeight.toNat := (toNat_pos_iff s.samplingWeight).mpr nonzero
  have ready : s.Ready := ⟨table, summed, untouched.range (summed ▸ positive)⟩
  rw [sample_eq_drawAll positive (Nat.succ_pos fewer) (by omega)]
  obtain ⟨weights, lower⟩ :=
    ready.drawAll_lowers quiet untouched.bounded (summed ▸ positive) fewer
  intro inStep
  have same := inStep.summed
  rw [weights] at same
  exact Nat.ne_of_lt lower same

/-- The call is a `Sample` that is idle, on a sampler whose range is the sum of its weights. -/
def Harmless (s : WeightedWithoutReplacement) : WeightedCall → Prop
  | .initializeWith _ => True
  | .sample count => s.Idle count ∧ s.u.sampleRange.toNat = weightSum s.weights

/-- The sampler is in step after a `Sample`. -/
def KeepsStep (heap : List UInt64 → Option SamplerError) (s : WeightedWithoutReplacement) :
    WeightedCall → Prop
  | .initializeWith _ => True
  | .sample count => (s.sample heap count).1.InStep

/-- The weights of the call sum to less than `2^63`. -/
def Bounded : WeightedCall → Prop
  | .initializeWith weights => weightSum weights < 2 ^ 63
  | .sample _ => True

/-- On an untouched sampler, a call keeps its promise exactly when it is harmless. -/
theorem Untouched.keepsStep_iff (quiet : ∀ weights, weights ≠ [] → heap weights = none)
    (untouched : s.Untouched) (call : WeightedCall) : s.KeepsStep heap call ↔ s.Harmless call := by
  cases call with
  | initializeWith weights => exact Iff.rfl
  | sample count =>
    by_cases idle : s.Idle count
    · simp only [KeepsStep, Harmless, sample_idle idle, untouched.inStep_iff, idle, true_and]
    · exact iff_of_false (untouched.sample_draws quiet idle) (fun harmless => idle harmless.1)

/-- A harmless call leaves the sampler untouched. -/
theorem Untouched.call (quiet : ∀ weights, weights ≠ [] → heap weights = none)
    (untouched : s.Untouched) {call : WeightedCall} (bounded : Bounded call)
    (harmless : s.Harmless call) : (s.call heap call).Untouched := by
  cases call with
  | initializeWith weights => exact initializeWith_untouched quiet bounded untouched
  | sample count =>
    rw [WeightedWithoutReplacement.call, sample_idle harmless.1]
    exact untouched

/-- What the calls tell about an untouched sampler: its weights, and whether it has a range. -/
structure Follows (earlier : List WeightedCall) (s : WeightedWithoutReplacement) : Prop where
  untouched : s.Untouched
  weights : s.weights = lastWeights earlier
  range : s.u.sampleRange = 0 ↔
    ∀ weights, .initializeWith weights ∈ earlier → weightSum weights = 0

/-- The new sampler comes after no calls. -/
theorem newWeightedWithoutReplacement_follows (rng : ℕ → Int63) :
    Follows [] (newWeightedWithoutReplacement rng) where
  untouched := newWeightedWithoutReplacement_untouched rng
  weights := rfl
  range := iff_of_true rfl (fun _ member => absurd member List.not_mem_nil)

/-- The calls tell whether a `Sample` is harmless. -/
theorem Follows.harmless_iff {earlier : List WeightedCall} (follows : Follows earlier s)
    (count : ℤ) : s.Harmless (.sample count) ↔ DrawsNothing earlier count ∧ KeepsRange earlier := by
  have idle : s.Idle count ↔ DrawsNothing earlier count := by
    rw [Idle, DrawsNothing, ← follows.weights]
    by_cases nonempty : s.weights ≠ []
    · rw [← (follows.untouched.stored nonempty).2, ← UInt64.toNat_inj, UInt64.toNat_zero]
    · have none : s.weights = [] := not_not.mp nonempty
      have either : count ≤ 0 ∨ (0 : ℤ) < count := le_or_gt count 0
      rw [none]
      exact iff_of_true (Or.inr either) (Or.inr either)
  have range : s.u.sampleRange.toNat = weightSum s.weights ↔ KeepsRange earlier := by
    rw [KeepsRange, ← follows.weights, ← follows.range]
    rcases Nat.eq_zero_or_pos (weightSum s.weights) with zero | positive
    · rw [zero, ← UInt64.toNat_inj, UInt64.toNat_zero]
      simp
    · exact iff_of_true (follows.untouched.range positive) (Or.inl positive)
  rw [Harmless, idle, range]

/-- Setting the weights, as the calls tell it. -/
theorem Follows.initializeWith (quiet : ∀ weights, weights ≠ [] → heap weights = none)
    {earlier : List WeightedCall} (follows : Follows earlier s) {weights : List UInt64}
    (bounded : weightSum weights < 2 ^ 63) :
    Follows (earlier ++ [.initializeWith weights]) (s.initializeWith heap weights).1 := by
  have last : lastWeights (earlier ++ [.initializeWith weights]) = weights := by
    simp [lastWeights, WeightedCall.weights?]
  have earlierZero : (∀ other, .initializeWith other ∈ earlier ++ [.initializeWith weights] →
      weightSum other = 0) ↔ s.u.sampleRange = 0 ∧ weightSum weights = 0 := by
    rw [follows.range]
    simp only [List.mem_append, List.mem_singleton, WeightedCall.initializeWith.injEq]
    constructor
    · exact fun zero => ⟨fun other member => zero other (Or.inl member), zero _ (Or.inr rfl)⟩
    · rintro ⟨before, now⟩ other (member | rfl)
      · exact before other member
      · exact now
  refine ⟨initializeWith_untouched quiet bounded follows.untouched, ?_, ?_⟩
  · rw [last]
    cases weights with
    | nil => rfl
    | cons weight rest => rw [initializeWith_eq quiet (List.cons_ne_nil weight rest)]
  · rw [earlierZero]
    cases weights with
    | nil =>
      rw [initializeWith_nil]
      exact (and_iff_left rfl).symm
    | cons weight rest =>
      have total := toNat_totalWeight (by omega : weightSum (weight :: rest) < 2 ^ 64)
      rw [initializeWith_eq quiet (List.cons_ne_nil weight rest)]
      by_cases draws : 0 < totalWeight (weight :: rest)
      · rw [if_pos draws]
        have positive : 0 < weightSum (weight :: rest) := by
          rw [← total]
          exact UInt64.lt_iff_toNat_lt.mp draws
        exact iff_of_false (fun zero => absurd draws (zero ▸ UInt64.lt_irrefl 0))
          (fun zero => absurd zero.2 positive.ne')
      · rw [if_neg draws]
        have zero : weightSum (weight :: rest) = 0 := by
          rw [UInt64.lt_iff_toNat_lt, total, UInt64.toNat_zero] at draws
          omega
        exact (and_iff_left zero).symm

/-- A harmless call, as the calls tell it. -/
theorem Follows.call (quiet : ∀ weights, weights ≠ [] → heap weights = none)
    {earlier : List WeightedCall} (follows : Follows earlier s) {call : WeightedCall}
    (bounded : Bounded call) (harmless : s.Harmless call) :
    Follows (earlier ++ [call]) (s.call heap call) := by
  cases call with
  | initializeWith weights => exact follows.initializeWith quiet bounded
  | sample count =>
    rw [WeightedWithoutReplacement.call, sample_idle harmless.1]
    refine ⟨follows.untouched, ?_, ?_⟩
    · rw [follows.weights]
      simp [lastWeights, WeightedCall.weights?]
    · rw [follows.range]
      simp

/-- The calls tell whether all of a run are harmless. -/
theorem Follows.along_iff (quiet : ∀ weights, weights ≠ [] → heap weights = none)
    {earlier : List WeightedCall} (follows : Follows earlier s) {calls : List WeightedCall}
    (bounded : ∀ call ∈ calls, Bounded call) :
    Runs.Along (WeightedWithoutReplacement.call heap) Harmless s calls ↔
      ∀ before count after, calls = before ++ .sample count :: after →
        DrawsNothing (earlier ++ before) count ∧ KeepsRange (earlier ++ before) := by
  induction calls generalizing s earlier with
  | nil => simp [Runs.Along]
  | cons first rest inductionHypothesis =>
    have boundedFirst := bounded first List.mem_cons_self
    have boundedRest : ∀ call ∈ rest, Bounded call :=
      fun call member => bounded call (List.mem_cons_of_mem first member)
    constructor
    · rintro ⟨harmless, later⟩ before count after split
      cases before with
      | nil =>
        obtain ⟨rfl, rfl⟩ := List.cons.inj split
        rw [List.append_nil]
        exact (follows.harmless_iff count).mp harmless
      | cons head tail =>
        obtain ⟨rfl, rfl⟩ := List.cons.inj split
        have next := (inductionHypothesis (follows.call quiet boundedFirst harmless)
          boundedRest).mp later tail count after rfl
        rwa [List.append_assoc] at next
    · intro told
      have harmless : s.Harmless first := by
        cases first with
        | initializeWith weights => trivial
        | sample count =>
          have here := told [] count rest rfl
          rw [List.append_nil] at here
          exact (follows.harmless_iff count).mpr here
      refine ⟨harmless, (inductionHypothesis (follows.call quiet boundedFirst harmless)
        boundedRest).mpr ?_⟩
      rintro before count after rfl
      rw [List.append_assoc]
      exact told (first :: before) count after rfl

/-- A sampler is in step after every `Sample` of a sequence of calls exactly when each of them has
nothing to draw, or is asked for too little or too much, and no weights that sum to zero were set
after others. -/
theorem sampler_reusable_iff (quiet : ∀ weights, weights ≠ [] → heap weights = none)
    (rng : ℕ → Int63) (calls : List WeightedCall) (bounded : ∀ call ∈ calls, Bounded call) :
    Runs.Along (call heap) (KeepsStep heap) (newWeightedWithoutReplacement rng) calls ↔
      ∀ earlier count later, calls = earlier ++ .sample count :: later →
        DrawsNothing earlier count ∧ KeepsRange earlier := by
  have start := newWeightedWithoutReplacement_follows rng
  have harmless :
      Runs.Along (call heap) (KeepsStep heap) (newWeightedWithoutReplacement rng) calls ↔
      Runs.Along (call heap) Harmless (newWeightedWithoutReplacement rng) calls := by
    refine Runs.along_congr_of (call heap) Untouched ?_ ?_
      (Runs.Along.of_forall (call heap) _ bounded) start.untouched
    · intro s call bounded keeps untouched
      exact untouched.call quiet bounded ((untouched.keepsStep_iff quiet call).mp keeps)
    · intro s call _ untouched
      exact untouched.keepsStep_iff quiet call
  exact harmless.trans (start.along_iff quiet bounded)

/-- Calls that draw nothing. -/
theorem idle_sampler_reusable :
    Runs.Along (call (fun _ => none)) (KeepsStep (fun _ => none))
      (newWeightedWithoutReplacement (fun _ => 0))
      [.sample 1, .initializeWith [2, 1], .sample 0, .sample 3] := by
  refine (sampler_reusable_iff (fun _ _ => rfl) (fun _ => 0) _ ?_).mpr ?_
  · simp [Bounded, weightSum]
  · intro earlier count later split
    obtain ⟨rfl, rfl⟩ | ⟨rfl, rfl⟩ | ⟨rfl, rfl⟩ :
        (earlier = [] ∧ count = 1) ∨ (earlier = [.sample 1, .initializeWith [2, 1]] ∧ count = 0) ∨
          (earlier = [.sample 1, .initializeWith [2, 1], .sample 0] ∧ count = 3) := by
      rcases earlier with _ | ⟨_, _ | ⟨_, _ | ⟨_, _ | ⟨_, rest⟩⟩⟩⟩ <;> simp_all
    · exact ⟨Or.inl rfl, Or.inr (fun _ member => absurd member List.not_mem_nil)⟩
    · exact ⟨Or.inr (Or.inl le_rfl), Or.inl (by decide +kernel)⟩
    · exact ⟨Or.inr (Or.inr (by decide +kernel)), Or.inl (by decide +kernel)⟩

/-- The first draw takes two of three from the sampling weight, and the second one wraps it. -/
theorem reused_sampler_wraps :
    ¬ Runs.Along (call (fun _ => none)) (KeepsStep (fun _ => none))
        (newWeightedWithoutReplacement (fun _ => 0))
        [.initializeWith [2, 1], .sample 1, .sample 1] ∧
      (Runs.run (call (fun _ => none)) (newWeightedWithoutReplacement (fun _ => 0))
        [.initializeWith [2, 1], .sample 1, .sample 1]).samplingWeight = 18446744073709551615 ∧
      (Runs.run (call (fun _ => none)) (newWeightedWithoutReplacement (fun _ => 0))
        [.initializeWith [2, 1], .sample 1, .sample 1]).wrapped = true := by
  refine ⟨?_, by decide +kernel, by decide +kernel⟩
  rintro ⟨_, inStep, _⟩
  have same := inStep.summed
  revert same
  decide +kernel

end WeightedWithoutReplacement

end AvalancheParallel.Sampler
