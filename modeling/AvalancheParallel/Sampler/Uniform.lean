import Mathlib.Data.Int.CardIntervalMod
import Mathlib.Data.Nat.Count
import Mathlib.Algebra.BigOperators.Fin
import Mathlib.Data.List.Nodup

/-!
# The uniform sampler

`uniformGenerator` and `uniformSampler` of `pkg/utils/sampler/uniform.go`. A draw takes
one value of `rng.Int63()` and reduces it to the range; values from the largest multiple
of the range on are reduced again by a recursive call. The multiple is computed in
`uint64` from `1 << 63`. It is zero for a range above `1 << 63`, and the recursion does
not end then. For the other ranges it is divisible by the range, so that every value is
reduced to its remainder, also those of the incomplete last interval.

The sampler draws every value from the whole range and keeps nothing but the range.
-/

namespace AvalancheParallel.Sampler

/-- The errors of the samplers. -/
inductive SamplerError where
  | noEligibleSamples
  | noValidUniformSamplers
  | tooManySamples (count : ℤ) (elements : ℕ)
  | outOfRange
  | invalidArgument
  | weightOverflow
  | indexOutOfRange
  | elementRemoved
  | tooManyElements (elements : ℕ) (requested : ℤ)
deriving DecidableEq

/-- The texts of the errors; an `Error` of the package has a common beginning. -/
def SamplerError.text : SamplerError → String
  | .noEligibleSamples => "sampler error: no eligible samples found"
  | .noValidUniformSamplers => "no valid uniform samplers found"
  | .tooManySamples count elements =>
    "attempt to sample " ++ toString count ++ " elements from a " ++ toString elements ++
      " element list"
  | .outOfRange => "out of range"
  | .invalidArgument => "invalid argument"
  | .weightOverflow => "sampler error: weight overflowed"
  | .indexOutOfRange => "sampler error: index out of range"
  | .elementRemoved => "sampler error: element was already removed"
  | .tooManyElements elements requested =>
    "no more than " ++ toString elements ++ " elements can be sampled, requested " ++
      toString requested

/-- The values of `rng.Int63()`. -/
abbrev Int63 := Fin (2 ^ 63)

/-- A value of `rng.Int63()` as an `int64`. -/
def Int63.toInt64 (value : Int63) : Int64 := Int64.ofNat value

/-- The constant `1 << 63`. -/
def half : UInt64 := (1 : UInt64) <<< 63

/-- The bound `max` of `uniformGenerator.Next`, the largest multiple of the range up to
`1 << 63`. -/
def maximum (sampleRange : UInt64) : UInt64 := half - half % sampleRange

/-- `uniformGenerator.Next`; `none` when it has not returned after `fuel` recursive calls. -/
def nextWithin : ℕ → UInt64 → Int64 → Option (Except SamplerError UInt64)
  | 0, _, _ => none
  | fuel + 1, sampleRange, value =>
    if sampleRange = 0 then some (.error .noEligibleSamples)
    else
      let val := value.toUInt64
      if val < maximum sampleRange then some (.ok (val % sampleRange))
      else nextWithin fuel sampleRange (val - maximum sampleRange).toInt64

/-- A value of the source as an unsigned word. -/
theorem Int63.toNat_toUInt64 (value : Int63) : value.toInt64.toUInt64.toNat = value := by
  have small : (value : ℕ) < 2 ^ 64 := by omega
  rw [Int63.toInt64, Int64.toUInt64_ofNat']
  exact Nat.mod_eq_of_lt small

/-- A word is positive unless it is zero. -/
theorem toNat_pos_iff (word : UInt64) : 0 < word.toNat ↔ word ≠ 0 := by
  rw [Nat.pos_iff_ne_zero, ne_eq, ne_eq, ← UInt64.toNat_inj, UInt64.toNat_zero]

/-- The constant of the source as a number. -/
theorem toNat_half : half.toNat = 2 ^ 63 := rfl

/-- The maximum is the largest multiple of the range up to `2^63`. -/
theorem toNat_maximum (sampleRange : UInt64) :
    (maximum sampleRange).toNat = 2 ^ 63 - 2 ^ 63 % sampleRange.toNat := by
  have below : half % sampleRange ≤ half := by
    rw [UInt64.le_iff_toNat_le, UInt64.toNat_mod]
    exact Nat.mod_le _ _
  rw [maximum, UInt64.toNat_sub_of_le _ _ below, UInt64.toNat_mod, toNat_half]

/-- A range up to `1 << 63` reduces every value to its remainder, with at most one recursive
call. -/
theorem nextWithin_of_le {sampleRange : UInt64} (positive : sampleRange ≠ 0)
    (small : sampleRange.toNat ≤ 2 ^ 63) (value : Int63) (fuel : ℕ) :
    nextWithin (fuel + 2) sampleRange value.toInt64 =
      some (.ok (value.toInt64.toUInt64 % sampleRange)) := by
  have nonzero : 0 < sampleRange.toNat := (toNat_pos_iff sampleRange).mpr positive
  have bounded : (value : ℕ) < 2 ^ 63 := value.isLt
  have multiple : sampleRange.toNat * (2 ^ 63 / sampleRange.toNat) + 2 ^ 63 % sampleRange.toNat =
      2 ^ 63 := Nat.div_add_mod _ _
  have remainder := Nat.mod_lt (2 ^ 63) nonzero
  have once : sampleRange.toNat ≤ sampleRange.toNat * (2 ^ 63 / sampleRange.toNat) :=
    Nat.le_mul_of_pos_right _ (Nat.div_pos small nonzero)
  have bound := toNat_maximum sampleRange
  generalize quotient : 2 ^ 63 / sampleRange.toNat = times at multiple once
  generalize found : maximum sampleRange = max at bound
  rw [nextWithin, if_neg positive, found]
  dsimp only
  by_cases within : value.toInt64.toUInt64 < max
  · rw [if_pos within]
  · -- The second round gets the distance to the multiple, which is below the range.
    have beyond : max ≤ value.toInt64.toUInt64 := by
      rw [UInt64.le_iff_toNat_le]
      rw [UInt64.lt_iff_toNat_lt] at within
      omega
    have distance : (value.toInt64.toUInt64 - max).toNat = value - max.toNat := by
      rw [UInt64.toNat_sub_of_le _ _ beyond, Int63.toNat_toUInt64]
    have reached : max.toNat ≤ value := by
      rw [UInt64.le_iff_toNat_le, Int63.toNat_toUInt64] at beyond
      exact beyond
    have again : value.toInt64.toUInt64 - max < max := by
      rw [UInt64.lt_iff_toNat_lt, distance]
      omega
    have same : (value.toInt64.toUInt64 - max) % sampleRange =
        value.toInt64.toUInt64 % sampleRange := by
      apply UInt64.toNat_inj.mp
      have split : (value : ℕ) = (value - max.toNat) + sampleRange.toNat * times := by omega
      rw [UInt64.toNat_mod, UInt64.toNat_mod, distance, Int63.toNat_toUInt64]
      conv_rhs => rw [split, Nat.add_mul_mod_self_left]
    rw [if_neg within, nextWithin, if_neg positive, found]
    dsimp only
    rw [UInt64.toUInt64_toInt64, if_pos again, same]

/-- A range above `1 << 63` makes the multiple zero, and the recursive call gets the same value
again. -/
theorem nextWithin_of_lt {sampleRange : UInt64} (large : 2 ^ 63 < sampleRange.toNat) (value : Int64)
    (fuel : ℕ) : nextWithin fuel sampleRange value = none := by
  have positive : sampleRange ≠ 0 := (toNat_pos_iff sampleRange).mp (by omega)
  have zero : maximum sampleRange = 0 := by
    apply UInt64.toNat_inj.mp
    rw [toNat_maximum, Nat.mod_eq_of_lt large]
    simp
  induction fuel with
  | zero => rfl
  | succ fuel inductionHypothesis =>
    rw [nextWithin, if_neg positive, zero]
    dsimp only
    rw [if_neg (UInt64.not_lt.mpr UInt64.zero_le), UInt64.sub_zero, Int64.toInt64_toUInt64]
    exact inductionHypothesis

/-- `uniformGenerator.Next`; `none` if it never returns. -/
def next (sampleRange : UInt64) (value : Int63) : Option (Except SamplerError UInt64) :=
  nextWithin 2 sampleRange value.toInt64

/-- A range in `[1, 2^63]` reduces a value to its remainder. -/
theorem next_of_le {sampleRange : UInt64} (positive : sampleRange ≠ 0)
    (small : sampleRange.toNat ≤ 2 ^ 63) (value : Int63) :
    next sampleRange value = some (.ok (value.toInt64.toUInt64 % sampleRange)) :=
  nextWithin_of_le positive small value 0

/-- The empty range has no samples. -/
theorem next_zero (value : Int63) : next 0 value = some (.error .noEligibleSamples) := rfl

/-- For a range above `2^63` the call never returns. -/
theorem next_of_lt {sampleRange : UInt64} (large : 2 ^ 63 < sampleRange.toNat) (value : Int63) :
    next sampleRange value = none := nextWithin_of_lt large _ 2

/-- The recursion ends, with a number below the range, exactly for the ranges up to `2^63`. -/
theorem next_returns_iff (sampleRange : UInt64) (positive : 1 ≤ sampleRange.toNat) (value : Int63) :
    (∃ fuel result, nextWithin fuel sampleRange value.toInt64 = some (.ok result) ∧
      result < sampleRange) ↔ sampleRange.toNat ≤ 2 ^ 63 := by
  have nonzero : sampleRange ≠ 0 := (toNat_pos_iff sampleRange).mp positive
  constructor
  · rintro ⟨fuel, result, returned, _⟩
    by_contra large
    rw [nextWithin_of_lt (Nat.lt_of_not_le large)] at returned
    cases returned
  · intro small
    refine ⟨2, _, nextWithin_of_le nonzero small value 0, ?_⟩
    rw [UInt64.lt_iff_toNat_lt, UInt64.toNat_mod]
    exact Nat.mod_lt _ positive

/-- A range of three returns a number below three. -/
theorem next_returns_below_three :
    1 ≤ (3 : UInt64).toNat ∧ ((∃ fuel result,
      nextWithin fuel 3 (Int63.toInt64 5) = some (.ok result) ∧ result < 3) ↔
        (3 : UInt64).toNat ≤ 2 ^ 63) :=
  ⟨by decide, next_returns_iff 3 (by decide) 5⟩

/-- With the largest range of the type, `Next` does not return. -/
theorem next_largest_range_diverges :
    ¬ ∃ fuel result, nextWithin fuel 18446744073709551615 (Int63.toInt64 0) = some (.ok result) ∧
      result < 18446744073709551615 := by
  rintro ⟨fuel, result, returned, _⟩
  rw [nextWithin_of_lt (by decide)] at returned
  cases returned

/-- The number of values for which `Next` returns the result. -/
def inputsFor (sampleRange result : UInt64) : ℕ :=
  (Finset.univ.filter (fun value : Int63 => next sampleRange value = some (.ok result))).card

/-- The numbers below a bound with a property. -/
theorem card_filter_fin (n : ℕ) (property : ℕ → Prop) [DecidablePred property] :
    (Finset.univ.filter (fun value : Fin n => property value)).card = Nat.count property n := by
  rw [Nat.count_eq_card_filter_range, Finset.card_filter, Finset.card_filter,
    Fin.sum_univ_eq_sum_range (fun value => if property value then 1 else 0)]

/-- The results below the remainder of `2^63` by the range get one value more than the others. -/
theorem inputsFor_eq {sampleRange result : UInt64} (positive : 1 ≤ sampleRange.toNat)
    (small : sampleRange.toNat ≤ 2 ^ 63) (below : result < sampleRange) :
    inputsFor sampleRange result = 2 ^ 63 / sampleRange.toNat +
      if result.toNat < 2 ^ 63 % sampleRange.toNat then 1 else 0 := by
  have nonzero : sampleRange ≠ 0 := (toNat_pos_iff sampleRange).mp positive
  have inside : result.toNat % sampleRange.toNat = result.toNat :=
    Nat.mod_eq_of_lt (UInt64.lt_iff_toNat_lt.mp below)
  have reduced : ∀ value : Int63, next sampleRange value = some (.ok result) ↔
      (value : ℕ) ≡ result.toNat [MOD sampleRange.toNat] := by
    intro value
    rw [next_of_le nonzero small, Option.some.injEq, Except.ok.injEq, ← UInt64.toNat_inj,
      UInt64.toNat_mod, Int63.toNat_toUInt64, Nat.ModEq, inside]
  have counted := Nat.count_modEq_card (2 ^ 63) positive result.toNat
  rw [inside] at counted
  rw [inputsFor, Finset.filter_congr (fun value _ => reduced value),
    card_filter_fin (2 ^ 63) (fun value => value ≡ result.toNat [MOD sampleRange.toNat]), counted]

/-- All results are equally frequent exactly for the ranges that divide `2^63`. -/
theorem draws_unbiased_iff (sampleRange : UInt64) (positive : 1 ≤ sampleRange.toNat)
    (small : sampleRange.toNat ≤ 2 ^ 63) :
    (∀ first second, first < sampleRange → second < sampleRange →
      inputsFor sampleRange first = inputsFor sampleRange second) ↔ sampleRange.toNat ∣ 2 ^ 63 := by
  constructor
  · intro equal
    -- The last result never gets a value of the tail, the first one gets one if there is a tail.
    have first : (0 : UInt64) < sampleRange := UInt64.lt_iff_toNat_lt.mpr positive
    have last : (sampleRange - 1).toNat = sampleRange.toNat - 1 :=
      UInt64.toNat_sub_of_le _ _ (UInt64.le_iff_toNat_le.mpr positive)
    have below : sampleRange - 1 < sampleRange := by
      rw [UInt64.lt_iff_toNat_lt, last]
      omega
    have same := equal 0 (sampleRange - 1) first below
    have tail := Nat.mod_lt (2 ^ 63) positive
    rw [inputsFor_eq positive small first, inputsFor_eq positive small below, last,
      if_neg (by omega : ¬ sampleRange.toNat - 1 < 2 ^ 63 % sampleRange.toNat)] at same
    apply Nat.dvd_of_mod_eq_zero
    by_contra nonzero
    rw [if_pos (by simpa using Nat.pos_of_ne_zero nonzero)] at same
    omega
  · intro divides first second firstBelow secondBelow
    rw [inputsFor_eq positive small firstBelow, inputsFor_eq positive small secondBelow,
      Nat.mod_eq_zero_of_dvd divides]
    simp

/-- A range of four is unbiased, as four divides `2^63`. -/
theorem draws_of_four_unbiased :
    (∀ first second : UInt64, first < 4 → second < 4 → inputsFor 4 first = inputsFor 4 second) ↔
      (4 : UInt64).toNat ∣ 2 ^ 63 :=
  draws_unbiased_iff 4 (by decide) (by decide)

/-- Of the results below three, zero is more frequent than two. -/
theorem draws_of_three_biased :
    ¬ ∀ first second : UInt64, first < 3 → second < 3 → inputsFor 3 first = inputsFor 3 second := by
  intro equal
  have same := equal 0 2 (by decide) (by decide)
  rw [inputsFor_eq (by decide) (by decide) (by decide),
    inputsFor_eq (by decide) (by decide) (by decide)] at same
  revert same
  decide

/-- `uniformSampler`: the range of its generator and the values that `rng` has still to give. -/
structure UniformSampler where
  sampleRange : UInt64
  rng : ℕ → Int63

namespace UniformSampler

/-- `Initialize`. -/
def initializeWith (sampleRange : UInt64) (s : UniformSampler) : UniformSampler :=
  { s with sampleRange := sampleRange }

/-- `Next`; `none` if it never returns. -/
def next (s : UniformSampler) : Option (Except SamplerError UInt64 × UniformSampler) :=
  match Sampler.next s.sampleRange (s.rng 0) with
  | none => none
  | some outcome => some (outcome, { s with rng := fun position => s.rng (position + 1) })

/-- `Reset`. -/
def reset (s : UniformSampler) : UniformSampler := s

/-- Successive calls of `Next` with their outcomes. -/
def nexts : ℕ → UniformSampler → Option (List (Except SamplerError UInt64) × UniformSampler)
  | 0, s => some ([], s)
  | calls + 1, s =>
    match s.next with
    | none => none
    | some (outcome, after) =>
      match nexts calls after with
      | none => none
      | some (outcomes, last) => some (outcome :: outcomes, last)

/-- The values that the successful calls return. -/
def successes (outcomes : List (Except SamplerError UInt64)) : List UInt64 :=
  outcomes.filterMap Except.toOption

/-- The values of successive calls of `Next` are distinct, and once there are as many as the range
has, the next call returns an error. -/
structure WithoutReplacement (s : UniformSampler) : Prop where
  distinct : ∀ calls outcomes last, s.nexts calls = some (outcomes, last) →
    (successes outcomes).Nodup
  exhausted : ∀ calls outcomes last, s.nexts calls = some (outcomes, last) →
    s.sampleRange.toNat ≤ (successes outcomes).length →
    ∃ error after, last.next = some (.error error, after)

/-- A draw keeps the range. -/
theorem next_sampleRange {s after : UniformSampler} {outcome : Except SamplerError UInt64}
    (made : s.next = some (outcome, after)) : after.sampleRange = s.sampleRange := by
  unfold next at made
  split at made
  · cases made
  · obtain ⟨_, rfl⟩ := Prod.mk.inj (Option.some.inj made)
    rfl

/-- The first of several calls and the others. -/
theorem nexts_succ {calls : ℕ} {s last : UniformSampler}
    {outcomes : List (Except SamplerError UInt64)}
    (made : s.nexts (calls + 1) = some (outcomes, last)) :
    ∃ outcome after rest, s.next = some (outcome, after) ∧ after.nexts calls = some (rest, last) ∧
      outcomes = outcome :: rest := by
  rw [nexts] at made
  split at made
  · cases made
  · rename_i outcome after first
    split at made
    · cases made
    · rename_i rest end_ others
      obtain ⟨rfl, rfl⟩ := Prod.mk.inj (Option.some.inj made)
      exact ⟨outcome, after, rest, first, others, rfl⟩

/-- Calls of `Next` keep the range. -/
theorem nexts_sampleRange {calls : ℕ} {s last : UniformSampler}
    {outcomes : List (Except SamplerError UInt64)} (made : s.nexts calls = some (outcomes, last)) :
    last.sampleRange = s.sampleRange := by
  induction calls generalizing s outcomes with
  | zero =>
    obtain ⟨_, rfl⟩ := Prod.mk.inj (Option.some.inj made)
    rfl
  | succ calls inductionHypothesis =>
    obtain ⟨outcome, after, rest, first, others, _⟩ := nexts_succ made
    rw [inductionHypothesis others, next_sampleRange first]

/-- Without a range every call returns an error. -/
theorem successes_of_zero {calls : ℕ} {s last : UniformSampler}
    {outcomes : List (Except SamplerError UInt64)} (zero : s.sampleRange = 0)
    (made : s.nexts calls = some (outcomes, last)) : successes outcomes = [] := by
  induction calls generalizing s outcomes with
  | zero =>
    obtain ⟨rfl, _⟩ := Prod.mk.inj (Option.some.inj made)
    rfl
  | succ calls inductionHypothesis =>
    obtain ⟨outcome, after, rest, first, others, rfl⟩ := nexts_succ made
    have later := inductionHypothesis ((next_sampleRange first).trans zero) others
    rw [next, zero, next_zero] at first
    obtain ⟨rfl, _⟩ := Prod.mk.inj (Option.some.inj first)
    exact later

/-- With a range up to `2^63` every call succeeds. -/
theorem next_succeeds {s : UniformSampler} (positive : s.sampleRange ≠ 0)
    (small : s.sampleRange.toNat ≤ 2 ^ 63) : ∃ value after, s.next = some (.ok value, after) := by
  have reduced := next_of_le positive small (s.rng 0)
  exact ⟨_, { s with rng := fun position => s.rng (position + 1) }, by rw [next, reduced]⟩

/-- Every call in a row succeeds for a range in `[1, 2^63]`. -/
theorem nexts_succeed {s : UniformSampler} (positive : s.sampleRange ≠ 0)
    (small : s.sampleRange.toNat ≤ 2 ^ 63) (calls : ℕ) :
    ∃ outcomes last, s.nexts calls = some (outcomes, last) ∧
      (successes outcomes).length = calls := by
  induction calls generalizing s with
  | zero => exact ⟨[], s, rfl, rfl⟩
  | succ calls inductionHypothesis =>
    obtain ⟨value, after, first⟩ := next_succeeds positive small
    have same := next_sampleRange first
    obtain ⟨outcomes, last, others, count⟩ :=
      inductionHypothesis (same ▸ positive) (same ▸ small)
    refine ⟨.ok value :: outcomes, last, ?_, ?_⟩
    · rw [nexts, first]
      dsimp only
      rw [others]
    · change (value :: successes outcomes).length = calls + 1
      rw [List.length_cons, count]

/-- However often it is called, a sampler with a range up to `2^63` is never exhausted; without a
range every call fails, and with a larger one none returns. -/
theorem withoutReplacement_iff (s : UniformSampler) :
    s.WithoutReplacement ↔ s.sampleRange = 0 ∨ 2 ^ 63 < s.sampleRange.toNat := by
  constructor
  · intro without
    by_contra neither
    push Not at neither
    obtain ⟨positive, small⟩ := neither
    obtain ⟨outcomes, last, made, count⟩ := nexts_succeed positive small s.sampleRange.toNat
    have same := nexts_sampleRange made
    obtain ⟨error, after, failed⟩ := without.exhausted _ _ _ made count.ge
    obtain ⟨value, other, succeeded⟩ := next_succeeds (same ▸ positive) (same ▸ small)
    rw [failed] at succeeded
    cases succeeded
  · rintro (zero | large)
    · constructor
      · intro calls outcomes last made
        rw [successes_of_zero zero made]
        exact List.nodup_nil
      · intro calls outcomes last made _
        have same := nexts_sampleRange made
        have failed := next_zero (last.rng 0)
        rw [← zero, ← same] at failed
        exact ⟨_, _, by rw [next, failed]⟩
    · have nothing : ∀ calls outcomes last, s.nexts calls = some (outcomes, last) →
          outcomes = [] := by
        intro calls outcomes last made
        cases calls with
        | zero => exact (Prod.mk.inj (Option.some.inj made)).1.symm
        | succ calls =>
          obtain ⟨outcome, after, rest, first, _⟩ := nexts_succ made
          rw [next, next_of_lt large] at first
          cases first
      constructor
      · intro calls outcomes last made
        rw [nothing calls outcomes last made]
        exact List.nodup_nil
      · intro calls outcomes last made enough
        rw [nothing calls outcomes last made] at enough
        simp only [successes, List.filterMap_nil, List.length_nil] at enough
        omega

/-- After `Initialize`, and after `Reset` however many calls later, the sampler draws without
replacement only if its range is zero, or above `2^63` where no call returns. -/
theorem uniform_without_replacement_iff (s : UniformSampler) (sampleRange : UInt64) :
    ((s.initializeWith sampleRange).WithoutReplacement ↔
      sampleRange = 0 ∨ 2 ^ 63 < sampleRange.toNat) ∧
    ∀ calls outcomes last, (s.initializeWith sampleRange).nexts calls = some (outcomes, last) →
      (last.reset.WithoutReplacement ↔ sampleRange = 0 ∨ 2 ^ 63 < sampleRange.toNat) := by
  refine ⟨withoutReplacement_iff _, ?_⟩
  intro calls outcomes last made
  rw [withoutReplacement_iff, reset, nexts_sampleRange made]
  rfl

/-- When `rng` gives a value twice, so does `Next`. -/
theorem three_drawn_with_replacement :
    ¬ (initializeWith 3 ⟨0, fun _ => 0⟩).WithoutReplacement := by
  intro without
  have twice : ((initializeWith 3 ⟨0, fun _ => 0⟩).nexts 2).map Prod.fst =
      some [.ok 0, .ok 0] := by decide +kernel
  obtain ⟨⟨outcomes, last⟩, made, rfl⟩ := Option.map_eq_some_iff.mp twice
  have distinct := without.distinct 2 _ last made
  revert distinct
  decide

end UniformSampler

end AvalancheParallel.Sampler
