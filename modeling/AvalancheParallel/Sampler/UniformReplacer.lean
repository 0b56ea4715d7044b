import AvalancheParallel.Foundation.ListUpdate
import AvalancheParallel.Foundation.RangeLoop
import AvalancheParallel.Foundation.Runs
import AvalancheParallel.Sampler.Uniform

/-!
# Uniform sampling without replacement

`uniformReplacer` of `pkg/utils/sampler/uniform_replacer_fixed.go`. The sampler shuffles the
array of the numbers below `length` while it draws, and stores only the slots that hold
another number than their own. `Intn` is given by the values it returns, each below
its argument. Counts are `int`: the sum in the check of `Sample` can wrap, but only for
counts for which `make` panics.
-/

namespace AvalancheParallel.Sampler

open AvalancheParallel.RangeLoop AvalancheParallel.LazyShuffle

/-- The values that calls of `rng.Intn` will return. -/
structure Intn where
  value : ℕ → ℕ → ℕ
  below : ∀ call n, 0 < n → value call n < n

/-- The values after the next one. -/
def Intn.later (rng : Intn) : Intn where
  value call := rng.value (call + 1)
  below call := rng.below (call + 1)

/-- `uniformReplacer`. -/
structure UniformReplacer where
  rng : Intn
  length : ℕ
  drawn : ℕ
  replacement : GoMap ℕ ℕ

/-- A sampler that has not been initialized. -/
def newUniformReplacer (rng : Intn) : UniformReplacer := ⟨rng, 0, 0, ∅⟩

/-- `defaultMap.get`. -/
def get (replacement : GoMap ℕ ℕ) (key defaultVal : ℕ) : ℕ :=
  (replacement.lookup key).getD defaultVal

/-- The largest length `make` allows for a slice of `int`: 2 ^ 48 bytes on a 64-bit platform. -/
def maxInts : Int64 := 2 ^ 45

namespace UniformReplacer

/-- `Initialize`, with its error. -/
def initializeWith (length : Int64) (s : UniformReplacer) : UniformReplacer × Option SamplerError :=
  if length ≤ 0 then (s, some .invalidArgument)
  else if 2147483647 < length then (s, some .invalidArgument)
  else ({ s with length := length.toInt.toNat, drawn := 0, replacement := ∅ }, none)

/-- `nextInt`; `none` is the panic of `Intn` for an argument that is not positive. -/
def nextInt (s : UniformReplacer) : Option (ℕ × UniformReplacer) :=
  if s.length ≤ s.drawn then none
  else
    let index := s.rng.value 0 (s.length - s.drawn)
    let ret := get s.replacement index index
    let replacementIndex := s.length - s.drawn - 1
    let replacementVal := get s.replacement replacementIndex replacementIndex
    some (ret, { s with
      rng := s.rng.later
      replacement := s.replacement.insert index replacementVal
      drawn := s.drawn + 1 })

/-- The loop in `Sample`. -/
def nextInts : ℕ → UniformReplacer → Option (List ℕ × UniformReplacer)
  | 0, s => some ([], s)
  | count + 1, s =>
    match s.nextInt with
    | none => none
    | some (ret, after) =>
      match nextInts count after with
      | none => none
      | some (results, last) => some (ret :: results, last)

/-- What a call of `Sample` ends with. -/
inductive Outcome where
  | returned (results : List ℕ)
  | failed (error : SamplerError)
  | panicked
deriving DecidableEq

/-- `Sample`. -/
def sample (count : Int64) (s : UniformReplacer) : UniformReplacer × Outcome :=
  if count ≤ 0 then (s, .returned [])
  else if Int64.ofNat s.length < Int64.ofNat s.drawn + count then (s, .failed .outOfRange)
  else if maxInts < count then (s, .panicked)
  else
    match s.nextInts count.toInt.toNat with
    | none => (s, .panicked)
    | some (results, after) => (after, .returned results)

/-- `Reset`. -/
def reset (s : UniformReplacer) : UniformReplacer := { s with replacement := ∅, drawn := 0 }

/-- `SetSeed`: other random values. -/
def setSeed (rng : Intn) (s : UniformReplacer) : UniformReplacer := { s with rng := rng }

/-- The number that a slot of the array holds. -/
def slots (s : UniformReplacer) (key : ℕ) : ℕ := get s.replacement key key

/-- The values returned since the array was last in order, together with what its first slots hold,
are the numbers below `length`. -/
structure Drawn (s : UniformReplacer) (returned : List ℕ) : Prop where
  short : s.length < 2 ^ 31
  count : s.drawn = returned.length
  fits : s.drawn ≤ s.length
  perm : (returned ++ front s.slots (s.length - s.drawn)).Perm (List.range s.length)

/-- Writing a replacement changes one slot. -/
theorem slots_insert (s : UniformReplacer) (rng : Intn) (drawn index value : ℕ) :
    slots ⟨rng, s.length, drawn, s.replacement.insert index value⟩ =
      Function.update s.slots index value := by
  funext key
  by_cases same : key = index
  · subst same
    simp [slots, get]
  · simp [slots, get, same, Finmap.lookup_insert_of_ne _ same]

/-- An array in order. -/
theorem drawn_nil {s : UniformReplacer} (short : s.length < 2 ^ 31) (none : s.drawn = 0)
    (order : s.replacement = ∅) : s.Drawn [] := by
  refine ⟨short, none, by omega, ?_⟩
  have own : s.slots = id := by
    funext key
    simp [slots, get, order]
  simp [own, none, front]

/-- As long as numbers are left, `nextInt` returns one of them. -/
theorem Drawn.nextInt {s : UniformReplacer} {returned : List ℕ} (drawn : s.Drawn returned)
    (left : s.drawn < s.length) :
    ∃ ret after, s.nextInt = some (ret, after) ∧ after.length = s.length ∧
      after.Drawn (returned ++ [ret]) := by
  obtain ⟨remaining, split⟩ := Nat.exists_eq_succ_of_ne_zero (by omega : s.length - s.drawn ≠ 0)
  have inside := s.rng.below 0 (s.length - s.drawn) (by omega)
  generalize chosen : s.rng.value 0 (s.length - s.drawn) = index at inside
  refine ⟨s.slots index, { s with
    rng := s.rng.later
    replacement := s.replacement.insert index (s.slots remaining)
    drawn := s.drawn + 1 }, ?_, rfl, drawn.short, ?_, left, ?_⟩
  · have last : s.length - s.drawn - 1 = remaining := by omega
    simp only [UniformReplacer.nextInt, Nat.not_le.mpr left, if_false, chosen, last, slots]
  · simp [drawn.count]
  · have fewer : s.length - (s.drawn + 1) = remaining := by omega
    have moved := draw_perm s.slots (split ▸ inside)
    have before := drawn.perm
    rw [split] at before
    rw [slots_insert, fewer, List.append_assoc, List.singleton_append]
    exact (moved.append_left returned).trans before

/-- The loop returns as many numbers as are asked for if so many are left. -/
theorem Drawn.nextInts {s : UniformReplacer} {returned : List ℕ} (drawn : s.Drawn returned)
    {count : ℕ} (enough : s.drawn + count ≤ s.length) :
    ∃ results after, s.nextInts count = some (results, after) ∧ results.length = count ∧
      after.Drawn (returned ++ results) := by
  induction count generalizing s returned with
  | zero => exact ⟨[], s, rfl, rfl, by simpa using drawn⟩
  | succ count inductionHypothesis =>
    obtain ⟨ret, after, first, length, next⟩ := drawn.nextInt (by omega)
    have position : after.drawn = s.drawn + 1 := by
      rw [next.count, drawn.count, List.length_append, List.length_singleton]
    obtain ⟨results, last, others, number, final⟩ := inductionHypothesis next (by omega)
    refine ⟨ret :: results, last, ?_, by rw [List.length_cons, number], by simpa using final⟩
    rw [UniformReplacer.nextInts, first]
    dsimp only
    rw [others]

/-- The sum in the check of `Sample` does not wrap for a count that `make` accepts. -/
theorem toInt_drawn_add {drawn : ℕ} {count : Int64} (short : drawn < 2 ^ 31) (positive : 0 < count)
    (small : count ≤ maxInts) : (Int64.ofNat drawn + count).toInt = drawn + count.toInt := by
  have lower : 0 < count.toInt := Int64.lt_iff_toInt_lt.mp positive
  have upper : count.toInt ≤ 2 ^ 45 := Int64.le_iff_toInt_le.mp small
  rw [Int64.toInt_add, Int64.toInt_ofNat_of_lt (by omega)]
  apply Int.bmod_eq_of_le <;> omega

/-- `Sample` of no more numbers than are left returns so many new ones. -/
theorem Drawn.sample_within {s : UniformReplacer} {returned : List ℕ} (drawn : s.Drawn returned)
    {count : Int64} (positive : 0 < count) (enough : s.drawn + count.toInt ≤ s.length) :
    ∃ results after, s.sample count = (after, .returned results) ∧
      results.length = count.toInt.toNat ∧ after.Drawn (returned ++ results) := by
  have short := drawn.short
  have fits := drawn.fits
  have some : 0 < count.toInt := Int64.lt_iff_toInt_lt.mp positive
  have small : count ≤ maxInts := by
    rw [Int64.le_iff_toInt_le, show maxInts.toInt = 2 ^ 45 from rfl]
    omega
  have within : ¬ Int64.ofNat s.length < Int64.ofNat s.drawn + count := by
    rw [Int64.lt_iff_toInt_lt, toInt_drawn_add (by omega) positive small,
      Int64.toInt_ofNat_of_lt (by omega)]
    omega
  obtain ⟨results, after, made, number, next⟩ :=
    drawn.nextInts (by omega : s.drawn + count.toInt.toNat ≤ s.length)
  refine ⟨results, after, ?_, number, next⟩
  rw [UniformReplacer.sample, if_neg (Int64.not_le.mpr positive), if_neg within,
    if_neg (Int64.not_lt.mpr small), made]

/-- A call of `Sample` returns new numbers, or it leaves the sampler alone. -/
theorem Drawn.sample {s : UniformReplacer} {returned : List ℕ} (drawn : s.Drawn returned)
    (count : Int64) :
    (∃ results after, s.sample count = (after, .returned results) ∧
      after.Drawn (returned ++ results)) ∨
    ∃ outcome, s.sample count = (s, outcome) ∧ ∀ results, outcome ≠ .returned results := by
  by_cases none : count ≤ 0
  · exact Or.inl ⟨[], s, by rw [UniformReplacer.sample, if_pos none], by simpa using drawn⟩
  · have positive : 0 < count := Int64.not_le.mp none
    by_cases beyond : Int64.ofNat s.length < Int64.ofNat s.drawn + count
    · refine Or.inr ⟨.failed .outOfRange, ?_, nofun⟩
      rw [UniformReplacer.sample, if_neg none, if_pos beyond]
    · by_cases large : maxInts < count
      · refine Or.inr ⟨.panicked, ?_, nofun⟩
        rw [UniformReplacer.sample, if_neg none, if_neg beyond, if_pos large]
      · have short := drawn.short
        have fits := drawn.fits
        rw [Int64.lt_iff_toInt_lt, Int64.toInt_ofNat_of_lt (by omega),
          toInt_drawn_add (by omega) positive (Int64.not_lt.mp large)] at beyond
        obtain ⟨results, after, made, _, next⟩ := drawn.sample_within positive (by omega)
        exact Or.inl ⟨results, after, made, next⟩

/-- `Initialize` puts the array in order, or it leaves the sampler alone. -/
theorem initializeWith_cases (length : Int64) (s : UniformReplacer) :
    (∃ error, s.initializeWith length = (s, some error)) ∨
    ∃ after, s.initializeWith length = (after, none) ∧ after.Drawn [] := by
  by_cases none : length ≤ 0
  · exact Or.inl ⟨_, by rw [initializeWith, if_pos none]⟩
  · by_cases large : 2147483647 < length
    · exact Or.inl ⟨_, by rw [initializeWith, if_neg none, if_pos large]⟩
    · refine Or.inr ⟨_, by rw [initializeWith, if_neg none, if_neg large], drawn_nil ?_ rfl rfl⟩
      have upper : length.toInt ≤ 2147483647 := Int64.le_iff_toInt_le.mp (Int64.not_lt.mp large)
      dsimp only
      omega

end UniformReplacer

/-- A call on a sampler. -/
inductive ReplacerCall where
  | initializeWith (length : Int64)
  | sample (count : Int64)
  | reset
  | setSeed (rng : Intn)

/-- A sampler with the values it has returned since the last `Initialize` or `Reset`. -/
structure Session where
  sampler : UniformReplacer
  returned : List ℕ

/-- One call. -/
def Session.call (session : Session) : ReplacerCall → Session
  | .initializeWith length =>
    match session.sampler.initializeWith length with
    | (after, none) => ⟨after, []⟩
    | (after, some _) => ⟨after, session.returned⟩
  | .sample count =>
    match session.sampler.sample count with
    | (after, .returned results) => ⟨after, session.returned ++ results⟩
    | (after, _) => ⟨after, session.returned⟩
  | .reset => ⟨session.sampler.reset, []⟩
  | .setSeed rng => ⟨session.sampler.setSeed rng, session.returned⟩

/-- Every call keeps what was returned and what is left a permutation of the range. -/
theorem Session.call_drawn {session : Session} (drawn : session.sampler.Drawn session.returned)
    (call : ReplacerCall) : (session.call call).sampler.Drawn (session.call call).returned := by
  cases call with
  | initializeWith length =>
    rcases session.sampler.initializeWith_cases length with ⟨error, refused⟩ | ⟨after, made, fresh⟩
    · simpa only [Session.call, refused] using drawn
    · simpa only [Session.call, made] using fresh
  | sample count =>
    rcases drawn.sample count with ⟨results, after, made, next⟩ | ⟨outcome, same, nothing⟩
    · simpa only [Session.call, made] using next
    · simpa only [Session.call, same] using drawn
  | reset => exact UniformReplacer.drawn_nil drawn.short rfl rfl
  | setSeed rng => exact ⟨drawn.short, drawn.count, drawn.fits, drawn.perm⟩

example : (Runs.run Session.call
    ⟨newUniformReplacer ⟨fun _ _ => 0, fun _ _ positive => positive⟩, []⟩
    [.initializeWith 3, .sample 2, .sample 2, .sample 1]).returned = [0, 2, 1] := by
  decide +kernel

end AvalancheParallel.Sampler
